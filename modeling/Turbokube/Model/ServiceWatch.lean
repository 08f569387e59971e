import Turbokube.Model.Watch

/-!
# The watch service

A client opens a stream and sends requests on it.  One goroutine handles the requests in
turn.  Each watch has two more: the one of `Model.Watch`, and one that takes its messages and
packs the events into responses.  `Packer.take` is what it does with a message.

The raft term of the headers is left out, and so are errors of the stream.  A channel between
the two goroutines of a watch holds any number of messages here.
-/

namespace Turbokube

open Encoding Lmdb

structure WatchResponse where
  header : ResponseHeader := ⟨0, 0, 0⟩
  watchId : Int64 := 0
  created : Bool := false
  canceled : Bool := false
  compactRevision : Int64 := 0
  cancelReason : String := ""
  fragment : Bool := false
  events : List WatchEvent := []
  deriving DecidableEq, Repr

def sizeMetaKeyValue : Nat := 256

def sizeMetaEvent : Nat := 256

def sizeMetaHeader : Nat := 256

def sizeMetaWatchResponse : Nat := 256

/-- What an event counts for. -/
def WatchEvent.size (kv : KeyValue) (evt : WatchEvent) : Nat :=
  kv.key.length + kv.value.length + sizeMetaKeyValue + sizeMetaEvent +
    match evt.prevKv with
    | none => 0
    | some prev => prev.key.length + prev.value.length + sizeMetaKeyValue

structure Packer where
  id : Int64 := 0
  clusterId : UInt64 := 0
  memberId : UInt64 := 0
  size : Nat := 0
  resp : WatchResponse := {}

/-- What the goroutine does with a message, and the responses it sends.  `max` is
`PCB_RESPONSE_SIZE_MAX` and `id` what `idFunc` returns.  An event without a `kv` is a nil
dereference.  The size is not reset when the events are sent. -/
def Packer.take (max : Nat) (id : Int64) (p : Packer) :
    WatchMessage → Option (Packer × List WatchResponse)
  | .init header =>
      some ({ p with
          id := id
          clusterId := header.clusterId
          memberId := header.memberId
          resp := { p.resp with header := header, watchId := id } },
        [{ header := header, watchId := id, created := true }])
  | .event rev evt =>
      match evt.kv with
      | none => none
      | some kv =>
          let sz := evt.size kv
          if p.size + sz < max then
            some ({ p with
                size := p.size + sz
                resp := { p.resp with
                  header := { p.resp.header with revision := kv.modRevision }
                  events := p.resp.events ++ [evt] } }, [])
          else
            some ({ p with
                size := sz + sizeMetaWatchResponse + sizeMetaHeader
                resp := {
                  header := ⟨p.clusterId, p.memberId, kv.modRevision⟩
                  watchId := p.id
                  events := [evt] } },
              [{ p.resp with
                fragment := p.resp.fragment || p.resp.header.revision = kv.modRevision
                header := { p.resp.header with revision := (UInt64.ofNat rev).toInt64 } }])
  | .sync header =>
      let resp := { p.resp with header := header }
      if resp.events = [] then some ({ p with resp := resp }, [])
      else
        some ({ p with resp := { header := ⟨p.clusterId, p.memberId, 0⟩, watchId := p.id } },
            [resp])
  | .notify header => some (p, [{ header := header, watchId := p.id }])
  | .errCompacted header =>
      some ({ p with id := id },
        [{ watchId := id, created := true },
          { watchId := id, canceled := true, compactRevision := header.revision }])

/-- A watch of a stream.  `taken` counts the messages that have been taken and `out` has what
was sent for them. -/
structure Conn where
  watch : Watch
  id : Int64 := 0
  taken : Nat := 0
  packer : Packer := {}
  out : List WatchResponse := []
  canceled : Bool := false

/-- What the goroutine that handles the requests waits for: the next one, the end of a watch
it has cancelled, or the sending of the header it has read. -/
inductive Handling where
  | recv
  | closing (i : Nat) (watchId : Int64)
  | answering (header : ResponseHeader)
  deriving DecidableEq

/-- A replica and one stream of its watch service. -/
structure WatchStream where
  store : Store
  pending : Option (List Bytes × Nat) := none
  watchId : Int64 := 1
  conns : List Conn := []
  watches : Table Int Nat := .empty
  handling : Handling := .recv
  answers : List WatchResponse := []

inductive StreamAction where
  | commit (ents : List Entry)
  | tell
  | create (watchId : Int64) (req : WatchCreateRequest)
  | cancel (watchId : Int64)
  | closed
  | progress
  | answer
  | step (i : Nat)
  | stop (i : Nat)
  | take (i : Nat)
  | leave (i : Nat)

namespace WatchStream

def errWatcherDuplicateID : String := "mvcc: duplicate watch ID provided on the WatchStream"

/-- `idFunc`: a watch without an id gets the next one, and is registered under its id. -/
def register (σ : WatchStream) (i : Nat) (c : Conn) : Int64 × WatchStream :=
  if c.id = 0 then
    (σ.watchId, { σ with
      watchId := σ.watchId + 1
      watches := σ.watches.put σ.watchId.toInt i })
  else (c.id, { σ with watches := σ.watches.put c.id.toInt i })

def update (σ : WatchStream) (i : Nat) (f : Conn → Conn) : WatchStream :=
  { σ with conns := σ.conns.modify i f }

/-- A request to create a watch. -/
def create (σ : WatchStream) (watchId : Int64) (req : WatchCreateRequest) : WatchStream :=
  if 0 < watchId ∧ (σ.watches.get watchId.toInt).isSome then
    { σ with answers := σ.answers ++ [{
        watchId := -1
        created := true
        canceled := true
        cancelReason := errWatcherDuplicateID }] }
  else { σ with conns := σ.conns ++ [{ watch := { req := req }, id := watchId }] }

/-- The id under which a message is handled.  The first message of a watch registers it, and
one that reports compaction unregisters it again. -/
def named (σ : WatchStream) (i : Nat) (c : Conn) : WatchMessage → Int64 × WatchStream
  | .init _ => σ.register i c
  | .errCompacted _ =>
      let r := σ.register i c
      (r.1, { r.2 with watches := r.2.watches.del r.1.toInt })
  | _ => (c.id, σ)

/-- The next message of a watch is taken. -/
def take (max : Nat) (σ : WatchStream) (i : Nat) (c : Conn) : Option WatchStream :=
  match c.watch.sent[c.taken]? with
  | none => none
  | some msg =>
      match c.packer.take max (σ.named i c msg).1 msg with
      | none => none
      | some (packer, out) =>
          some ((σ.named i c msg).2.update i (fun c => { c with
            id := (σ.named i c msg).1
            taken := c.taken + 1
            packer := packer
            out := c.out ++ out }))

/-- `none` is for an action that cannot happen. -/
def act (E : Env) (find : WatchCreateRequest → Bytes → Bool) (max : Nat) (σ : WatchStream) :
    StreamAction → Option WatchStream
  | .commit ents =>
      match σ.pending, Turbokube.update E σ.store ents with
      | none, .ok u => some { σ with store := u.store, pending := some (u.keys, u.newRev) }
      | _, _ => none
  | .tell =>
      match σ.pending with
      | some (keys, newRev) =>
          some { σ with
            pending := none
            conns := σ.conns.map (fun c => { c with watch := c.watch.alert find keys newRev }) }
      | none => none
  | .create watchId req => if σ.handling = .recv then some (σ.create watchId req) else none
  | .cancel watchId =>
      if σ.handling = .recv then
        match σ.watches.get watchId.toInt with
        | none => some σ
        | some i =>
            some { σ.update i (fun c => { c with canceled := true }) with
              handling := .closing i watchId }
      else none
  | .closed =>
      match σ.handling with
      | .closing i watchId =>
          if (σ.conns[i]?).all (fun c => c.watch.phase = .done) then
            some { σ with
              handling := .recv
              answers := σ.answers ++ [{ watchId := watchId, canceled := true }] }
          else none
      | _ => none
  | .progress =>
      if σ.handling = .recv then
        some { σ with handling := .answering (responseHeader E σ.store.dbMeta.rev) }
      else none
  | .answer =>
      match σ.handling with
      | .answering header =>
          some { σ with
            handling := .recv
            answers := σ.answers ++ [{
              header := header
              watchId := Int64.ofInt ((σ.watches.entries.head?.map Prod.fst).getD 0) }] }
      | _ => none
  | .step i => some (σ.update i (fun c => { c with watch := c.watch.step E σ.store }))
  | .stop i =>
      some (σ.update i (fun c => if c.canceled then { c with watch := c.watch.cancel } else c))
  | .take i =>
      match σ.conns[i]? with
      | none => none
      | some c => σ.take max i c
  | .leave i =>
      match σ.conns[i]? with
      | none => none
      | some c =>
          if c.watch.phase = .done then some { σ with watches := σ.watches.del c.id.toInt }
          else none

def acts (E : Env) (find : WatchCreateRequest → Bytes → Bool) (max : Nat) :
    List StreamAction → WatchStream → Option WatchStream
  | [], σ => some σ
  | a :: rest, σ => (σ.act E find max a).bind (acts E find max rest)

end WatchStream

end Turbokube
