import Turbokube.Model.StateMachine

/-!
# Watches of the native state machine

A watch is a goroutine that sends messages to the service that asked for it.  It checks
the start revision once, scans the events recorded so far, registers for alerts, scans
again for what was committed in between, and from then on scans whenever an alert tells
of a newer revision.  `Watch.step` is what it does next, given the store its read
transaction sees.

The results carry the id of the watch.  It is the same for all messages of a watch and
the service does not read it, so it is left out.  An alert channel holds a thousand
revisions before `Update` has to wait for the watch; here it has no limit.
-/

namespace Turbokube

open Encoding Lmdb

structure WatchCreateRequest where
  key : Bytes
  rangeEnd : Bytes := []
  startRevision : Int64 := 0
  progressNotify : Bool := false
  filters : List Int32 := []
  prevKv : Bool := false
  deriving DecidableEq, Repr

/-- `Event_EventType` on the wire. -/
def EventType.toUInt8 : EventType → UInt8
  | .put => 0
  | .delete => 1

namespace WatchCreateRequest

def since (req : WatchCreateRequest) : Nat := req.startRevision.toUInt64.toNat

/-- The keys a scan selects.  A range without an end, or that ends where it starts, is one
key. -/
def selects (req : WatchCreateRequest) (k : Bytes) : Bool :=
  if k = req.key then true
  else if req.rangeEnd = [] ∨ req.key = req.rangeEnd then false
  else if k < req.key then false
  else if req.rangeEnd ≤ k then false
  else true

def filtered (req : WatchCreateRequest) (etype : EventType) : Bool :=
  req.filters.any (fun f => f.toUInt32.toUInt8 = etype.toUInt8)

/-- The events a scan sends. -/
def wants (req : WatchCreateRequest) (evt : KvEvent) : Bool :=
  req.selects evt.key && !req.filtered evt.etype

end WatchCreateRequest

structure WatchEvent where
  type : EventType
  kv : Option KeyValue
  prevKv : Option KeyValue
  deriving DecidableEq, Repr

inductive WatchMessage where
  | init (header : ResponseHeader)
  | event (rev : Nat) (evt : WatchEvent)
  | sync (header : ResponseHeader)
  | notify (header : ResponseHeader)
  | errCompacted (header : ResponseHeader)
  deriving DecidableEq, Repr

def WatchMessage.event? : WatchMessage → Option WatchEvent
  | .event _ evt => some evt
  | _ => none

/-- A record without a revision is not sent. -/
def Kv.shownIfAny (kv : Kv) : Option KeyValue := if 0 < kv.rev.upper then some kv.toProto else none

/-- The message for an event.  The content is looked up by the revision of the event.  An
error of the lookup is overwritten when the event is a deletion. -/
def watchEvent (E : Env) (db : DbKv) (prevKv : Bool) (evt : KvEvent) : Except Err WatchEvent :=
  if evt.rev.isdel then
    let prev := if prevKv then (db.getRev E evt.key evt.rev.upper prevKv).2.1 else {}
    .ok ⟨evt.etype, Kv.shownIfAny { key := evt.key, rev := evt.rev }, prev.shownIfAny⟩
  else
    match db.getRev E evt.key evt.rev.upper prevKv with
    | (_, _, some e) => .error e
    | (current, prev, none) => .ok ⟨evt.etype, current.shownIfAny, prev.shownIfAny⟩

/-- The loop of a scan: what it sends, and the error that stopped it. -/
def watchLoop (E : Env) (db : DbKv) (req : WatchCreateRequest) (rev : Nat) :
    List KvEvent → List WatchMessage × Option Err
  | [] => ([], none)
  | evt :: rest =>
      if req.wants evt then
        match watchEvent E db req.prevKv evt with
        | .error e => ([], some e)
        | .ok m =>
            match watchLoop E db req rev rest with
            | (msgs, err) => (.event rev m :: msgs, err)
      else watchLoop E db req rev rest

structure Scanned where
  rev : Nat
  sent : List WatchMessage
  err : Option Err

/-- One read transaction: the revision of the store, and the events since a revision. -/
def watchScan (E : Env) (s : Store) (req : WatchCreateRequest) (since : Nat) : Scanned :=
  if since = 0 then ⟨s.dbMeta.rev, [], none⟩
  else
    match s.tables.kv.scan (UInt64.ofNat since) with
    | .error e => ⟨s.dbMeta.rev, [], some e⟩
    | .ok evts =>
        match watchLoop E s.tables.kv req s.dbMeta.rev evts with
        | (msgs, some e) => ⟨s.dbMeta.rev, msgs, some e⟩
        | (msgs, none) =>
            ⟨s.dbMeta.rev,
              if msgs = [] then [] else msgs ++ [.sync (responseHeader E s.dbMeta.rev)], none⟩

inductive WatchPhase where
  | created
  | scan
  | insert
  | rescan
  | idle
  | due
  | done
  deriving DecidableEq, Repr

/-- `first` is the revision read by the first scan, which the program does not keep. -/
structure Watch where
  req : WatchCreateRequest
  phase : WatchPhase := .created
  rev : Nat := 0
  first : Nat := 0
  registered : Bool := false
  alerts : List Nat := []
  sent : List WatchMessage := []

namespace Watch

/-- A scan, after which the watch goes on with `next` unless it failed. -/
def scanned (w : Watch) (r : Scanned) (next : WatchPhase) : Watch :=
  { w with
    rev := r.rev
    sent := w.sent ++ r.sent
    phase := if r.err.isSome then .done else next }

/-- The check of the start revision. -/
def check (E : Env) (s : Store) (w : Watch) : Watch :=
  if 0 < w.req.since ∧ w.req.since < s.dbMeta.revMin.toNat then
    { w with
      sent := w.sent ++ [.errCompacted (responseHeader E s.dbMeta.revMin.toNat)], phase := .done }
  else { w with sent := w.sent ++ [.init (responseHeader E 0)], phase := .scan }

/-- All queued alerts are taken and the last one counts. -/
def drain (w : Watch) : Watch :=
  match w.alerts.getLast? with
  | none => w
  | some alertRev => { w with alerts := [], phase := if alertRev ≤ w.rev then .idle else .due }

/-- A scan that sent nothing is reported if the client asked for it.  One that failed ends the
watch and its registration. -/
def sync (E : Env) (s : Store) (w : Watch) : Watch :=
  let r := watchScan E s w.req (w.rev + 1)
  let w := w.scanned r .idle
  if r.err.isSome then { w with registered := false }
  else if r.sent = [] ∧ w.req.progressNotify then
    { w with sent := w.sent ++ [.notify (responseHeader E r.rev)] }
  else w

def step (E : Env) (s : Store) (w : Watch) : Watch :=
  match w.phase with
  | .created => w.check E s
  | .scan => { w.scanned (watchScan E s w.req w.req.since) .insert with first := s.dbMeta.rev }
  | .insert => { w with registered := true, phase := .rescan }
  | .rescan => w.scanned (watchScan E s w.req (w.rev + 1)) .idle
  | .idle => w.drain
  | .due => w.sync E s
  | .done => w

/-- The client goes away while the watch waits. -/
def cancel (w : Watch) : Watch :=
  if w.phase = .idle then { w with phase := .done, registered := false } else w

/-- The second half of `Update` for one watch.  `find` is the interval tree: whether the
interval of a request holds a key. -/
def alert (find : WatchCreateRequest → Bytes → Bool) (keys : List Bytes) (newRev : Nat)
    (w : Watch) : Watch :=
  if w.registered && keys.any (find w.req) then { w with alerts := w.alerts ++ [newRev] } else w

/-- The events sent so far. -/
def events (w : Watch) : List WatchEvent := w.sent.filterMap WatchMessage.event?

end Watch

/-- A replica and one of its watches.  Between the commit of a batch and its alerts `pending`
has the affected keys and the revision of the batch. -/
structure Watching where
  store : Store
  pending : Option (List Bytes × Nat) := none
  watch : Watch

/-- What can happen next: the two halves of `Update`, a step of the watch, or its end. -/
inductive WatchAction where
  | commit (ents : List Entry)
  | tell
  | step
  | cancel

/-- `none` is for an action that cannot happen: the alerts of a batch come before the next
batch. -/
def Watching.act (E : Env) (find : WatchCreateRequest → Bytes → Bool) (σ : Watching) :
    WatchAction → Option Watching
  | .commit ents =>
      match σ.pending, update E σ.store ents with
      | none, .ok u => some { σ with store := u.store, pending := some (u.keys, u.newRev) }
      | _, _ => none
  | .tell =>
      match σ.pending with
      | some (keys, newRev) =>
          some { σ with pending := none, watch := σ.watch.alert find keys newRev }
      | none => none
  | .step => some { σ with watch := σ.watch.step E σ.store }
  | .cancel => some { σ with watch := σ.watch.cancel }

def Watching.acts (E : Env) (find : WatchCreateRequest → Bytes → Bool) :
    List WatchAction → Watching → Option Watching
  | [], σ => some σ
  | a :: rest, σ => (σ.act E find a).bind (Watching.acts E find rest)

end Turbokube
