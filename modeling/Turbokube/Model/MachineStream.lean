import Turbokube.Model.Watch

/-!
# The stream of the native state machine

`stateMachine.Stream` serves the watches of one client and takes one request at a time.  A
request to create a watch registers its id and then runs `watch` until the watch waits for
alerts.  From there a goroutine goes on with it, which calls back when it ends to remove the
id.  A request to cancel a watch cancels its context and removes the id at once; the goroutine
notices later.

The registry is `watches`: it has the index of the watcher whose context the stored function
cancels.  What a watch sends is in its record, and `replies` has what the stream itself sends.
Ids are integers; the counter of the program would wrap after `2 ^ 63` generated ids.
-/

namespace Turbokube

open Encoding Lmdb

/-- `invalid` is a message without a request. -/
inductive WatchRequest where
  | create (watchId : Int) (req : WatchCreateRequest)
  | cancel (watchId : Int)
  | progress
  | invalid

inductive StreamReply where
  | errExists
  | canceled (watchId : Int)
  | notify (watchId : Int) (header : ResponseHeader)
  deriving DecidableEq, Repr

/-- While the watch is being created the stream takes no requests. -/
def WatchPhase.isStarting : WatchPhase → Bool
  | .created | .scan | .insert | .rescan => true
  | .idle | .due | .done => false

/-- A watch of the stream: whether its goroutine was started, whether its context was
cancelled, and whether the goroutine has called back. -/
structure Watcher where
  watchId : Int
  watch : Watch
  started : Bool := false
  canceled : Bool := false
  called : Bool := false

/-- A replica and one of its streams.  `closed` is the end of the context of the stream, and
`returned` that of the stream. -/
structure MachineStream where
  store : Store
  pending : Option (List Bytes × Nat) := none
  watchID : Int := 0
  watches : Table Int Nat := .empty
  watchers : List Watcher := []
  replies : List StreamReply := []
  closed : Bool := false
  returned : Bool := false

/-- What can happen next: the two halves of `Update`, the next request, a step of a watch, the
end of its goroutine, the call back, the end of the client, and that the stream notices it. -/
inductive MachineAction where
  | commit (ents : List Entry)
  | tell
  | request (req : WatchRequest)
  | step (i : Nat)
  | exit (i : Nat)
  | callback (i : Nat)
  | close
  | stop

/-- The loop of `nextWatchID`.  Among as many ids as are registered and one more, one is
free. -/
def nextWatchID (watches : Table Int Nat) : Nat → Int → Int
  | 0, watchID => watchID + 1
  | n + 1, watchID =>
      if (watches.get (watchID + 1)).isSome then nextWatchID watches n (watchID + 1)
      else watchID + 1

namespace MachineStream

/-- A stream that has just been opened. -/
def opened (zeroIndex : Bool) (s : Store) (pending : Option (List Bytes × Nat)) : MachineStream :=
  { store := s, pending := pending, watchID := if zeroIndex then -1 else 0 }

def next (σ : MachineStream) : Int := nextWatchID σ.watches σ.watches.entries.length σ.watchID

def receiving (σ : MachineStream) : Bool :=
  !σ.returned && σ.watchers.all (fun c => !c.watch.phase.isStarting)

/-- The id is registered before the watch begins. -/
def add (σ : MachineStream) (watchId : Int) (req : WatchCreateRequest) : MachineStream :=
  { σ with
    watches := σ.watches.put watchId σ.watchers.length
    watchers := σ.watchers ++ [{ watchId := watchId, watch := { req := req } }] }

def create (σ : MachineStream) (watchId : Int) (req : WatchCreateRequest) : MachineStream :=
  if watchId = 0 then { σ with watchID := σ.next }.add σ.next req
  else if (σ.watches.get watchId).isSome then { σ with replies := σ.replies ++ [.errExists] }
  else σ.add watchId req

/-- The function stored under an id is called and the id removed. -/
def remove (σ : MachineStream) (watchId : Int) (i : Nat) : MachineStream :=
  { σ with
    watches := σ.watches.del watchId
    watchers := σ.watchers.modify i (fun c => { c with canceled := true }) }

def cancel (σ : MachineStream) (watchId : Int) : MachineStream :=
  match σ.watches.get watchId with
  | none => σ
  | some i =>
      { σ.remove watchId i with replies := σ.replies ++ [.canceled watchId] }

def progress (E : Env) (σ : MachineStream) : MachineStream :=
  { σ with
    replies := σ.replies ++ [.notify ((σ.watches.entries.head?.map Prod.fst).getD 0)
      (responseHeader E σ.store.dbMeta.rev)] }

def handle (E : Env) (σ : MachineStream) : WatchRequest → MachineStream
  | .create watchId req => σ.create watchId req
  | .cancel watchId => σ.cancel watchId
  | .progress => σ.progress E
  | .invalid => { σ with returned := true }

/-- A step of the watch.  Once it has passed the check of its start revision a watch without an
id gets one.  The last step of its creation starts the goroutine. -/
def step (E : Env) (σ : MachineStream) (i : Nat) (c : Watcher) : MachineStream :=
  let w := c.watch.step E σ.store
  if c.watchId = 0 ∧ c.watch.phase = .created ∧ w.phase = .scan then
    { σ with
      watchID := σ.next
      watchers := σ.watchers.modify i (fun c => { c with watchId := σ.next, watch := w }) }
  else
    { σ with
      watchers := σ.watchers.modify i (fun c => { c with
        watch := w
        started := c.started || (c.watch.phase = .rescan && w.phase = .idle) }) }

/-- The goroutine that has ended removes what is registered under the id of its watch. -/
def callback (σ : MachineStream) (i : Nat) (c : Watcher) : MachineStream :=
  let σ' := match σ.watches.get c.watchId with
    | none => σ
    | some j => σ.remove c.watchId j
  { σ' with watchers := σ'.watchers.modify i (fun c => { c with called := true }) }

/-- `none` is for an action that cannot happen. -/
def act (E : Env) (find : WatchCreateRequest → Bytes → Bool) (σ : MachineStream) :
    MachineAction → Option MachineStream
  | .commit ents =>
      match σ.pending, update E σ.store ents with
      | none, .ok u => some { σ with store := u.store, pending := some (u.keys, u.newRev) }
      | _, _ => none
  | .tell =>
      match σ.pending with
      | some (keys, newRev) =>
          some { σ with
            pending := none
            watchers := σ.watchers.map (fun c =>
              { c with watch := c.watch.alert find keys newRev }) }
      | none => none
  | .request req => if σ.receiving then some (σ.handle E req) else none
  | .step i => (σ.watchers[i]?).map (σ.step E i)
  | .exit i =>
      match σ.watchers[i]? with
      | none => none
      | some c =>
          if (c.canceled || σ.closed) && c.watch.phase = .idle then
            some { σ with
              watchers := σ.watchers.modify i (fun c => { c with watch := c.watch.cancel }) }
          else none
  | .callback i =>
      match σ.watchers[i]? with
      | none => none
      | some c =>
          if c.started && c.watch.phase = .done && !c.called then some (σ.callback i c) else none
  | .close => some { σ with closed := true }
  | .stop =>
      if σ.closed && σ.receiving then
        some { σ with
          watchers := σ.watchers.mapIdx (fun i c =>
            { c with canceled := c.canceled || σ.watches.entries.any (fun e => e.2 = i) })
          returned := true }
      else none

end MachineStream

end Turbokube
