import Mathlib.Logic.Function.Basic
import Turbokube.Model.StateMachine

/-!
# The controllers of a shard

Each node runs a controller that, while its replica leads the shard, proposes a TICK every
second.  A TERM proposed before fences off the controllers of older terms.  `tick` and
`LeaderUpdated` hold the mutex of the controller, also while they wait for a proposal, so a
controller is either idle or inside one call of `Apply`.

A call that returns an error says nothing about its proposal: it may have been applied, it
may be lost, and it may be applied later.  The counter of the last index, which is only
logged, is left out, and so is `Stop`, which only keeps ticks from coming.
-/

namespace Turbokube

structure LeaderInfo where
  shardID : UInt64
  replicaID : UInt64
  leaderID : UInt64
  term : UInt64
  deriving DecidableEq, Repr

/-- The calls of `Apply` in the source: the one of `LeaderUpdated` and the two of `tick`. -/
inductive CallSite where
  | leaderUpdated (term : UInt64)
  | setTerm
  | tick
  deriving DecidableEq, Repr

structure Waiting where
  site : CallSite
  /-- The log has brought the command to the store. -/
  applied : Bool := false
  deriving DecidableEq, Repr

structure Controller where
  isLeader : UInt64 → Bool := fun _ => false
  shardID : UInt64 := 0
  term : UInt64 := 0
  termSet : Bool := false
  waiting : Option Waiting := none

namespace Controller

def start (shard : UInt64) (c : Controller) : Controller := { c with shardID := shard }

/-- The command a call proposes. -/
def proposal (c : Controller) : CallSite → Cmd
  | .leaderUpdated term => .term term
  | .setTerm => .term c.term
  | .tick => .tick c.term

def tick (c : Controller) : Controller :=
  if c.isLeader c.shardID then
    if !c.termSet ∧ 0 < c.term then { c with waiting := some { site := .setTerm } }
    else { c with waiting := some { site := .tick } }
  else c

def leaderUpdated (c : Controller) (info : LeaderInfo) : Controller :=
  let c := { c with
    isLeader := Function.update c.isLeader info.shardID (info.leaderID == info.replicaID) }
  if c.shardID ≠ 0 ∧ c.isLeader c.shardID ∧ c.term ≠ info.term then
    { c with waiting := some { site := .leaderUpdated info.term } }
  else { c with term := info.term }

/-- What follows a call of `Apply`.  The error it may have returned is only logged. -/
def returned (c : Controller) : CallSite → Controller
  | .leaderUpdated term => { c with termSet := true, term := term, waiting := none }
  | .setTerm => { c with termSet := true, waiting := some { site := .tick } }
  | .tick => { c with waiting := none }

end Controller

/-- The controllers of the nodes and the store they share. -/
structure Cluster (N : Type) where
  batch : Batch
  nodes : N → Controller
  /-- Proposals whose call has returned an error and that were not applied so far. -/
  late : List Cmd
  /-- The terms of the ticks that advanced the epoch. -/
  accepted : List UInt64

inductive Event (N : Type) where
  | start (n : N)
  | leaderUpdated (n : N) (info : LeaderInfo)
  | tick (n : N)
  | applied (n : N) (index : UInt64)
  | returned (n : N) (ok : Bool)
  | appliedLate (i : Nat) (index : UInt64)
  | client (ent : Entry)
  | commit (index : UInt64)

/-- The commands only controllers propose. -/
def Cmd.isInternal : Cmd → Bool
  | .tick _ => true
  | .term _ => true
  | _ => false

namespace Cluster

variable {N : Type}

def init : Cluster N := ⟨.start .init, fun _ => {}, [], []⟩

def setNode [DecidableEq N] (w : Cluster N) (n : N) (c : Controller) : Cluster N :=
  { w with nodes := Function.update w.nodes n c }

/-- The log brings an entry to the store. -/
def apply (E : Env) (w : Cluster N) (ent : Entry) : Option (Cluster N) :=
  match applyEntry E w.batch ent with
  | .error _ => none
  | .ok (b, _) =>
      some { w with
        batch := b
        accepted :=
          match ent.cmd with
          | .tick term => if b.epoch ≠ w.batch.epoch then w.accepted ++ [term] else w.accepted
          | _ => w.accepted }

/-- One step.  The terms a node is notified of do not decrease, and a call returns without
an error only when its command was applied. -/
def step [DecidableEq N] (E : Env) (shard : UInt64) (w : Cluster N) : Event N → Option (Cluster N)
  | .start n => if shard = 0 then none else some (w.setNode n ((w.nodes n).start shard))
  | .leaderUpdated n info =>
      let c := w.nodes n
      if c.waiting ≠ none ∨ info.term < c.term then none
      else some (w.setNode n (c.leaderUpdated info))
  | .tick n =>
      let c := w.nodes n
      if c.waiting ≠ none ∨ c.shardID = 0 then none else some (w.setNode n c.tick)
  | .applied n index =>
      let c := w.nodes n
      match c.waiting with
      | some ⟨site, false⟩ =>
          (w.apply E { index := index, cmd := c.proposal site }).map
            (fun w => w.setNode n { c with waiting := some ⟨site, true⟩ })
      | _ => none
  | .returned n ok =>
      let c := w.nodes n
      match c.waiting with
      | some ⟨site, true⟩ => some (w.setNode n (c.returned site))
      | some ⟨site, false⟩ =>
          if ok then none
          else
            some { w.setNode n (c.returned site) with late := w.late ++ [c.proposal site] }
      | none => none
  | .appliedLate i index =>
      match w.late[i]? with
      | none => none
      | some cmd => { w with late := w.late.eraseIdx i }.apply E { index := index, cmd := cmd }
  | .client ent => if ent.cmd.isInternal then none else w.apply E ent
  | .commit index =>
      some { w with batch := .start (w.batch.finish w.batch.store.dbMeta.rev index) }

def run [DecidableEq N] (E : Env) (shard : UInt64) : List (Event N) → Cluster N → Option (Cluster N)
  | [], w => some w
  | ev :: evs, w =>
      match w.step E shard ev with
      | none => none
      | some w => run E shard evs w

end Cluster

end Turbokube
