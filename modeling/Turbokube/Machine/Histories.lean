import Turbokube.Machine.Runs
import Turbokube.Store.Compaction

/-!
# Reached states are versioned

In a run whose transactions have at most 1024 operations, and as long as the revision
fits its 52 bits, the tables represent the versions of the log.  `S` asks for the
puts that keep the present value to send none, `U` for a run without compaction.
-/

namespace Turbokube

open Encoding Lmdb DbKv

variable {E : Env} {Q : Batch → Cmd → Prop} {b : Batch}

/-- A put that keeps the present value sends none. -/
def PutRequest.SendsNoKept (req : PutRequest) : Prop := req.ignoreValue = true → req.value = []

instance (req : PutRequest) : Decidable req.SendsNoKept := by
  unfold PutRequest.SendsNoKept
  infer_instance

/-- What holds of the tables at a revision, while it fits its 52 bits. -/
def VersionedTo (E : Env) (S U : Prop) (t : Tables) (r : Nat) : Prop :=
  r < 2 ^ 52 → t.kv.Versioned E S U ((r + 1) * 4096)

theorem Effect.versionedTo {S U : Prop} {b' : Batch} {cmd : Cmd} (heff : Effect E b cmd b')
    (hops : cmd.OpsAtMost 1024) (hputs : cmd.PutsMeet (fun req => S → req.SendsNoKept))
    (hcompact : U → ∀ revision, cmd ≠ .compact revision)
    (h : VersionedTo E S U b.store.tables b.newRev) :
    VersionedTo E S U b'.store.tables b'.newRev := by
  intro hr
  have hver := h (heff.newRev_le.trans_lt hr)
  rcases heff.kvRun (by decide) hops hputs hver.recsOk with
    hrun | ⟨revision, last, rfl, hsame, hc⟩
  · exact hver.kvRun (fun req hreq hs => hreq hs) hr hrun
  · rw [hsame]
    exact hver.compact (fun hU => hcompact hU revision rfl) hc

theorem Reached.versioned {S U : Prop} (hops : ∀ b cmd, Q b cmd → cmd.OpsAtMost 1024)
    (hputs : ∀ b cmd, Q b cmd → cmd.PutsMeet (fun req => S → req.SendsNoKept))
    (hcompact : U → ∀ b revision, ¬ Q b (.compact revision)) (h : Reached E Q b)
    (hrev : b.newRev < 2 ^ 52) :
    b.store.tables.kv.Versioned E S U ((b.newRev + 1) * 4096) := by
  refine h.inv (I := fun t r _ => VersionedTo E S U t r) (fun _ => .empty) ?_ hrev
  intro b b' cmd hI hQ heff
  refine heff.versionedTo (hops b cmd hQ) (hputs b cmd hQ) (fun hU revision heq => ?_) hI
  subst heq
  exact hcompact hU b revision hQ

/-- What is left when nothing is asked of the puts and of compaction. -/
theorem Reached.versioned_of_opsAtMost
    (hops : ∀ b cmd, Q b cmd → cmd.OpsAtMost 1024) (h : Reached E Q b) (hrev : b.newRev < 2 ^ 52) :
    b.store.tables.kv.Versioned E False False ((b.newRev + 1) * 4096) :=
  h.versioned hops
    (fun _ cmd _ => Cmd.PutsMeet.imp (fun _ _ hfalse => hfalse.elim) (putsMeet_true cmd))
    (fun hfalse => hfalse.elim) hrev

end Turbokube
