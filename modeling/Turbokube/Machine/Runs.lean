import Turbokube.Machine.Batching
import Turbokube.Machine.Commands

/-!
# Runs

`Reached E Q b` says that a replica starting from an empty store gets to `b`, which
may be in the middle of a batch, by applying entries that each meet `Q` in the state
they are applied in.  `Reached.inv` is the induction all invariants go through: what
the first state has and every effect keeps, every reached state has.
-/

namespace Turbokube

open Encoding Lmdb DbKv

inductive Reached (E : Env) (Q : Batch → Cmd → Prop) : Batch → Prop where
  | init : Reached E Q (.start .init)
  | entry {b b' : Batch} {ent : Entry} {res : Result} (hb : Reached E Q b) (hQ : Q b ent.cmd)
      (h : applyEntry E b ent = .ok (b', res)) : Reached E Q b'
  | commit {b : Batch} (index : UInt64) (hb : Reached E Q b) :
      Reached E Q (.start (b.finish b.store.dbMeta.rev index))

/-- A run that goes on from `b`. -/
inductive Leads (E : Env) (Q : Batch → Cmd → Prop) (b : Batch) : Batch → Prop where
  | refl : Leads E Q b b
  | entry {b₁ b₂ : Batch} {ent : Entry} {res : Result} (h : Leads E Q b b₁) (hQ : Q b₁ ent.cmd)
      (happly : applyEntry E b₁ ent = .ok (b₂, res)) : Leads E Q b b₂
  | commit {b₁ : Batch} (index : UInt64) (h : Leads E Q b b₁) :
      Leads E Q b (.start (b₁.finish b₁.store.dbMeta.rev index))

/-- Every entry of a batch meets `Q` when its turn comes. -/
def AllMeet (E : Env) (Q : Batch → Cmd → Prop) : List Entry → Batch → Prop
  | [], _ => True
  | ent :: ents, b =>
      Q b ent.cmd ∧
        match applyEntry E b ent with
        | .error _ => True
        | .ok (b', _) => AllMeet E Q ents b'

/-- Every entry of a series of batches meets `Q` when its turn comes. -/
def BatchesMeet (E : Env) (Q : Batch → Cmd → Prop) : List (List Entry) → Store → Prop
  | [], _ => True
  | ents :: rest, s =>
      AllMeet E Q ents (.start s) ∧
        match update E s ents with
        | .error _ => True
        | .ok u => BatchesMeet E Q rest u.store

variable {E : Env} {Q : Batch → Cmd → Prop} {b : Batch}

theorem Reached.leads {b' : Batch} (hb : Reached E Q b) (h : Leads E Q b b') : Reached E Q b' := by
  induction h with
  | refl => exact hb
  | entry _ hQ happly ih => exact ih.entry hQ happly
  | commit index _ ih => exact ih.commit index

/-- What every entry keeps holds at the end of a series of entries. -/
theorem applyEntries_rec {I : Batch → Prop}
    (hstep : ∀ {b b' : Batch} {ent : Entry} {res : Result}, I b → Q b ent.cmd →
      applyEntry E b ent = .ok (b', res) → I b')
    {ents : List Entry} {b' : Batch} {rs : List Result} (hb : I b) (hQ : AllMeet E Q ents b)
    (h : applyEntries E ents b = .ok (b', rs)) : I b' := by
  induction ents generalizing b rs with
  | nil =>
      obtain ⟨rfl, -⟩ := Prod.mk.inj (Except.ok.inj h)
      exact hb
  | cons ent ents ih =>
      rw [applyEntries] at h
      split at h
      · cases h
      · rename_i hent
        split at h
        · cases h
        · rename_i hrest
          obtain ⟨rfl, -⟩ := Prod.mk.inj (Except.ok.inj h)
          rw [AllMeet, hent] at hQ
          exact ih (hstep hb hQ.1 hent) hQ.2 hrest

theorem Reached.applyEntries {ents : List Entry} {b' : Batch} {rs : List Result}
    (hb : Reached E Q b) (hQ : AllMeet E Q ents b)
    (h : Turbokube.applyEntries E ents b = .ok (b', rs)) : Reached E Q b' :=
  applyEntries_rec (I := Reached E Q) (fun hb hq hent => hb.entry hq hent) hb hQ h

/-- A batch applied by `update` leads from reached states to reached states. -/
theorem Reached.update {s : Store} {ents : List Entry} {u : Updated}
    (hb : Reached E Q (.start s)) (hQ : AllMeet E Q ents (.start s))
    (h : update E s ents = .ok u) : Reached E Q (.start u.store) := by
  unfold Turbokube.update at h
  split at h
  · cases h
  · rename_i b' rs happly
    split at h
    · cases h
    · rename_i ent _
      obtain rfl := Except.ok.inj h
      have hrev : b'.store.dbMeta.rev = s.dbMeta.rev :=
        (synced_applyEntries (synced_start s) happly).stored
      have hcommit := Reached.commit ent.index (hb.applyEntries hQ happly)
      rw [hrev] at hcommit
      exact hcommit

theorem Reached.updates {batches : List (List Entry)} {s s' : Store} {rs : List Result}
    (hb : Reached E Q (.start s)) (hQ : BatchesMeet E Q batches s)
    (h : updates E batches s = .ok (s', rs)) : Reached E Q (.start s') := by
  induction batches generalizing s rs with
  | nil =>
      obtain ⟨rfl, -⟩ := Prod.mk.inj (Except.ok.inj h)
      exact hb
  | cons ents rest ih =>
      rw [Turbokube.updates] at h
      split at h
      · cases h
      · rename_i u hu
        rw [BatchesMeet, hu] at hQ
        split at h
        · cases h
        · rename_i hrest
          obtain ⟨rfl, -⟩ := Prod.mk.inj (Except.ok.inj h)
          exact ih (hb.update hQ.1 hu) hQ.2 hrest

section Concrete

instance AllMeet.decidable [∀ b cmd, Decidable (Q b cmd)] :
    (ents : List Entry) → (b : Batch) → Decidable (AllMeet E Q ents b)
  | [], _ => .isTrue trivial
  | ent :: ents, b => by
      unfold AllMeet
      cases applyEntry E b ent with
      | error e => exact inferInstanceAs (Decidable (Q b ent.cmd ∧ True))
      | ok r =>
          have := AllMeet.decidable ents r.1
          exact inferInstanceAs (Decidable (Q b ent.cmd ∧ AllMeet E Q ents r.1))

instance BatchesMeet.decidable [∀ b cmd, Decidable (Q b cmd)] :
    (batches : List (List Entry)) → (s : Store) → Decidable (BatchesMeet E Q batches s)
  | [], _ => .isTrue trivial
  | ents :: rest, s => by
      unfold BatchesMeet
      cases update E s ents with
      | error e => exact inferInstanceAs (Decidable (AllMeet E Q ents (.start s) ∧ True))
      | ok u =>
          have := BatchesMeet.decidable rest u.store
          exact inferInstanceAs
            (Decidable (AllMeet E Q ents (.start s) ∧ BatchesMeet E Q rest u.store))

/-- Commands as log entries. -/
def toEntries (batches : List (List Cmd)) : List (List Entry) :=
  batches.map (fun cmds => cmds.map (fun cmd => { index := 1, cmd := cmd }))

/-- A key is put with one value after the other. -/
def putsOf (key : Bytes) (values : List UInt8) : List (List Cmd) :=
  values.map (fun v => [.put { key := key, value := [v] }])

/-- The store after batches of commands, with the default settings. -/
def storeAfter (batches : List (List Cmd)) : Option Store :=
  (updates .plain (toEntries batches) .init).toOption.map Prod.fst

theorem eq_ok_of_mem_toOption {α : Type} {x : Except Err α} {a : α} (h : a ∈ x.toOption) :
    x = .ok a := by
  cases x with
  | error e => cases h
  | ok a' =>
      obtain rfl := Option.some.inj h
      rfl

/-- From what is decided of the state a fixed run ends in. -/
theorem exists_mem_imp {α : Type} {o : Option α} {D P : α → Prop} (hD : ∃ s ∈ o, D s)
    (h : ∀ s ∈ o, D s → P s) : ∃ s ∈ o, P s := by
  obtain ⟨s, hs, hd⟩ := hD
  exact ⟨s, hs, h s hs hd⟩

theorem reached_of_storeAfter {batches : List (List Cmd)} {s : Store}
    (hQ : BatchesMeet .plain Q (toEntries batches) .init) (hs : s ∈ storeAfter batches) :
    Reached .plain Q (.start s) := by
  rw [Option.mem_def, storeAfter, Option.map_eq_some_iff] at hs
  obtain ⟨⟨s', rs⟩, hr, rfl⟩ := hs
  exact Reached.init.updates hQ (eq_ok_of_mem_toOption hr)

end Concrete

theorem Reached.mono {Q' : Batch → Cmd → Prop} (hQ : ∀ b cmd, Q b cmd → Q' b cmd)
    (h : Reached E Q b) : Reached E Q' b := by
  induction h with
  | init => exact .init
  | entry _ hq happly ih => exact ih.entry (hQ _ _ hq) happly
  | commit index _ ih => exact ih.commit index

theorem Effect.synced_self {b' : Batch} {cmd : Cmd} (heff : Effect E b cmd b')
    (h : b.Synced b.store.dbMeta.rev) : b'.Synced b'.store.dbMeta.rev := by
  refine ⟨heff.stored_epoch h.epoch, rfl, ?_⟩
  rw [heff.stored_rev]
  exact h.le.trans heff.newRev_le

theorem Reached.synced (h : Reached E Q b) : b.Synced b.store.dbMeta.rev := by
  induction h with
  | init => exact synced_start _
  | entry _ _ happly ih => exact (effect_of_applyEntry happly).synced_self ih
  | commit index _ ih => exact synced_start _

theorem Reached.newRev_le_of_leads {b' : Batch} (hb : Reached E Q b) (h : Leads E Q b b') :
    b.newRev ≤ b'.newRev := by
  induction h with
  | refl => exact le_rfl
  | entry _ _ happly ih => exact ih.trans (effect_of_applyEntry happly).newRev_le
  | commit index h ih =>
      obtain ⟨-, hrev, -⟩ := eq_of_core_eq (core_start_finish (hb.leads h).synced index)
      rw [hrev]
      exact ih

/-- An invariant of the tables, the revision and the epoch. -/
theorem Reached.inv {I : Tables → Nat → UInt64 → Prop} (hinit : I .empty 1 0)
    (hstep : ∀ {b b' : Batch} {cmd : Cmd}, I b.store.tables b.newRev b.epoch → Q b cmd →
      Effect E b cmd b' → I b'.store.tables b'.newRev b'.epoch)
    (h : Reached E Q b) : I b.store.tables b.newRev b.epoch := by
  induction h with
  | init => exact hinit
  | entry _ hq happly ih => exact hstep ih hq (effect_of_applyEntry happly)
  | commit index hb ih =>
      obtain ⟨htables, hrev, hepoch⟩ := eq_of_core_eq (core_start_finish hb.synced index)
      rw [htables, hrev, hepoch]
      exact ih

theorem opsAtMost_longest (cmd : Cmd) : ∃ n, 1 ≤ n ∧ cmd.OpsAtMost n := by
  cases cmd with
  | txn req =>
      exact ⟨req.success.length + req.failure.length + 1, by omega,
        (by omega : req.success.length ≤ _), (by omega : req.failure.length ≤ _)⟩
  | _ => exact ⟨1, le_rfl, trivial⟩

theorem putsMeet_true (cmd : Cmd) : cmd.PutsMeet (fun _ => True) := by
  cases cmd with
  | put req => exact fun _ => trivial
  | txn req => exact fun _ _ => trivial
  | _ => trivial

theorem Cmd.PutsMeet.imp {A B : PutRequest → Prop} (hAB : ∀ req, A req → B req) {cmd : Cmd}
    (h : cmd.PutsMeet A) : cmd.PutsMeet B := by
  cases cmd with
  | put req => exact fun hplain => hAB req (h hplain)
  | txn req => exact fun p hp => hAB p (h p hp)
  | _ => trivial

/-- Whatever it is asked to do, the program stores records that decode. -/
theorem Reached.recsOk (h : Reached E Q b) : b.store.tables.kv.RecsOk := by
  refine h.inv (I := fun t _ _ => t.kv.RecsOk) RecsOk.empty ?_
  intro b b' cmd hok _ heff
  obtain ⟨n, hn, hops⟩ := opsAtMost_longest cmd
  rcases heff.kvRun hn hops (putsMeet_true cmd) hok with hrun | ⟨_, _, _, _, hcompact⟩
  · exact hok.kvRun hrun
  · exact (compact_shrunk hcompact).recsOk hok

end Turbokube
