import Turbokube.Machine.Effect

/-!
# Cutting the log into batches

The entries of a batch see the store through `Batch`, which differs from what a
fresh batch would see in three places: the revision and the index of the `meta`
table are stale until the end, and the affected keys accumulate.  No entry reads
any of the three (`applyEntry_core`), and the epoch kept by the batch is always the
stored one (`applyEntry_epoch`).  Ending a batch and starting another one is
therefore invisible to the entries that follow.
-/

namespace Turbokube

open Encoding Lmdb

/-- Outcomes that agree in what two functions make of their values. -/
theorem cases_of_map_eq {α β γ : Type} {f : α → γ} {g : β → γ} {x : Except Err α}
    {y : Except Err β} (h : x.map f = y.map g) :
    (∃ e, x = .error e ∧ y = .error e) ∨ ∃ a b, x = .ok a ∧ y = .ok b ∧ f a = g b := by
  cases x with
  | error e =>
      cases y with
      | error e' => exact .inl ⟨e, rfl, by rw [Except.error.inj h]⟩
      | ok b => cases h
  | ok a =>
      cases y with
      | error e' => cases h
      | ok b => exact .inr ⟨a, b, rfl, rfl, Except.ok.inj h⟩

namespace Batch

/-- What the entries of a batch can read: the rest is set to fixed values. -/
def core (b : Batch) : Batch :=
  { b with
    store := { b.store with dbMeta := { b.store.dbMeta with rev := 0, index := 0 } }
    keys := [] }

/-- The outcome of an entry as far as later entries can tell. -/
def coreOut {α : Type} (r : Except Err (Batch × α)) : Except Err (Batch × α) :=
  r.map (fun p => (p.1.core, p.2))

@[simp] theorem coreOut_error {α : Type} (e : Err) :
    coreOut (.error e : Except Err (Batch × α)) = .error e := rfl

@[simp] theorem coreOut_ok {α : Type} (b : Batch) (a : α) :
    coreOut (.ok (b, a)) = .ok (b.core, a) := rfl

theorem cases_of_coreOut_eq {α : Type} {x y : Except Err (Batch × α)}
    (h : coreOut x = coreOut y) :
    (∃ e, x = .error e ∧ y = .error e) ∨
      ∃ b c a, x = .ok (b, a) ∧ y = .ok (c, a) ∧ b.core = c.core := by
  rcases cases_of_map_eq h with herr | ⟨p, q, hx, hy, hpq⟩
  · exact .inl herr
  · obtain ⟨hcore, hres⟩ := Prod.mk.inj hpq
    exact .inr ⟨p.1, q.1, p.2, hx, by rw [hy, hres], hcore⟩

end Batch

open Batch

theorem expireLoop_keys (epoch : UInt64) (l : List (Bytes × Bytes)) (t : Tables) (newRev : Nat)
    (keys keys' : List Bytes) :
    (expireLoop epoch l t newRev keys).map (fun r => (r.1, r.2.1)) =
      (expireLoop epoch l t newRev keys').map (fun r => (r.1, r.2.1)) := by
  induction l generalizing t newRev keys keys' with
  | nil => rfl
  | cons p rest ih =>
      obtain ⟨k, v⟩ := p
      simp only [expireLoop]
      split
      · exact ih t newRev keys keys'
      · cases DbLeaseExp.due epoch k v with
        | none => rfl
        | some id =>
            simp only
            cases cmdLeaseRevoke t (newRev + 1) epoch id with
            | error e => rfl
            | ok r =>
                obtain ⟨t', affected, val⟩ := r
                simp only
                split
                · exact ih t' newRev keys keys'
                · exact ih t' (newRev + 1) _ _

theorem applyTick_core (b : Batch) (ent : Entry) (term : UInt64) :
    coreOut (applyTick b ent term) = coreOut (applyTick b.core ent term) := by
  have hkeys := expireLoop_keys (b.epoch + 1) b.store.tables.leaseExp.entries b.store.tables
    b.newRev b.keys []
  by_cases hterm : term < b.store.dbMeta.term
  · rw [applyTick, if_pos hterm, applyTick,
      if_pos (show term < b.core.store.dbMeta.term from hterm)]
    rfl
  · rw [applyTick, if_neg hterm, applyTick,
      if_neg (show ¬ term < b.core.store.dbMeta.term from hterm)]
    simp only [core]
    rcases cases_of_map_eq hkeys with ⟨e, h, h'⟩ |
      ⟨⟨t, newRev, keys⟩, ⟨t', newRev', keys'⟩, h, h', heq⟩
    · rw [h, h']
    · obtain ⟨rfl, rfl⟩ := Prod.mk.inj heq
      rw [h, h']
      rfl

theorem applyTerm_core (b : Batch) (ent : Entry) (term : UInt64) :
    coreOut (applyTerm b ent term) = coreOut (applyTerm b.core ent term) := by
  by_cases hterm : term < b.store.dbMeta.term
  · rw [applyTerm, if_pos hterm, applyTerm,
      if_pos (show term < b.core.store.dbMeta.term from hterm)]
    rfl
  · rw [applyTerm, if_neg hterm, applyTerm,
      if_neg (show ¬ term < b.core.store.dbMeta.term from hterm)]
    rfl

/-- No entry reads the stored revision, the index or the affected keys. -/
theorem applyEntry_core (E : Env) (b : Batch) (ent : Entry) :
    coreOut (applyEntry E b ent) = coreOut (applyEntry E b.core ent) := by
  obtain ⟨index, cmd, result⟩ := ent
  cases cmd with
  | tick term => exact applyTick_core b _ term
  | term term => exact applyTerm_core b _ term
  | put req =>
      simp only [applyEntry, applyPut, core]
      split
      · rfl
      · split
        · rfl
        · split <;> try rfl
          split <;> rfl
  | txn req =>
      simp only [applyEntry, applyTxn, core]
      split
      · rfl
      · split <;> rfl
  | deleteRange _ | compact _ | leaseGrant _ | leaseRevoke _ | leaseKeepAlive _
  | leaseKeepAliveBatch _ =>
      simp only [applyEntry, applyDeleteRange, applyCompact, applyLeaseGrant, applyLeaseRevoke,
        applyLeaseKeepAlive, applyLeaseKeepAliveBatch, core]
      split <;> rfl
  | invalid => rfl
  | unknown => rfl
  | empty => rfl

theorem applyEntry_congr (E : Env) {b c : Batch} (h : b.core = c.core) (ent : Entry) :
    coreOut (applyEntry E b ent) = coreOut (applyEntry E c ent) := by
  rw [applyEntry_core, h, ← applyEntry_core]

theorem applyEntries_congr (E : Env) (ents : List Entry) {b c : Batch} (h : b.core = c.core) :
    coreOut (applyEntries E ents b) = coreOut (applyEntries E ents c) := by
  induction ents generalizing b c with
  | nil => simp [applyEntries, h]
  | cons ent ents ih =>
      simp only [applyEntries]
      rcases cases_of_coreOut_eq (applyEntry_congr E h ent) with
        ⟨e, hb, hc⟩ | ⟨b', c', res, hb, hc, hcore⟩
      · rw [hb, hc]
      · rw [hb, hc]
        rcases cases_of_coreOut_eq (ih hcore) with ⟨e, hb', hc'⟩ |
          ⟨b'', c'', results, hb', hc', hcore'⟩
        · simp only [hb', hc']
        · simp only [hb', hc', coreOut_ok, hcore']

theorem applyEntries_append (E : Env) (xs ys : List Entry) (b : Batch) :
    applyEntries E (xs ++ ys) b =
      match applyEntries E xs b with
      | .error e => .error e
      | .ok (b', rs) =>
          match applyEntries E ys b' with
          | .error e => .error e
          | .ok (b'', rs') => .ok (b'', rs ++ rs') := by
  induction xs generalizing b with
  | nil =>
      simp only [List.nil_append, applyEntries]
      cases applyEntries E ys b with
      | error e => rfl
      | ok r => rfl
  | cons ent xs ih =>
      simp only [List.cons_append, applyEntries]
      cases applyEntry E b ent with
      | error e => rfl
      | ok r =>
          obtain ⟨b', res⟩ := r
          simp only [ih b']
          cases applyEntries E xs b' with
          | error e => rfl
          | ok r' =>
              obtain ⟨b'', rs⟩ := r'
              simp only
              cases applyEntries E ys b'' with
              | error e => rfl
              | ok r'' => rfl

/-- What the locals of a batch that started at `rev` have to do with the store. -/
structure Batch.Synced (b : Batch) (rev : Nat) : Prop where
  epoch : b.epoch = b.store.dbMeta.epoch
  stored : b.store.dbMeta.rev = rev
  le : rev ≤ b.newRev

theorem synced_start (s : Store) : (Batch.start s).Synced s.dbMeta.rev := ⟨rfl, rfl, le_rfl⟩

theorem synced_applyEntries {E : Env} {ents : List Entry} {b b' : Batch} {rs : List Result}
    {rev : Nat} (hb : b.Synced rev) (h : applyEntries E ents b = .ok (b', rs)) : b'.Synced rev := by
  induction ents generalizing b rs with
  | nil =>
      obtain ⟨rfl, -⟩ := Prod.mk.inj (Except.ok.inj h)
      exact hb
  | cons ent ents ih =>
      simp only [applyEntries] at h
      split at h
      · cases h
      · rename_i c res hc
        split at h
        · cases h
        · rename_i hrest
          have heff := effect_of_applyEntry hc
          obtain ⟨rfl, -⟩ := Prod.mk.inj (Except.ok.inj h)
          exact ih ⟨heff.stored_epoch hb.epoch, heff.stored_rev.trans hb.stored,
            hb.le.trans heff.newRev_le⟩ hrest

theorem finish_eq {b : Batch} {rev : Nat} (hb : b.Synced rev) (index : UInt64) :
    b.finish rev index =
      { b.store with dbMeta := { b.store.dbMeta with index := index, rev := b.newRev } } := by
  have hrev : (if rev < b.newRev then b.newRev else b.store.dbMeta.rev) = b.newRev := by
    split
    · rfl
    · have := hb.stored
      have := hb.le
      omega
  rw [Batch.finish, hrev]

/-- A batch that starts where another one ended looks to its entries like the rest
of that one. -/
theorem core_start_finish {b : Batch} {rev : Nat} (hb : b.Synced rev) (index : UInt64) :
    (Batch.start (b.finish rev index)).core = b.core := by
  rw [finish_eq hb, core, Batch.start, core]
  simp only
  rw [← hb.epoch]

theorem eq_of_core_eq {b c : Batch} (h : b.core = c.core) :
    b.store.tables = c.store.tables ∧ b.newRev = c.newRev ∧ b.epoch = c.epoch := by
  simp only [core, Batch.mk.injEq, Store.mk.injEq] at h
  exact ⟨h.1.1, h.2.2.1, h.2.1⟩

theorem finish_congr {b c : Batch} {rev rev' : Nat} (hb : b.Synced rev) (hc : c.Synced rev')
    (h : b.core = c.core) (index : UInt64) : b.finish rev index = c.finish rev' index := by
  rw [finish_eq hb, finish_eq hc]
  simp only [core, Batch.mk.injEq, Store.mk.injEq, Meta.mk.injEq] at h
  obtain ⟨⟨htables, hepoch, -, hlease, -, hcompacted, hmin, hterm⟩, -, hrev, -⟩ := h
  simp only [htables, hepoch, hlease, hcompacted, hmin, hterm, hrev]

/-- What a batch stores and answers. -/
def outcome (r : Except Err Updated) : Except Err (Store × List Result) :=
  r.map (fun u => (u.store, u.results))

/-- Batches applied one after another. -/
def updates (E : Env) : List (List Entry) → Store → Except Err (Store × List Result)
  | [], s => .ok (s, [])
  | ents :: rest, s =>
      match update E s ents with
      | .error e => .error e
      | .ok u =>
          match updates E rest u.store with
          | .error e => .error e
          | .ok (s', rs) => .ok (s', u.results ++ rs)

theorem update_append (E : Env) (s : Store) {xs ys : List Entry} (hxs : xs ≠ []) (hys : ys ≠ []) :
    outcome (update E s (xs ++ ys)) =
      match update E s xs with
      | .error e => .error e
      | .ok u =>
          match outcome (update E u.store ys) with
          | .error e => .error e
          | .ok (s', rs) => .ok (s', u.results ++ rs) := by
  obtain ⟨x, hx⟩ : ∃ x, xs.getLast? = some x := ⟨_, List.getLast?_eq_some_getLast hxs⟩
  obtain ⟨y, hy⟩ : ∃ y, ys.getLast? = some y := ⟨_, List.getLast?_eq_some_getLast hys⟩
  have hlast : (xs ++ ys).getLast? = some y := by
    rw [List.getLast?_append, hy]
    rfl
  simp only [update, applyEntries_append, hlast, hx, hy]
  cases hb : applyEntries E xs (.start s) with
  | error e => rfl
  | ok r =>
      obtain ⟨b, rs⟩ := r
      have hsync := synced_applyEntries (synced_start s) hb
      simp only
      rcases cases_of_coreOut_eq
        (applyEntries_congr E ys (core_start_finish hsync x.index).symm) with
        ⟨e, hc, hd⟩ | ⟨c, d, rs', hc, hd, hcore⟩
      · rw [hc, hd]
        rfl
      · rw [hc, hd]
        have hfin := finish_congr (synced_applyEntries hsync hc)
          (synced_applyEntries (synced_start _) hd) hcore y.index
        simp only [outcome, Except.map, hfin]

/-- Batches do what their entries do in one. -/
theorem updates_cons (E : Env) (s : Store) {ents : List Entry} {rest : List (List Entry)}
    (hents : ents ≠ []) (hrest : ∀ l ∈ rest, l ≠ []) :
    updates E (ents :: rest) s = outcome (update E s (ents ++ rest.flatten)) := by
  induction rest generalizing ents s with
  | nil =>
      rw [updates, List.flatten_nil, List.append_nil]
      cases update E s ents with
      | error e => rfl
      | ok u => simp [updates, outcome, Except.map]
  | cons ents' rest ih =>
      obtain ⟨hents', hrest⟩ := List.forall_mem_cons.mp hrest
      rw [List.flatten_cons,
        update_append E s hents (List.append_ne_nil_of_left_ne_nil hents' _), updates]
      cases update E s ents with
      | error e => rfl
      | ok u => simp only [ih u.store hents' hrest]

/-- Replicas that cut the same log differently agree on every table and on every
result, and on the error when the log cannot be applied.  No bound on the revision is
asked: the counter is unbounded in the model, and wraps in no log that can be written. -/
theorem updates_eq_update_flatten (E : Env) (s : Store) (batches : List (List Entry))
    (hne : batches ≠ []) (hall : ∀ ents ∈ batches, ents ≠ []) :
    updates E batches s = outcome (update E s batches.flatten) := by
  cases batches with
  | nil => exact absurd rfl hne
  | cons ents rest =>
      obtain ⟨hents, hrest⟩ := List.forall_mem_cons.mp hall
      rw [List.flatten_cons]
      exact updates_cons E s hents hrest

theorem updates_two_puts :
    ∃ s rs, updates .plain [[⟨1, .put { key := [97], value := [1] }, {}⟩],
        [⟨2, .tick 0, {}⟩, ⟨3, .put { key := [97], value := [2] }, {}⟩]] .init = .ok (s, rs) ∧
      outcome (update .plain .init [⟨1, .put { key := [97], value := [1] }, {}⟩,
        ⟨2, .tick 0, {}⟩, ⟨3, .put { key := [97], value := [2] }, {}⟩]) = .ok (s, rs) := by
  have heq := updates_eq_update_flatten .plain .init
    [[⟨1, .put { key := [97], value := [1] }, {}⟩],
      [⟨2, .tick 0, {}⟩, ⟨3, .put { key := [97], value := [2] }, {}⟩]]
    (by decide) (by decide)
  have hok : (updates .plain [[⟨1, .put { key := [97], value := [1] }, {}⟩],
      [⟨2, .tick 0, {}⟩, ⟨3, .put { key := [97], value := [2] }, {}⟩]] .init).isOk = true := by
    decide +kernel
  cases hu : updates .plain [[⟨1, .put { key := [97], value := [1] }, {}⟩],
      [⟨2, .tick 0, {}⟩, ⟨3, .put { key := [97], value := [2] }, {}⟩]] .init with
  | error e =>
      rw [hu] at hok
      cases hok
  | ok r => exact ⟨r.1, r.2, rfl, heq.symm.trans hu⟩

end Turbokube
