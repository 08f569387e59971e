import Turbokube.Model.ZigKv
import Turbokube.Machine.CompactOutcomes

/-!
# Rounds of the Zig compaction

The outer loop ends by the flag `done`.  The loop over the events sets it at an event that stops
the call, and leaves it when the events run out.  The next round then has no event and no key, so
it changes nothing, and neither does any round after it.
-/

namespace Turbokube

open Encoding Lmdb DbKv

namespace ZigKv

variable {E : Env} {db d : DbKv} {key k : Bytes} {keyRev : Keyrev} {limit : Nat} {max : UInt64}

/-- An event that a call removes on its way, and the key it names. -/
def Passes (max : UInt64) (p : Bytes × Bytes) (key : Bytes) : Prop :=
  ∃ rev, Keyrev.fromKey p.1 p.2 = .ok rev ∧ ¬ (0 < max ∧ max ≤ rev.upper) ∧
    evtKey p.1 p.2 = .ok key

/-- The records of a key can all be read. -/
def Prunable (db : DbKv) (key : Bytes) : Prop :=
  ValidKey key ∧ ∀ b ∈ db.rev.dups key, ∃ krec, Keyrecord.fromBytes {} key b = .ok krec

/-- The events that the cursor meets run out in one call. -/
def RunsDry (db : DbKv) (max : UInt64) : Prop :=
  db.evt.walk ≠ [] ∧ db.evt.walk.length ≤ StorageKv.limitCompactionMaxKeys ∧
    ∀ p ∈ db.evt.walk, ∃ key, Passes max p key ∧ Prunable db key

section Pruning

theorem pruneDups_ok_iff (l : List Bytes) (hasNewer : Bool) (db : DbKv) :
    (∃ d, pruneDups key keyRev l hasNewer db = .ok d) ↔
      ∀ b ∈ l, ∃ krec, Keyrecord.fromBytes {} key b = .ok krec := by
  induction l generalizing hasNewer db with
  | nil => simp [pruneDups]
  | cons b rest ih =>
      rw [pruneDups, List.forall_mem_cons]
      cases Keyrecord.fromBytes {} key b with
      | error e => simp
      | ok krec =>
          simp only [Except.ok.injEq, exists_eq', true_and]
          split
          · exact ih _ _
          · split
            · exact ih _ _
            · exact ih _ _

theorem pruneDups_dups {l : List Bytes} {hasNewer : Bool}
    (h : pruneDups key keyRev l hasNewer db = .ok d) (hk : k ≠ key) :
    d.rev.dups k = db.rev.dups k := by
  induction l generalizing hasNewer db with
  | nil =>
      obtain rfl := Except.ok.inj h
      rfl
  | cons b rest ih =>
      have hdel : (db.rev.delDup key b).dups k = db.rev.dups k := by
        rw [DupTable.dups_delDup, if_neg hk]
      rw [pruneDups] at h
      split at h
      · cases h
      · split at h
        · exact ih h
        · split at h
          · exact (ih h).trans hdel
          · exact (ih h).trans hdel

theorem pruneKey_ok_iff : (∃ d, pruneKey db key keyRev = .ok d) ↔ Prunable db key := by
  rw [pruneKey, Prunable]
  by_cases hkey : ValidKey key
  · rw [and_iff_right hkey]
    by_cases hnil : db.rev.dups key = []
    · rw [hnil]
      rcases setRange_of_dups_eq_nil hkey hnil with hset | ⟨e, rest, hset, hlt⟩
      · simp [hset]
      · simp [hset, hlt.ne']
    · obtain ⟨rest, hset, -⟩ := setRange_of_dups_ne_nil hkey hnil
      simp only [hset, if_true]
      exact pruneDups_ok_iff _ _ _
  · refine iff_of_false ?_ (fun h => hkey h.1)
    simp [not_ne_iff.mp hkey, setRange_nil]

theorem pruneKey_dups (h : pruneKey db key keyRev = .ok d) (hk : k ≠ key) :
    d.rev.dups k = db.rev.dups k := by
  rw [pruneKey] at h
  split at h
  · obtain rfl := Except.ok.inj h
    rfl
  · cases h
  · split at h
    · exact pruneDups_dups h hk
    · obtain rfl := Except.ok.inj h
      rfl
  · obtain rfl := Except.ok.inj h
    rfl

theorem prune_ok_iff {l : List (Bytes × Keyrev)} (hne : l.Pairwise (fun p q => p.1 ≠ q.1))
    (db : DbKv) :
    (∃ d, prune l db = .ok d) ↔ ∀ p ∈ l, Prunable db p.1 := by
  induction l generalizing db with
  | nil => simp [prune]
  | cons p rest ih =>
      obtain ⟨key, keyRev⟩ := p
      obtain ⟨hkeys, hne⟩ := List.pairwise_cons.mp hne
      rw [prune, List.forall_mem_cons, ← @pruneKey_ok_iff db key keyRev]
      cases hkey : pruneKey db key keyRev with
      | error e => simp
      | ok d =>
          simp only [Except.ok.injEq, exists_eq', true_and]
          rw [ih hne]
          -- pruning a key leaves the records of the others
          refine forall₂_congr (fun p hp => ?_)
          rw [Prunable, Prunable, pruneKey_dups hkey (hkeys p hp).symm]

end Pruning

section Rounds

/-- The loop over the events passes over all of them. -/
def PassesAll (limit : Nat) (max : UInt64) (ahead : List (Bytes × Bytes)) (scanned : Nat) : Prop :=
  scanned + ahead.length ≤ limit ∧ ∀ p ∈ ahead, ∃ key, Passes max p key

theorem passesAll_cons {p : Bytes × Bytes} {ahead : List (Bytes × Bytes)} {scanned : Nat} :
    PassesAll limit max (p :: ahead) scanned ↔
      (scanned < limit ∧ ∃ key, Passes max p key) ∧ PassesAll limit max ahead (scanned + 1) := by
  rw [PassesAll, PassesAll, List.forall_mem_cons, List.length_cons]
  constructor
  · rintro ⟨hlen, hp, hahead⟩
    exact ⟨⟨by omega, hp⟩, by omega, hahead⟩
  · rintro ⟨⟨-, hp⟩, hlen, hahead⟩
    exact ⟨by omega, hp, hahead⟩

/-- Then it has no event left and leaves `done`. -/
theorem scanLoop_of_passesAll {ahead : List (Bytes × Bytes)} {s : Vars}
    (h : PassesAll limit max ahead s.scanned) :
    ∃ s', scanLoop limit max ahead s = .ok s' ∧ s'.done = s.done ∧ s'.notFound = true ∧
      s'.db.rev = s.db.rev ∧
      ∀ k, (s'.keys.get k).isSome ↔
        (s.keys.get k).isSome ∨ ∃ p ∈ ahead, Passes max p k := by
  induction ahead generalizing s with
  | nil => exact ⟨_, rfl, rfl, rfl, rfl, fun k => by simp⟩
  | cons p rest ih =>
      obtain ⟨⟨hlt, key, hpass⟩, hrest⟩ := passesAll_cons.mp h
      obtain ⟨rev, hrev, hmax, hkey⟩ := id hpass
      have hgo : ¬ ((0 < max ∧ max ≤ rev.upper) ∨ limit ≤ s.scanned) := by
        rintro (hstop | hge)
        · exact hmax hstop
        · omega
      obtain ⟨s', hs', hdone, hfound, hdb, hkeys⟩ := ih (s := { s with
        scanned := s.scanned + 1, last := rev.upper, keys := s.keys.put key rev,
        db := { s.db with evt := s.db.evt.delDup p.1 p.2 } }) hrest
      refine ⟨s', ?_, hdone, hfound, hdb, fun k => ?_⟩
      · rw [show p = (p.1, p.2) from rfl, scanLoop, hrev]
        simp only
        rw [if_neg hgo, hkey]
        exact hs'
      · rw [hkeys k, List.exists_mem_cons_iff]
        have hname : Passes max p k ↔ k = key := by
          constructor
          · rintro ⟨-, -, -, hkey'⟩
            exact Except.ok.inj (hkey'.symm.trans hkey)
          · rintro rfl
            exact hpass
        simp only [hname, Table.get_put]
        by_cases hk : k = key
        · simp [hk]
        · simp [hk]

/-- Otherwise it sets `done`, unless it fails. -/
theorem scanLoop_done {ahead : List (Bytes × Bytes)} {s s' : Vars}
    (h : ¬ PassesAll limit max ahead s.scanned) (hle : s.scanned ≤ limit)
    (hs' : scanLoop limit max ahead s = .ok s') : s'.done = true := by
  induction ahead generalizing s with
  | nil => exact absurd ⟨hle, by simp⟩ h
  | cons p rest ih =>
      rw [show p = (p.1, p.2) from rfl, scanLoop] at hs'
      split at hs'
      · obtain rfl := Except.ok.inj hs'
        rfl
      · rename_i rev hrev
        split at hs'
        · obtain rfl := Except.ok.inj hs'
          rfl
        · rename_i hgo
          rw [not_or, Nat.not_le] at hgo
          split at hs'
          · cases hs'
          · rename_i key hkey
            refine ih (fun hrest => h (passesAll_cons.mpr ⟨⟨hgo.2, key, ?_⟩, hrest⟩)) ?_ hs'
            · exact ⟨rev, hrev, hgo.1, hkey⟩
            · exact hgo.2

/-- Without an event and without a key a round changes nothing. -/
theorem compactLoop_stuck {s : Vars} (hfound : s.notFound = true) (hdone : s.done = false)
    (hkeys : s.keys = .empty) (rounds n : Nat) :
    compactLoop E limit max rounds n s = none := by
  have hround : ∀ n, round E limit max n s = .ok s := by
    intro n
    have horder : E.order n s.keys.entries = [] := by
      rw [hkeys]
      exact (E.order_perm n _).eq_nil
    rw [round, if_pos hfound]
    simp only [horder, prune, hdone]
    cases s
    cases hkeys
    cases hdone
    rfl
  induction rounds generalizing n with
  | zero => rfl
  | succ rounds ih =>
      rw [compactLoop, hdone, hround]
      exact ih (n + 1)

theorem compactLoop_two {s : Vars} {n : Nat}
    (h : ∀ s', round E limit max n s = .ok s' → s'.done = true) :
    ∃ r, compactLoop E limit max 2 n s = some r := by
  rw [compactLoop]
  split
  · exact ⟨_, rfl⟩
  · cases hround : round E limit max n s with
    | error e => exact ⟨_, rfl⟩
    | ok s' =>
        refine ⟨.ok (s'.db, s'.last), ?_⟩
        simp only
        rw [compactLoop, h s' hround, if_pos rfl]

end Rounds

/-- The keys of a round can be pruned. -/
theorem prune_order_ok_iff {n : Nat} {keys : Table Bytes Keyrev} :
    (∃ d, prune (E.order n keys.entries) db = .ok d) ↔
      ∀ k, (keys.get k).isSome → Prunable db k := by
  have hperm := E.order_perm n keys.entries
  have hne : (E.order n keys.entries).Pairwise (fun p q => p.1 ≠ q.1) :=
    (hperm.pairwise_iff (fun h => h.symm)).mpr (keys.sorted.imp (fun hlt => hlt.ne))
  rw [prune_ok_iff hne]
  constructor
  · intro h k hk
    obtain ⟨r, hr⟩ := Option.isSome_iff_exists.mp hk
    exact h (k, r) (hperm.mem_iff.mpr (Table.get_eq_some_iff.mp hr))
  · intro h p hp
    refine h p.1 (Option.isSome_iff_exists.mpr ⟨p.2, ?_⟩)
    exact Table.get_eq_some_iff.mpr (hperm.mem_iff.mp hp)

section Calls

theorem Passes.unique {p : Bytes × Bytes} {key' : Bytes} (h : Passes max p key)
    (h' : Passes max p key') : key = key' := by
  obtain ⟨-, -, -, hkey⟩ := h
  obtain ⟨-, -, -, hkey'⟩ := h'
  exact Except.ok.inj (hkey.symm.trans hkey')

/-- The first round of a call. -/
def start (db : DbKv) : Vars := { db := db, ahead := db.evt.walk }

theorem compact_eq {rounds : Nat} {p : Bytes × Bytes} {rest : List (Bytes × Bytes)} {rev : Keyrev}
    (hwalk : db.evt.walk = p :: rest) (hrev : Keyrev.fromKey p.1 p.2 = .ok rev) :
    compact E rounds db max =
      compactLoop E StorageKv.limitCompactionMaxKeys max rounds 0 (start db) := by
  rw [compact, start, hwalk]
  simp only [hrev]

/-- A round that runs dry leaves the loop without an event and without a key. -/
theorem round_of_runsDry (h : RunsDry db max) :
    ∃ s, round E StorageKv.limitCompactionMaxKeys max 0 (start db) = .ok s ∧
      s.notFound = true ∧ s.done = false ∧ s.keys = .empty := by
  obtain ⟨-, hlen, hall⟩ := h
  have hpasses : PassesAll StorageKv.limitCompactionMaxKeys max db.evt.walk (start db).scanned :=
    ⟨(Nat.zero_add _).trans_le hlen, fun p hp => (hall p hp).imp (fun _ hkey => hkey.1)⟩
  obtain ⟨s, hscan, hdone, hfound, hrev, hkeys⟩ := scanLoop_of_passesAll hpasses
  have hprunable : ∀ k, (s.keys.get k).isSome → Prunable s.db k := by
    intro k hk
    rcases (hkeys k).mp hk with hnone | ⟨p, hp, hpass⟩
    · cases hnone
    · obtain ⟨key, hpass', hkey⟩ := hall p hp
      obtain rfl := hpass.unique hpass'
      rw [Prunable, hrev]
      exact hkey
  obtain ⟨d, hprune⟩ := (prune_order_ok_iff (E := E) (n := 0)).mpr hprunable
  refine ⟨{ s with db := d, keys := .empty }, ?_, hfound, hdone, rfl⟩
  have hdone' : s.done = false := hdone
  have hstart : (if (start db).notFound then Except.ok (start db)
      else scanLoop StorageKv.limitCompactionMaxKeys max (start db).ahead (start db)) =
        .ok s := hscan
  rw [round, hstart]
  simp only [hprune, hdone', Bool.false_eq_true, if_false]

/-- Otherwise the round is the last one. -/
theorem round_done {s : Vars} (h : ¬ RunsDry db max) (hne : db.evt.walk ≠ [])
    (hround : round E StorageKv.limitCompactionMaxKeys max 0 (start db) = .ok s) :
    s.done = true := by
  have hstart : (if (start db).notFound then Except.ok (start db)
      else scanLoop StorageKv.limitCompactionMaxKeys max (start db).ahead (start db)) =
      scanLoop StorageKv.limitCompactionMaxKeys max db.evt.walk (start db) := rfl
  rw [round, hstart] at hround
  split at hround
  · cases hround
  · rename_i s₁ hscan
    split at hround
    · cases hround
    · rename_i d hprune
      obtain rfl := Except.ok.inj hround
      change s₁.done = true
      refine scanLoop_done (fun hall => h ?_) (Nat.zero_le _) hscan
      obtain ⟨s₂, hscan₂, -, -, hrev, hkeys⟩ := scanLoop_of_passesAll hall
      obtain rfl := Except.ok.inj (hscan.symm.trans hscan₂)
      refine ⟨hne, (Nat.zero_add _).symm.trans_le hall.1, fun p hp => ?_⟩
      obtain ⟨key, hpass⟩ := hall.2 p hp
      refine ⟨key, hpass, ?_⟩
      have hkey := prune_order_ok_iff.mp ⟨d, hprune⟩ key ((hkeys key).mpr (.inr ⟨p, hp, hpass⟩))
      rw [Prunable, hrev] at hkey
      exact hkey

theorem compact_of_runsDry (h : RunsDry db max) (rounds : Nat) :
    compact E rounds db max = none := by
  obtain ⟨s, hround, hfound, hdone, hkeys⟩ := round_of_runsDry (E := E) h
  obtain ⟨hne, -, hall⟩ := h
  obtain ⟨p, rest, hwalk⟩ := List.exists_cons_of_ne_nil hne
  obtain ⟨-, ⟨rev, hrev, -⟩, -⟩ := hall p (by rw [hwalk]; exact List.mem_cons_self)
  rw [compact_eq hwalk hrev]
  cases rounds with
  | zero => rfl
  | succ rounds =>
      rw [compactLoop, hround]
      exact compactLoop_stuck hfound hdone hkeys rounds _

theorem compact_of_not_runsDry (h : ¬ RunsDry db max) : ∃ r, compact E 2 db max = some r := by
  cases hwalk : db.evt.walk with
  | nil => exact ⟨.error .checksumMissing, by rw [compact, hwalk]⟩
  | cons p rest =>
      cases hrev : Keyrev.fromKey p.1 p.2 with
      | error e =>
          refine ⟨.error e, ?_⟩
          rw [compact, hwalk]
          simp only [hrev]
      | ok rev =>
          rw [compact_eq hwalk hrev]
          exact compactLoop_two (fun s hs => round_done h (by rw [hwalk]; simp) hs)

end Calls

/-- The Zig compaction returns exactly when its events do not run dry, whatever the tables. -/
theorem compact_returns_iff (E : Env) (db : DbKv) (max : UInt64) :
    (∃ rounds r, compact E rounds db max = some r) ↔ ¬ RunsDry db max := by
  constructor
  · rintro ⟨rounds, r, hcall⟩ hdry
    rw [compact_of_runsDry hdry] at hcall
    cases hcall
  · exact fun hdry => ⟨2, compact_of_not_runsDry hdry⟩

section Stores

variable {S : Prop} {ch : Bytes → List Version} {lo hi : Nat}

theorem prunable_of_rep (h : db.Rep E S ch) (hlog : LogOk db.log lo hi) {p : Bytes × Bytes}
    (hp : p ∈ db.evt.pairs) : Prunable db (decodeEvt p).key := by
  obtain ⟨-, x, hx, -⟩ := h.version_of_evt hp
  refine ⟨(hlog.key_of_mem hx).1, fun b hb => ?_⟩
  rw [h.dups] at hb
  obtain ⟨v, -, rfl⟩ := List.mem_map.mp hb
  exact ⟨_, Keyrecord.fromBytes_bytes {} (v.record (decodeEvt p).key)⟩

/-- In the stores of a run everything can be read.  The events run dry when none that the cursor
meets stops the call. -/
theorem runsDry_iff (h : db.Rep E S ch) (hlog : LogOk db.log lo hi) :
    RunsDry db max ↔
      db.evt.walk ≠ [] ∧ db.evt.walk.length ≤ StorageKv.limitCompactionMaxKeys ∧
        ¬ db.MeetsStop max := by
  refine and_congr_right (fun _ => and_congr_right (fun _ => ?_))
  constructor
  · rintro hall ⟨p, hp, hstop⟩
    obtain ⟨-, ⟨rev, hrev, hmax, -⟩, -⟩ := hall p hp
    rw [fromKey_of_evtOk (h.evtOk p (db.evt.walk_sublist.subset hp))] at hrev
    obtain rfl := Except.ok.inj hrev
    exact hmax hstop
  · intro hnone p hp
    have hmem := db.evt.walk_sublist.subset hp
    have hok := h.evtOk p hmem
    refine ⟨(decodeEvt p).key, ⟨_, fromKey_of_evtOk hok, ?_, ?_⟩, prunable_of_rep h hlog hmem⟩
    · exact fun hstop => hnone ⟨p, hp, hstop⟩
    · rw [evtKey, trimChecksum_of_evtOk hok]
      simp only [uvarint_putUvarint]

theorem compact_stuck_of_reached {b : Batch} (h : Reached E (fun _ cmd => cmd.OpsAtMost 1024) b)
    (hrev : b.newRev < 2 ^ 52)
    (hdry : b.store.tables.kv.evt.walk ≠ [] ∧
      b.store.tables.kv.evt.walk.length ≤ StorageKv.limitCompactionMaxKeys ∧
      ¬ b.store.tables.kv.MeetsStop max) (rounds : Nat) :
    compact E rounds b.store.tables.kv max = none := by
  obtain ⟨ch, hrep, hlog, -⟩ := h.versioned_of_opsAtMost (fun _ _ hQ => hQ) hrev
  exact compact_of_runsDry ((runsDry_iff hrep hlog).mpr hdry) rounds

end Stores

/-- One put, and a compaction at the next revision as a client may ask for it; two puts, and a
compaction at the revision of the second, whose event the cursor steps over. -/
theorem compact_never_returns :
    (∃ s ∈ storeAfter [[.put { key := [97], value := [1] }]],
      ∀ rounds, compact .plain rounds s.tables.kv 3 = none) ∧
    ∃ s ∈ storeAfter (putsOf [97] [1, 2]),
      (∃ evt ∈ s.tables.kv.events, 3 ≤ evt.rev.upper) ∧
      ∀ rounds, compact .plain rounds s.tables.kv 3 = none := by
  constructor
  · refine exists_mem_imp (D := fun s => s.dbMeta.rev < 2 ^ 52 ∧ s.tables.kv.evt.walk ≠ [] ∧
      s.tables.kv.evt.walk.length ≤ StorageKv.limitCompactionMaxKeys ∧
      ¬ s.tables.kv.MeetsStop 3) (by decide +kernel) (fun s hs hD => ?_)
    exact compact_stuck_of_reached (b := .start s) (reached_of_storeAfter (by decide +kernel) hs)
      hD.1 hD.2
  · refine exists_mem_imp (D := fun s => s.dbMeta.rev < 2 ^ 52 ∧
      (∃ evt ∈ s.tables.kv.events, 3 ≤ evt.rev.upper) ∧ s.tables.kv.evt.walk ≠ [] ∧
      s.tables.kv.evt.walk.length ≤ StorageKv.limitCompactionMaxKeys ∧
      ¬ s.tables.kv.MeetsStop 3) (by decide +kernel) (fun s hs hD => ?_)
    exact ⟨hD.2.1, compact_stuck_of_reached (b := .start s) (reached_of_storeAfter
      (by decide +kernel) hs) hD.1 hD.2.2⟩

end ZigKv

end Turbokube
