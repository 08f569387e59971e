import Turbokube.Machine.Histories
import Turbokube.Model.StorageStream
import Turbokube.Store.Newest

/-!
# The keys of a range and of a watch

A watch and a range are given the same two byte strings.  The scan of the native watch and the
scans of the modules test them in different ways and select the same keys.  A range agrees with
them unless it is the one over all keys, which the watches take for a single key, or it ends at or
before its start, where the watches still select the start.  A range also fails where a watch
does not: when the start is no key the table takes, and when a record cannot be decoded.
-/

namespace Turbokube

open Encoding Lmdb DbKv

/-- What the scan of the native watch selects. -/
theorem WatchCreateRequest.selects_iff {req : WatchCreateRequest} {k : Bytes} :
    req.selects k = true ↔ k = req.key ∨ req.key < k ∧ k < req.rangeEnd := by
  rw [selects]
  rcases lt_trichotomy k req.key with hlt | heq | hgt
  · simp [hlt, hlt.ne, lt_asymm hlt]
  · simp [heq]
  · by_cases hend : req.rangeEnd = [] ∨ req.key = req.rangeEnd
    · have hout : ¬ k < req.rangeEnd := by
        rcases hend with hnil | heq
        · rw [hnil]
          exact List.not_lt_nil k
        · rw [← heq]
          exact lt_asymm hgt
      simp [hgt.ne', hend, hout]
    · simp [hgt, hgt.ne', hend, lt_asymm hgt]

/-- What the scans of the modules select. -/
theorem StorageKv.holds_iff {req : WatchCreateRequest} {k : Bytes} :
    StorageKv.holds req k = true ↔ k = req.key ∨ req.key < k ∧ k < req.rangeEnd := by
  rw [StorageKv.holds]
  rcases lt_trichotomy k req.key with hlt | rfl | hgt
  · simp [hlt, hlt.ne, lt_asymm hlt]
  · simp
  · simp [hgt, hgt.ne', lt_asymm hgt]

/-- The range visits the key and returns it. -/
def DbKv.Shows (E : Env) (db : DbKv) (key rangeEnd k : Bytes) : Prop :=
  ∃ items count more, db.getRange E key rangeEnd {} = .ok (items, count, more) ∧
    ∃ e ∈ items, e.key = k

variable {E : Env} {S : Prop} {db : DbKv} {ch : Bytes → List Version} {lo hi : Nat}
  {key rangeEnd k : Bytes}

theorem DbKv.Rep.shows_iff (h : db.Rep E S ch) (hlog : LogOk db.log lo hi) (hlive : db.Live k) :
    db.Shows E key rangeEnd k ↔
      ValidKey key ∧ InRange key rangeEnd k ∧ db.RangeReadable key rangeEnd := by
  constructor
  · rintro ⟨items, count, more, hget, e, he, rfl⟩
    have hkey := validKey_of_getRange hget
    obtain ⟨hread, hout⟩ := (h.getRange_newest hlog hkey).mp hget
    obtain ⟨rfl, -⟩ := Prod.mk.inj hout
    exact ⟨hkey, ((h.mem_entries hlog).mp he).1, hread⟩
  · rintro ⟨hkey, hin, hread⟩
    obtain ⟨e, he⟩ := Option.isSome_iff_exists.mp ((h.isSome_visibleAt_zero hlog k).mpr hlive)
    obtain rfl := h.key_of_visibleAt hlog he
    exact ⟨_, _, _, (h.getRange_newest hlog hkey).mpr ⟨hread, rfl⟩, e,
      (h.mem_entries hlog).mpr ⟨hin, he⟩, rfl⟩

/-- Where a range and a watch mean the same.  If the range can be read, this excludes all other
keys of the range over all keys, the start of a range that ends at or before it, and everything
behind a start that is no key.  If it cannot, it excludes the keys of the watch. -/
def IntervalAgrees (db : DbKv) (key rangeEnd k : Bytes) : Prop :=
  if db.RangeReadable key rangeEnd then
    (isFullScan key rangeEnd = true → k = key) ∧
      (rangeEnd ≠ [] → rangeEnd ≤ key → isFullScan key rangeEnd = false → k ≠ key) ∧
      (¬ ValidKey key → ¬ (key < k ∧ k < rangeEnd))
  else k ≠ key ∧ ¬ (key < k ∧ k < rangeEnd)

instance : Decidable (IntervalAgrees db key rangeEnd k) := by
  unfold IntervalAgrees
  infer_instance

theorem DbKv.Rep.intervalAgrees_iff (h : db.Rep E S ch) (hlog : LogOk db.log lo hi)
    (hlive : db.Live k) :
    ((k = key ∨ key < k ∧ k < rangeEnd) ↔ db.Shows E key rangeEnd k) ↔
      IntervalAgrees db key rangeEnd k := by
  have hvalid := h.validKey_of_live hlog hlive
  rw [h.shows_iff hlog hlive, IntervalAgrees]
  split
  · next hread =>
      simp only [hread, and_true, InRange]
      by_cases hend : rangeEnd = []
      · have hscan : isFullScan key rangeEnd = false := by simp [isFullScan, hend]
        have hout : ¬ k < [] := List.not_lt_nil k
        subst hend
        simp only [if_true, hout, and_false, or_false, hscan, Bool.false_eq_true, false_implies,
          ne_eq, not_true_eq_false, not_false_eq_true, implies_true, and_self, iff_true]
        exact ⟨fun heq => ⟨heq ▸ hvalid, heq⟩, fun hin => hin.2⟩
      · cases hscan : isFullScan key rangeEnd with
        | true =>
            obtain ⟨rfl, rfl⟩ : key = [0] ∧ rangeEnd = [0] := by simpa [isFullScan] using hscan
            have hle : [0] ≤ k := zero_le_of_ne_nil hvalid
            have hout : ¬ ([0] < k ∧ k < [0]) := fun hlt => lt_asymm hlt.1 hlt.2
            simp [hend, hle, hout]
        | false =>
            simp only [hend, if_false, Bool.false_eq_true, or_false, false_implies, true_and, ne_eq,
              not_false_eq_true, forall_const]
            constructor
            · intro hagree
              refine ⟨fun hle heq => ?_, fun hinvalid hin => hinvalid (hagree.mp (.inr hin)).1⟩
              obtain ⟨-, -, hlt⟩ := hagree.mp (.inl heq)
              exact absurd (heq ▸ hlt) (not_lt.mpr hle)
            · rintro ⟨hstart, hbehind⟩
              constructor
              · rintro (heq | hin)
                · refine ⟨heq ▸ hvalid, heq.ge, ?_⟩
                  rw [heq]
                  exact not_le.mp (fun hle => hstart hle heq)
                · exact ⟨not_not.mp (fun hinvalid => hbehind hinvalid hin), hin.1.le, hin.2⟩
              · rintro ⟨-, hle, hlt⟩
                exact hle.eq_or_lt.imp Eq.symm (fun hgt => ⟨hgt, hlt⟩)
  · next hread => simp [hread, not_or]

/-- A watch, native or of a module, and a range with the same bounds agree on a live key exactly
as `IntervalAgrees` says. -/
theorem watch_agrees_with_range_iff {E : Env} {b : Batch}
    (h : Reached E (fun _ cmd => cmd.OpsAtMost 1024) b) (hrev : b.newRev < 2 ^ 52)
    (req : WatchCreateRequest) {k : Bytes} (hlive : b.store.tables.kv.Live k) :
    ((req.selects k = true ↔ b.store.tables.kv.Shows E req.key req.rangeEnd k) ∧
      (StorageKv.holds req k = true ↔ b.store.tables.kv.Shows E req.key req.rangeEnd k)) ↔
      IntervalAgrees b.store.tables.kv req.key req.rangeEnd k := by
  obtain ⟨ch, hrep, hlog, -⟩ := h.versioned_of_opsAtMost (fun _ _ hq => hq) hrev
  rw [WatchCreateRequest.selects_iff, StorageKv.holds_iff, and_self]
  exact hrep.intervalAgrees_iff hlog hlive

theorem watch_agrees_with_range_of_put :
    ∃ s ∈ storeAfter [[.put { key := [98], value := [1] }]],
      (WatchCreateRequest.selects { key := [97], rangeEnd := [99] } [98] = true ↔
          s.tables.kv.Shows .plain [97] [99] [98]) ∧
        (StorageKv.holds { key := [97], rangeEnd := [99] } [98] = true ↔
          s.tables.kv.Shows .plain [97] [99] [98]) := by
  refine exists_mem_imp (D := fun s => s.dbMeta.rev < 2 ^ 52 ∧
    (s.tables.kv.liveRec [98]).isSome = true ∧ IntervalAgrees s.tables.kv [97] [99] [98])
    (by decide +kernel) (fun s hs hD => ?_)
  exact (watch_agrees_with_range_iff (reached_of_storeAfter (by decide +kernel) hs) hD.1
    { key := [97], rangeEnd := [99] }
    (live_iff_liveRec.mpr (Option.isSome_iff_exists.mp hD.2.1))).mpr hD.2.2

/-- A client that lists all keys and then watches all keys misses the changes of the ones it
has listed. -/
theorem watch_of_all_keys_selects_none :
    ∃ s ∈ storeAfter [[.put { key := [97], value := [1] }]],
      Reached .plain (fun _ cmd => cmd.OpsAtMost 1024) (.start s) ∧ s.dbMeta.rev = 2 ∧
      s.tables.kv.getRange .plain [0] [0] {} =
        .ok ([⟨revAt 2 0 false, 1, 2, 0, [97], [1]⟩], 1, false) ∧
      WatchCreateRequest.selects { key := [0], rangeEnd := [0] } [97] = false ∧
      StorageKv.holds { key := [0], rangeEnd := [0] } [97] = false :=
  ⟨_, Option.get_mem (by decide +kernel), reached_of_storeAfter (by decide +kernel)
    (Option.get_mem _), by decide +kernel, by decide +kernel, by decide, by decide⟩

end Turbokube
