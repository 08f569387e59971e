import Turbokube.Store.Ranges

/-!
# Ranges at the latest revision

The newest version of a key is stored in full, so a range at the latest revision decodes one
record for each key and no patch.  It returns the entries of the live keys of the range, unless
one of them is too short for the decoder.
-/

namespace Turbokube

open Encoding Lmdb

namespace DbKv

/-- What the live keys of a range hold. -/
def entries (db : DbKv) (key rangeEnd : Bytes) : List Kv :=
  (db.rangeKeys key rangeEnd).filterMap (db.visibleAt 0)

/-- No live key of the range has a record that is too short to decode. -/
def RangeReadable (db : DbKv) (key rangeEnd : Bytes) : Prop :=
  ∀ k ∈ db.rangeKeys key rangeEnd, ∀ e ∈ db.visibleAt 0 k, ¬ e.Short

instance (db : DbKv) (key rangeEnd : Bytes) : Decidable (db.RangeReadable key rangeEnd) := by
  unfold RangeReadable
  infer_instance

variable {E : Env} {S : Prop} {db : DbKv} {ch : Bytes → List Version} {lo hi : Nat}
  {key rangeEnd k : Bytes}

theorem versionsAt_zero (vs : List Version) : versionsAt 0 vs = vs := by
  cases vs with
  | nil => rfl
  | cons v vs => rw [versionsAt, List.dropWhile_cons_of_neg (by simp [Version.tooNew])]

theorem decodedAbove_zero (vs : List Version) : decodedAbove 0 vs = [] := by
  cases vs with
  | nil => rfl
  | cons v vs =>
      rw [decodedAbove, List.takeWhile_cons_of_neg (by simp [Version.tooNew])]
      rfl

theorem Rep.visibleAt_zero (h : db.Rep E S ch) (hlog : LogOk db.log lo hi) (k : Bytes) :
    db.visibleAt 0 k = current (ch k) := by
  rw [h.visibleAt_eq hlog, versionsAt_zero]

theorem Rep.isSome_visibleAt_zero (h : db.Rep E S ch) (hlog : LogOk db.log lo hi) (k : Bytes) :
    (db.visibleAt 0 k).isSome = true ↔ db.Live k := by
  rw [h.visibleAt_zero hlog, h.live_iff hlog]

theorem Rep.dups_ne_nil_of_live (h : db.Rep E S ch) (hlog : LogOk db.log lo hi)
    (hlive : db.Live k) : db.rev.dups k ≠ [] := by
  intro hnil
  rw [h.live_iff hlog] at hlive
  rw [h.dups, List.map_eq_nil_iff] at hnil
  rw [hnil] at hlive
  cases hlive

theorem Rep.validKey_of_live (h : db.Rep E S ch) (hlog : LogOk db.log lo hi)
    (hlive : db.Live k) : ValidKey k := by
  rw [h.live_iff hlog] at hlive
  obtain ⟨e, he⟩ := Option.isSome_iff_exists.mp hlive
  obtain ⟨v, hv, -⟩ := Option.bind_eq_some_iff.mp he
  exact (hlog.key_of_mem (h.mem_versions (List.mem_of_head? hv))).1

theorem zero_le_of_ne_nil (h : k ≠ []) : [0] ≤ k := by
  obtain ⟨b, bs, rfl⟩ := List.exists_cons_of_ne_nil h
  refine not_lt.mp (fun hlt => ?_)
  rcases cons_lt_cons_iff.mp hlt with hb | ⟨-, hbs⟩
  · exact absurd hb (by simp)
  · exact absurd hbs (List.not_lt_nil bs)

/-- The newest record of a key decodes without the others. -/
theorem Rep.readRevs_newest (h : db.Rep E S ch) (hlog : LogOk db.log lo hi) {e : Kv}
    (he : db.visibleAt 0 k = some e) (keysOnly : Bool) :
    readRevs E db keysOnly [e.rev] {} none =
      if e.Short then ({}, some .checksumMissing) else (e.shown keysOnly, none) := by
  rw [h.visibleAt_zero hlog] at he
  obtain ⟨v, hv, hitem⟩ := Option.bind_eq_some_iff.mp he
  obtain ⟨hrev, hlive, hkey, hne, hlen⟩ :=
    hlog.sound (h.mem_versions (List.mem_of_head? hv)) hitem
  rw [readRevs, Table.fetch, h.full k e he]
  by_cases hshort : e.Short
  · rw [if_pos hshort]
    simp only [Kv.fromBytes_short {} hlive hshort]
  · rw [if_neg hshort]
    simp only [Kv.fromBytes_bytes {} hlive (by rw [hkey]; exact hne)
      (by rw [hkey]; exact lt_of_le_of_lt hlen (by decide)) hshort (fun _ => .inl rfl), readRevs]
    rfl

theorem Rep.reading_newest (h : db.Rep E S ch) (hlog : LogOk db.log lo hi) {e : Kv}
    (he : db.visibleAt 0 k = some e) :
    reading E db {} k = if ¬ e.Short then .ok e else .error .checksumMissing := by
  have hread := h.readRevs_newest hlog he false
  rw [h.visibleAt_zero hlog] at he
  obtain ⟨v, hv, hitem⟩ := Option.bind_eq_some_iff.mp he
  have hrev := (hlog.sound (h.mem_versions (List.mem_of_head? hv)) hitem).1
  rw [DbKv.reading, h.descend hlog, versionsAt_zero, hv, decodedAbove_zero]
  simp only [Option.map_some, if_true, List.map_nil, List.nil_append]
  rw [← hrev, hread]
  by_cases hshort : e.Short <;> simp [hshort]

/-- A range at the latest revision. -/
theorem Rep.getRange_newest (h : db.Rep E S ch) (hlog : LogOk db.log lo hi)
    (hkey : ValidKey key) {out : List Kv × Nat × Bool} :
    DbKv.getRange E db key rangeEnd {} = .ok out ↔
      db.RangeReadable key rangeEnd ∧
        out = (db.entries key rangeEnd, (db.entries key rangeEnd).length, false) :=
  h.getRange_entriesAt hlog hkey (fun _ _ he => h.reading_newest hlog he)

theorem Rep.mem_entries (h : db.Rep E S ch) (hlog : LogOk db.log lo hi) {e : Kv} :
    e ∈ db.entries key rangeEnd ↔
      InRange key rangeEnd e.key ∧ db.visibleAt 0 e.key = some e :=
  h.mem_entriesAt hlog

end DbKv

end Turbokube
