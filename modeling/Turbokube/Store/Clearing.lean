import Turbokube.Store.CompactedReads

/-!
# Complete compactions

After a delete the cursor of a compaction steps over the next key of the event table,
unless several events were stored under it: those of one operation that deletes
several keys.  So it meets an event that is one of several or comes first (`Met`), and
of two with different revisions it meets one, or one between them (`Finds`).  A
compaction is complete when it meets every event below the compacted revision
(`StepsOverNone`), and it finds its end when it meets one from that revision on
(`StopsAt`).
-/

namespace Turbokube

open Encoding Lmdb

namespace DbKv

/-- The event shares its revision, down to the operation, with others, or did so when it was
recorded. -/
def Several (db : DbKv) (evt : KvEvent) : Prop := db.evt.sub evt.rev.key = true

/-- The event is one of several or comes first. -/
def Met (db : DbKv) (evt : KvEvent) : Prop :=
  db.Several evt ∨ ∀ e ∈ db.events, evt.rev.word.toNat ≤ e.rev.word.toNat

/-- Among the events with `P` is one that is met, or there are two of different revisions. -/
def Finds (db : DbKv) (P : KvEvent → Prop) : Prop :=
  ∃ evt ∈ db.events, P evt ∧ (db.Met evt ∨ ∃ e ∈ db.events, P e ∧ e.rev ≠ evt.rev)

def StepsOverNone (db : DbKv) (max : UInt64) : Prop :=
  ∀ evt ∈ db.events, evt.rev.upper < max → db.Met evt

def StopsAt (db : DbKv) (max : UInt64) : Prop := db.Finds (fun evt => max ≤ evt.rev.upper)

instance (db : DbKv) (evt : KvEvent) : Decidable (db.Several evt) :=
  inferInstanceAs (Decidable (_ = _))

instance (db : DbKv) (evt : KvEvent) : Decidable (db.Met evt) :=
  inferInstanceAs (Decidable (_ ∨ _))

instance (db : DbKv) (P : KvEvent → Prop) [DecidablePred P] : Decidable (db.Finds P) :=
  inferInstanceAs (Decidable (∃ _ ∈ _, _))

instance (db : DbKv) (max : UInt64) : Decidable (db.StepsOverNone max) :=
  inferInstanceAs (Decidable (∀ _ ∈ _, _))

instance (db : DbKv) (max : UInt64) : Decidable (db.StopsAt max) :=
  inferInstanceAs (Decidable (db.Finds _))

variable {E : Env} {S : Prop} {db d : DbKv} {ch : Bytes → List Version} {lo hi : Nat}
  {max : UInt64} {p : Bytes × Bytes}

theorem dups_ne_nil_of_mem (hp : p ∈ db.evt.pairs) : db.evt.dups p.1 ≠ [] :=
  List.ne_nil_of_mem (DupTable.mem_pairs.mp hp)

theorem exists_mem_of_dups {k : Bytes} (h : db.evt.dups k ≠ []) : ∃ p ∈ db.evt.pairs, p.1 = k := by
  obtain ⟨v, hv⟩ := List.exists_mem_of_ne_nil _ h
  exact ⟨(k, v), DupTable.mem_pairs.mpr hv, rfl⟩

theorem Rep.key_of_evt (h : db.Rep E S ch) (hp : p ∈ db.evt.pairs) :
    p.1 = (decodeEvt p).rev.key :=
  congrArg Prod.fst (h.evtOk p hp)

theorem Rep.word_le_iff (h : db.Rep E S ch) {q : Bytes × Bytes} (hp : p ∈ db.evt.pairs)
    (hq : q ∈ db.evt.pairs) :
    (decodeEvt p).rev.word.toNat ≤ (decodeEvt q).rev.word.toNat ↔ p.1 ≤ q.1 := by
  rw [h.key_of_evt hp, h.key_of_evt hq, Keyrev.key_le_key_iff]

theorem upper_le_of_word_le {a b : Keyrev} (h : a.word.toNat ≤ b.word.toNat) :
    a.upper ≤ b.upper := by
  rw [UInt64.le_iff_toNat_le, Keyrev.upper_toNat, Keyrev.upper_toNat]
  exact Nat.div_le_div_right h

theorem Rep.mem_walk_of_met (h : db.Rep E S ch) (hp : p ∈ db.evt.pairs)
    (hmet : db.Met (decodeEvt p)) : p ∈ db.evt.walk := by
  refine DupTable.mem_walk.mpr ⟨hp, ?_⟩
  rcases hmet with hsub | hfirst
  · rw [h.key_of_evt hp]
    exact DupTable.visits_of_sub hsub
  · refine DupTable.visits_first (dups_ne_nil_of_mem hp) (fun k hk => ?_)
    obtain ⟨q, hq, rfl⟩ := exists_mem_of_dups hk
    exact (h.word_le_iff hp hq).mp (hfirst _ (List.mem_map_of_mem hq))

/-- Behind events that are all met, only one of several is met. -/
theorem Rep.met_of_mem_walk (h : db.Rep E S ch) (hp : p ∈ db.evt.walk)
    (hbefore : ∀ q ∈ db.evt.pairs, q.1 < p.1 → q ∈ db.evt.walk) : db.Met (decodeEvt p) := by
  obtain ⟨hmem, hvisits⟩ := DupTable.mem_walk.mp hp
  by_cases hlt : ∃ k, db.evt.dups k ≠ [] ∧ k < p.1
  · left
    rw [Several, ← h.key_of_evt hmem]
    refine DupTable.sub_of_visits hvisits hlt (fun k hk hkp => ?_)
    obtain ⟨q, hq, rfl⟩ := exists_mem_of_dups hk
    exact (DupTable.mem_walk.mp (hbefore q hq hkp)).2
  · right
    intro e he
    obtain ⟨q, hq, rfl⟩ := List.mem_map.mp he
    exact (h.word_le_iff hmem hq).mpr
      (not_lt.mp (fun hqp => hlt ⟨q.1, dups_ne_nil_of_mem hq, hqp⟩))

/-- The cursor meets an event with a property that the events between two of them share. -/
theorem Rep.exists_mem_walk (h : db.Rep E S ch) {P : KvEvent → Prop} (hfinds : db.Finds P)
    (hbetween : ∀ a b e : KvEvent, P a → P b → a.rev.word.toNat ≤ e.rev.word.toNat →
      e.rev.word.toNat ≤ b.rev.word.toNat → P e) : ∃ p ∈ db.evt.walk, P (decodeEvt p) := by
  obtain ⟨evt, hevt, hP, hcases⟩ := hfinds
  obtain ⟨p, hp, rfl⟩ := List.mem_map.mp hevt
  rcases hcases with hmet | ⟨e, he, hPe, hne⟩
  · exact ⟨p, h.mem_walk_of_met hp hmet, hP⟩
  · obtain ⟨q, hq, rfl⟩ := List.mem_map.mp he
    have htwo : ∀ {a b : Bytes × Bytes}, a ∈ db.evt.pairs → b ∈ db.evt.pairs →
        P (decodeEvt a) → P (decodeEvt b) → a.1 < b.1 → ∃ p ∈ db.evt.walk, P (decodeEvt p) := by
      intro a b ha hb hPa hPb hlt
      obtain ⟨k, hak, hkb, hvisits⟩ :=
        DupTable.visits_of_lt (dups_ne_nil_of_mem ha) (dups_ne_nil_of_mem hb) hlt
      obtain ⟨c, hc, rfl⟩ := exists_mem_of_dups hvisits.dups_ne_nil
      exact ⟨c, DupTable.mem_walk.mpr ⟨hc, hvisits⟩, hbetween _ _ _ hPa hPb
        ((h.word_le_iff ha hc).mpr hak) ((h.word_le_iff hc hb).mpr hkb)⟩
    have hkey : q.1 ≠ p.1 := by
      rw [h.key_of_evt hq, h.key_of_evt hp]
      exact fun heq => hne (Keyrev.key_inj heq)
    rcases lt_or_gt_of_ne hkey with hlt | hgt
    · exact htwo hq hp hPe hP hlt
    · exact htwo hp hq hP hPe hgt

theorem Rep.stepsOverNone_iff (h : db.Rep E S ch) :
    db.StepsOverNone max ↔
      ∀ p ∈ db.evt.pairs, ¬ max ≤ (decodeEvt p).rev.upper → p ∈ db.evt.walk := by
  constructor
  · intro hnone p hp hlt
    exact h.mem_walk_of_met hp (hnone _ (List.mem_map_of_mem hp) (UInt64.not_le.mp hlt))
  · intro hall evt hevt hlt
    obtain ⟨p, hp, rfl⟩ := List.mem_map.mp hevt
    refine h.met_of_mem_walk (hall p hp (UInt64.not_le.mpr hlt)) (fun q hq hqp => ?_)
    refine hall q hq (fun hle => UInt64.not_le.mpr hlt (UInt64.le_trans hle ?_))
    exact upper_le_of_word_le ((h.word_le_iff hq hp).mpr hqp.le)

/-- With an end to find, compaction finds one. -/
theorem Rep.meetsStop (h : db.Rep E S ch) (hpos : 0 < max) (hstop : db.StopsAt max) :
    db.MeetsStop max := by
  obtain ⟨p, hp, hle⟩ := h.exists_mem_walk hstop
    (fun a b e ha _ hae _ => UInt64.le_trans ha (upper_le_of_word_le hae))
  exact ⟨p, hp, hpos, hle⟩

theorem Rep.stopsAt (h : db.Rep E S ch) (hnone : db.StepsOverNone max)
    (hmeets : db.MeetsStop max) : db.StopsAt max := by
  obtain ⟨p, hp, -, hle⟩ := hmeets
  have hmem := db.evt.walk_sublist.subset hp
  refine ⟨decodeEvt p, List.mem_map_of_mem hmem, hle, ?_⟩
  by_cases hother : ∃ e ∈ db.events, max ≤ e.rev.upper ∧ e.rev ≠ (decodeEvt p).rev
  · exact .inr hother
  · refine .inl (h.met_of_mem_walk hp (fun q hq hqp => ?_))
    refine h.stepsOverNone_iff.mp hnone q hq (fun hleq => hother ?_)
    refine ⟨_, List.mem_map_of_mem hq, hleq, fun heq => hqp.ne ?_⟩
    rw [h.key_of_evt hq, h.key_of_evt hmem, heq]

theorem mem_removedEvents_iff (hpos : 0 < max)
    (hall : ∀ p ∈ db.evt.pairs, ¬ max ≤ (decodeEvt p).rev.upper → p ∈ db.evt.walk)
    (p : Bytes × Bytes) :
    p ∈ db.removedEvents max ↔ p ∈ db.evt.pairs ∧ ¬ max ≤ (decodeEvt p).rev.upper :=
  ⟨fun hp => ⟨(db.removedEvents_sublist max).subset hp, not_le_of_mem_removedEvents hpos hp⟩,
    fun hp => mem_removedEvents.mpr ⟨hall p hp.1 hp.2, fun hstop => hp.2 hstop.2⟩⟩

/-- What a complete compaction leaves of the events. -/
theorem Piece.pairs_eq (hp : Piece ch db (db.removedEvents max) d) (h : db.Rep E S ch)
    (hpos : 0 < max) (hnone : db.StepsOverNone max) :
    d.evt.pairs = db.evt.pairs.filter (fun p => max ≤ (decodeEvt p).rev.upper) := by
  refine DupTable.pairs_ext d.evt.pairs_sorted (db.evt.pairs_sorted.sublist List.filter_sublist)
    (fun p => ?_)
  rw [hp.mem_pairs, mem_removedEvents_iff hpos (h.stepsOverNone_iff.mp hnone), List.mem_filter,
    decide_eq_true_eq]
  tauto

theorem Piece.events_eq (hp : Piece ch db (db.removedEvents max) d) (h : db.Rep E S ch)
    (hpos : 0 < max) (hnone : db.StepsOverNone max) :
    d.events = db.events.filter (fun evt => max ≤ evt.rev.upper) := by
  rw [events, hp.pairs_eq h hpos hnone, events, List.filter_map]
  rfl

/-- What it leaves of a key. -/
theorem Piece.records_eq (hp : Piece ch db (db.removedEvents max) d) (h : db.Rep E S ch)
    (hlog : LogOk db.log lo hi) (hpos : 0 < max) (hnone : db.StepsOverNone max) (k : Bytes) :
    d.records k = keepFrom Keyrecord.rev max (db.records k) := by
  have hs := hp.shortened h hlog
  rw [(hs.rep h hlog).records_eq (hs.logOk hlog), h.records_eq hlog, keepFrom_map,
    hp.rest_eq_keepFrom h hlog (mem_removedEvents_iff hpos (h.stepsOverNone_iff.mp hnone))]
  rfl

/-- A compaction that leaves only the events from `max` on has stepped over none. -/
theorem Piece.stepsOverNone (hp : Piece ch db (db.removedEvents max) d) (h : db.Rep E S ch)
    (hevents : ∀ evt ∈ d.events, max ≤ evt.rev.upper) : db.StepsOverNone max := by
  refine h.stepsOverNone_iff.mpr (fun p hmem hlt => ?_)
  by_contra hnot
  refine hlt (hevents _ (List.mem_map_of_mem (hp.mem_pairs.mpr ⟨hmem, fun hgone => ?_⟩)))
  exact hnot (mem_removedEvents.mp hgone).1

end DbKv

end Turbokube
