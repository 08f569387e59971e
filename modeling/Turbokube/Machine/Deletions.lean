import Turbokube.Machine.Histories
import Turbokube.Store.Newest
import Turbokube.Store.Spacing

/-!
# A range and its deletion

A range and a range deletion are given the same two bounds and walk over the same keys with loops
of their own.  The deletion goes on to the end of the range and includes it, where the range stops
before it, and it does not know the range over all keys.  `BoundsAgree` says that no live key
makes the difference, and then the deletion deletes what the range shows and nothing else.
-/

namespace Turbokube

open Encoding Lmdb DbKv

namespace DbKv

variable {E : Env} {S : Prop} {db db' : DbKv} {ch : Bytes → List Version} {lo hi : Nat}
  {key rangeEnd k : Bytes} {rev subrev : Nat} {epoch : UInt64}

/-- The end of the range is not live, unless it lies before the start.  If it is the range over all
keys, there is at most its start. -/
def BoundsAgree (db : DbKv) (key rangeEnd : Bytes) : Prop :=
  if isFullScan key rangeEnd = true then ∀ k, db.Live k → k = key
  else rangeEnd ≠ [] → key ≤ rangeEnd → ¬ db.Live rangeEnd

/-- Collecting records under their keys. -/
theorem map_filterMap_key {β : Type} {f : Bytes → Option β} {g : β → Bytes}
    (h : ∀ k b, f k = some b → g b = k) (ks : List Bytes) :
    (ks.filterMap f).map g = ks.filter (fun k => (f k).isSome) := by
  induction ks with
  | nil => rfl
  | cons k ks ih =>
      cases hk : f k with
      | none =>
          rw [List.filterMap_cons_none hk, List.filter_cons_of_neg (by simp [hk]), ih]
      | some b =>
          rw [List.filterMap_cons_some hk, List.filter_cons_of_pos (by simp [hk]), List.map_cons,
            h k b hk, ih]

/-- The keys that are deleted. -/
theorem RecsOk.deleteTargets_keys (h : db.RecsOk) :
    (db.deleteTargets key rangeEnd).map Keyrecord.key =
      (db.rev.keysFrom key).filter (fun k =>
        (db.liveRec k).isSome && deleteRangeHas key rangeEnd k) := by
  rw [deleteTargets, map_filterMap_key (fun k kr hkr => h.key_of_liveRec hkr), deleteKeys,
    List.filter_filter]
  rfl

/-- The keys that are shown. -/
theorem Rep.entries_keys (h : db.Rep E S ch) (hlog : LogOk db.log lo hi) :
    (db.entries key rangeEnd).map Kv.key =
      (db.rev.keysFrom key).filter (fun k =>
        (db.liveRec k).isSome && decide (InRange key rangeEnd k)) := by
  rw [entries, map_filterMap_key (fun k e he => h.key_of_visibleAt hlog he), rangeKeys,
    List.filter_filter]
  refine List.filter_congr (fun k _ => ?_)
  rw [show (db.visibleAt 0 k).isSome = (db.liveRec k).isSome from Bool.eq_iff_iff.mpr ?_]
  rw [h.isSome_visibleAt_zero hlog, live_iff_liveRec, Option.isSome_iff_exists]

/-- The two loops mean the same keys. -/
theorem boundsAgree_iff (hok : ∀ k, db.Live k → ValidKey k ∧ db.rev.dups k ≠ []) :
    db.BoundsAgree key rangeEnd ↔
      ∀ k, db.Live k → key ≤ k →
        (deleteRangeHas key rangeEnd k = true ↔ InRange key rangeEnd k) := by
  rw [BoundsAgree]
  split
  · next hscan =>
      obtain ⟨rfl, rfl⟩ : key = [0] ∧ rangeEnd = [0] := by simpa [isFullScan] using hscan
      refine forall₂_congr (fun k hlive => ?_)
      have hle : [0] ≤ k := zero_le_of_ne_nil (hok k hlive).1
      simp only [hle, deleteRangeHas, InRange, hscan, or_true, and_true, forall_const, iff_true,
        reduceCtorEq, if_false, decide_eq_true_eq]
      exact ⟨fun heq => heq.le, fun hge => le_antisymm hge hle⟩
  · next hscan =>
      by_cases hend : rangeEnd = []
      · simp [hend, deleteRangeHas, InRange]
      · simp only [hend, ne_eq, not_false_eq_true, forall_const, deleteRangeHas, InRange, hscan,
          if_false, Bool.false_eq_true, or_false, decide_eq_true_eq]
        constructor
        · intro hdead k hlive hle
          refine ⟨fun hk => ⟨hle, lt_of_le_of_ne hk (fun heq => ?_)⟩, fun hk => hk.2.le⟩
          rw [heq] at hlive hle
          exact hdead hle hlive
        · intro hagree hle hlive
          exact lt_irrefl _ ((hagree rangeEnd hlive hle).mp le_rfl).2

/-- The deleted keys are the shown keys exactly when the bounds agree. -/
theorem Rep.keys_eq_iff (h : db.Rep E S ch) (hlog : LogOk db.log lo hi) :
    (db.deleteTargets key rangeEnd).map Keyrecord.key = (db.entries key rangeEnd).map Kv.key ↔
      db.BoundsAgree key rangeEnd := by
  rw [boundsAgree_iff (fun k hlive => ⟨h.validKey_of_live hlog hlive,
    h.dups_ne_nil_of_live hlog hlive⟩), h.recsOk.deleteTargets_keys, h.entries_keys hlog]
  constructor
  · intro heq k hlive hle
    have hmem : k ∈ db.rev.keysFrom key :=
      DupTable.mem_keysFrom.mpr ⟨h.dups_ne_nil_of_live hlog hlive, hle⟩
    have hsome := Option.isSome_iff_exists.mpr (live_iff_liveRec.mp hlive)
    have hiff : k ∈ (db.rev.keysFrom key).filter _ ↔ k ∈ (db.rev.keysFrom key).filter _ :=
      iff_of_eq (congrArg (k ∈ ·) heq)
    simpa [List.mem_filter, hmem, hsome] using hiff
  · intro hagree
    refine List.filter_congr (fun k hk => ?_)
    cases hsome : (db.liveRec k).isSome with
    | false => rfl
    | true =>
        have hlive := live_iff_liveRec.mpr (Option.isSome_iff_exists.mp hsome)
        rw [Bool.true_and, Bool.true_and, Bool.eq_iff_iff, decide_eq_true_eq]
        exact hagree k hlive (DupTable.mem_keysFrom.mp hk).2

section After

theorem tombstones_dups_ne {ks : List Bytes} (h : k ∉ ks) :
    (db.tombstones rev subrev epoch ks).rev.dups k = db.rev.dups k := by
  induction ks generalizing db with
  | nil => rfl
  | cons k' ks ih =>
      rw [List.mem_cons, not_or] at h
      rw [tombstones_cons, ih h.2, tombstone]
      simp only [DupTable.dups_put]
      rw [if_neg h.1]

theorem getRange_one (hkey : ValidKey k) (a : RangeArgs) :
    db.getRange E k [] a =
      if db.rev.dups k = [] then .ok ([], 0, false)
      else (rangeKey E db a k (db.rev.dups k) { countOnly := a.countOnly }).map
        (fun r => (r.1.items, r.1.count, r.1.more)) := by
  have hscan : isFullScan k [] = false := by simp [isFullScan]
  rw [DbKv.getRange]
  by_cases hnil : db.rev.dups k = []
  · rw [if_pos hnil]
    rcases setRange_of_dups_eq_nil hkey hnil with hs | ⟨⟨k', dups⟩, rest, hs, hlt⟩
    · rw [hs]
    · have hover : rangeOver k [] k' = true := by simp [rangeOver, hscan, hlt.ne']
      rw [hs]
      simp only [rangeLoop, hover, if_true]
  · rw [if_neg hnil]
    obtain ⟨rest, hs, -⟩ := setRange_of_dups_ne_nil hkey hnil
    have hover : rangeOver k [] k = false := by simp [rangeOver]
    rw [hs]
    simp only [rangeLoop, hover, Bool.false_eq_true, if_false]
    rcases rangeKey E db a k (db.rev.dups k) { countOnly := a.countOnly } with e | ⟨acc, stop⟩
    · rfl
    · simp [Except.map]

/-- A range of one key depends on the records of the key and on the values. -/
theorem getRange_one_congr (hdups : db'.rev.dups k = db.rev.dups k) (hval : db'.val = db.val)
    (a : RangeArgs) : db'.getRange E k [] a = db.getRange E k [] a := by
  by_cases hkey : ValidKey k
  · have hread : ∀ rs item next,
        readRevs E db' a.keysOnly rs item next = readRevs E db a.keysOnly rs item next :=
      fun rs item next => readRevs_congr (fun r _ => by rw [hval])
    have hstep : ∀ dups acc, rangeKey E db' a k dups acc = rangeKey E db a k dups acc := by
      intro dups acc
      rw [rangeKey.eq_def, rangeKey.eq_def]
      simp only [hread]
    rw [getRange_one hkey, getRange_one hkey, hdups, hstep]
  · have hbad : ∀ db : DbKv, db.getRange E k [] a = .error (.lmdb .badValSize) := by
      intro db
      rw [DbKv.getRange, not_not.mp hkey, setRange_nil]
    rw [hbad, hbad]

/-- What was deleted is dead. -/
theorem not_live_tombstones (hok : db.RecsOk) {ks : List Bytes} (hnodup : ks.Nodup)
    (hk : k ∈ ks)
    (hnew : ∀ kr ∈ db.records k, kr.rev.word.toNat < (revAt rev subrev true).word.toNat) :
    ¬ (db.tombstones rev subrev epoch ks).Live k := by
  rintro ⟨kr, hhead, hlive⟩
  rw [tombstones_records_mem hok hnodup hk hnew, List.head?_cons, Option.some.injEq] at hhead
  rw [← hhead, revAt_isdel] at hlive
  cases hlive

/-- What was deleted is still found at its revision. -/
theorem Rep.getRev_tombstones (h : db.Rep E S ch) (hlog : LogOk db.log lo hi) {ks : List Bytes}
    (hnodup : ks.Nodup) (hk : k ∈ ks) {e : Kv} (he : db.visibleAt 0 k = some e)
    (hshort : ¬ e.Short)
    (hnew : ∀ kr ∈ db.records k, kr.rev.word.toNat < (revAt rev subrev true).word.toNat)
    (hupper : e.rev.upper < (revAt rev subrev true).upper) (hpos : 0 < e.rev.upper) :
    (db.tombstones rev subrev epoch ks).getRev E k e.rev.upper false = (e, {}, none) := by
  have hlive := (h.isSome_visibleAt_zero hlog k).mp (by rw [he]; rfl)
  have hkey := h.validKey_of_live hlog hlive
  have hrecs : (db.tombstones rev subrev epoch ks).records k =
      ⟨k, revAt rev subrev true, 0⟩ :: db.records k :=
    tombstones_records_mem h.recsOk hnodup hk hnew
  have hok' : (db.tombstones rev subrev epoch ks).RecsOk := h.recsOk.tombstones ks
  have hne : (db.tombstones rev subrev epoch ks).rev.dups k ≠ [] := by
    intro hnil
    rw [records_eq_nil_iff.mpr hnil] at hrecs
    cases hrecs
  obtain ⟨rest, hs, -⟩ := setRange_of_dups_ne_nil hkey hne
  have hread := h.readRevs_newest hlog he false
  rw [h.visibleAt_zero hlog] at he
  obtain ⟨v, hv, hitem⟩ := Option.bind_eq_some_iff.mp he
  obtain ⟨hrev, hdel, -⟩ := hlog.sound (h.mem_versions (List.mem_of_head? hv)) hitem
  obtain ⟨vs, hvs⟩ := List.head?_eq_some_iff.mp hv
  have hfirst : descendRecs e.rev.upper true
      ((db.tombstones rev subrev epoch ks).records k) [] =
        some (e.rev, [], vs.map (Version.record k)) := by
    rw [hrecs, h.records_eq hlog, hvs, List.map_cons, descendRecs, if_pos ⟨hpos, hupper⟩,
      descendRecs, show (v.record k).rev = e.rev from hrev.symm,
      if_neg (fun hlt => UInt64.lt_irrefl _ hlt.2)]
    simp only [revAt_isdel, if_true]
  rw [DbKv.getRev, hs]
  simp only [ne_eq, not_true_eq_false, if_false]
  rw [descend_eq hok', hfirst]
  simp only [Option.map_some, hdel, Bool.false_eq_true, if_false, List.nil_append]
  have hval : ∀ r ∈ [e.rev], (db.tombstones rev subrev epoch ks).val.get r.key =
      db.val.get r.key := fun r _ => by rw [tombstones_val]
  rw [readRevs_congr hval, hread, if_neg hshort]
  rfl

theorem Rep.rev_of_liveRec (h : db.Rep E S ch) (hlog : LogOk db.log lo hi) {kr : Keyrecord} {e : Kv}
    (hkr : db.liveRec k = some kr) (he : db.visibleAt 0 k = some e) : kr.rev = e.rev := by
  rw [h.visibleAt_zero hlog] at he
  obtain ⟨v, hv, hitem⟩ := Option.bind_eq_some_iff.mp he
  have hrev := (hlog.sound (h.mem_versions (List.mem_of_head? hv)) hitem).1
  obtain ⟨hhead, -⟩ := liveRec_eq_some_iff.mp hkr
  rw [h.records_eq hlog, List.head?_map, hv] at hhead
  rw [hrev, ← Option.some.inj hhead]
  rfl

/-- The records are from before the command. -/
structure Before (db : DbKv) (r subrev : Nat) : Prop where
  word : ∀ k, ∀ kr ∈ db.records k,
    kr.rev.word.toNat < (revAt (r + 1) subrev true).word.toNat
  upper : ∀ k, ∀ kr ∈ db.records k, 0 < kr.rev.upper.toNat ∧ kr.rev.upper.toNat ≤ r

theorem Rep.before {r : Nat} (h : db.Rep E S ch)
    (hlog : LogOk db.log ((r + 1) * 4096) ((r + 1) * 4096))
    (hr : r + 1 < 2 ^ 52) (hsub : subrev < 1024) : db.Before r subrev := by
  have hwrite : ∀ k, ∀ kr ∈ db.records k, ∃ w ∈ db.log, kr.rev = w.kr := by
    intro k kr hkr
    rw [h.records_eq hlog] at hkr
    obtain ⟨v, hv, rfl⟩ := List.mem_map.mp hkr
    obtain ⟨w, hw, -, cur, rfl⟩ := write_of_mem_versions (h.mem_versions hv)
    exact ⟨w, hw, rfl⟩
  refine ⟨fun k kr hkr => ?_, fun k kr hkr => ?_⟩
  · obtain ⟨w, hw, hkr⟩ := hwrite k kr hkr
    have hlt := hlog.lt w hw
    rw [ite_self] at hlt
    rw [hkr, revAt_toNat hr hsub]
    omega
  · obtain ⟨w, hw, hkr⟩ := hwrite k kr hkr
    rw [hkr, hlog.upper w hw]
    exact ⟨hlog.pos w hw, hlog.rev_le le_rfl le_rfl hw⟩

theorem Before.not_isDup {r : Nat} (h : db.Before r subrev) (hr : r + 1 < 2 ^ 52)
    (hok : db.RecsOk) :
    (db.deleteTargets key rangeEnd).any (isDup E (r + 1)) = false := by
  rw [List.any_eq_false]
  intro kr hkr hdup
  obtain ⟨hlive, -⟩ := (mem_deleteTargets hok).mp hkr
  have hle := (h.upper kr.key kr (List.mem_of_head? (liveRec_eq_some_iff.mp hlive).1)).2
  rw [isDup, Bool.and_eq_true, decide_eq_true_eq] at hdup
  rw [hdup.1, UInt64.toNat_ofNat', Nat.mod_eq_of_lt (by omega)] at hle
  omega

theorem Rep.prevKvs_tombstones {r : Nat} (h : db.Rep E S ch) (hlog : LogOk db.log lo hi)
    (hbefore : db.Before r subrev) (hr : r + 1 < 2 ^ 52) (hsub : subrev < 1024) {ks : List Bytes}
    (hnodup : ks.Nodup) {krs : List Keyrecord} {es : List Kv}
    (hmatch : List.Forall₂ (fun kr e => kr.key ∈ ks ∧ db.liveRec kr.key = some kr ∧
      db.visibleAt 0 kr.key = some e ∧ ¬ e.Short) krs es) :
    prevKvs E (db.tombstones (r + 1) subrev epoch ks) krs none = .ok (es.map Kv.toProto) := by
  induction hmatch with
  | nil => rfl
  | @cons kr e krs es hkr _ ih =>
      obtain ⟨hk, hlive, he, hshort⟩ := hkr
      have hrev := h.rev_of_liveRec hlog hlive he
      obtain ⟨hpos, hle⟩ :=
        hbefore.upper kr.key kr (List.mem_of_head? (liveRec_eq_some_iff.mp hlive).1)
      have hupper : kr.rev.upper < (revAt (r + 1) subrev true).upper := by
        rw [UInt64.lt_iff_toNat_lt, revAt_upper hr hsub]
        omega
      rw [hrev] at hpos hupper
      have hget : (db.tombstones (r + 1) subrev epoch ks).getRev E kr.key e.rev.upper false =
          (e, {}, none) :=
        h.getRev_tombstones hlog hnodup hk he hshort (hbefore.word kr.key) hupper
          (by rw [UInt64.lt_iff_toNat_lt, UInt64.toNat_zero]; exact hpos)
      rw [prevKvs, hrev, hget]
      simp only [ih]
      rfl

/-- The deleted records and the shown ones are those of the same keys. -/
theorem Rep.targets_entries (h : db.Rep E S ch) (hlog : LogOk db.log lo hi)
    (hkeys : (db.deleteTargets key rangeEnd).map Keyrecord.key =
      (db.entries key rangeEnd).map Kv.key) (hread : db.RangeReadable key rangeEnd) :
    List.Forall₂ (fun kr e => kr.key ∈ (db.deleteTargets key rangeEnd).map Keyrecord.key ∧
      db.liveRec kr.key = some kr ∧ db.visibleAt 0 kr.key = some e ∧ ¬ e.Short)
      (db.deleteTargets key rangeEnd) (db.entries key rangeEnd) := by
  have hsame : List.Forall₂ (fun kr e => kr.key = e.key) (db.deleteTargets key rangeEnd)
      (db.entries key rangeEnd) := by
    rw [← List.forall₂_map_left_iff (f := Keyrecord.key) (R := fun k e => k = Kv.key e),
      ← List.forall₂_map_right_iff (f := Kv.key) (R := Eq), List.forall₂_eq_eq_eq]
    exact hkeys
  have hright : ∀ e ∈ db.entries key rangeEnd, db.visibleAt 0 e.key = some e ∧ ¬ e.Short := by
    intro e he
    obtain ⟨hin, hvis⟩ := (h.mem_entries hlog).mp he
    refine ⟨hvis, hread e.key (mem_rangeKeys.mpr ⟨h.dups_ne_nil_of_live hlog ?_, hin⟩) e hvis⟩
    rw [← h.isSome_visibleAt_zero hlog, hvis]
    rfl
  have hleft : ∀ kr ∈ db.deleteTargets key rangeEnd,
      kr.key ∈ (db.deleteTargets key rangeEnd).map Keyrecord.key ∧
        db.liveRec kr.key = some kr := fun kr hkr =>
    ⟨List.mem_map_of_mem hkr, ((mem_deleteTargets h.recsOk).mp hkr).1⟩
  have hboth := ((List.forall₂_and_left _ _).mpr ⟨hright, hsame.flip⟩).flip
  refine ((List.forall₂_and_left _ _).mpr ⟨hleft, hboth⟩).imp (fun kr e hpair => ?_)
  obtain ⟨⟨hmem, hlive⟩, ⟨hvis, hshort⟩, heq⟩ := hpair
  exact ⟨hmem, hlive, heq ▸ hvis, hshort⟩

/-- After the deletion the range is empty. -/
theorem Versioned.getRange_tombstones {r : Nat}
    (hver : db.Versioned E False False ((r + 1) * 4096)) (hr : r + 1 < 2 ^ 52)
    (hsub : subrev < 1024) (hkey : ValidKey key) (hbounds : db.BoundsAgree key rangeEnd) :
    (db.tombstones (r + 1) subrev epoch
      ((db.deleteTargets key rangeEnd).map Keyrecord.key)).getRange E key rangeEnd {} =
      .ok ([], 0, false) := by
  obtain ⟨ch, hrep, hlog, -⟩ := id hver
  have hnodup := @deleteTargets_nodup db key rangeEnd hrep.recsOk
  have hbefore := hrep.before hlog hr hsub
  have htargets : ∀ kr ∈ db.deleteTargets key rangeEnd, db.Live kr.key := fun kr hkr =>
    live_iff_liveRec.mpr ⟨kr, ((mem_deleteTargets hrep.recsOk).mp hkr).1⟩
  have hstep : OpStep E (fun _ => True) (r + 1) subrev db (db.tombstones (r + 1) subrev epoch
      ((db.deleteTargets key rangeEnd).map Keyrecord.key)) :=
    .tombs (liveChain_of_nodup hnodup (fun k hk => by
      obtain ⟨kr, hkr, rfl⟩ := List.mem_map.mp hk
      exact htargets kr hkr))
  obtain ⟨ch', hrep', hlog', -⟩ := (hver.mono (by omega)).opStep (fun _ _ hfalse => hfalse.elim)
    (Nat.succ_pos r) hr hsub hstep
  have hdead : ∀ k, InRange key rangeEnd k → ¬ (db.tombstones (r + 1) subrev epoch
      ((db.deleteTargets key rangeEnd).map Keyrecord.key)).Live k := by
    intro k hin hlive
    by_cases hk : k ∈ (db.deleteTargets key rangeEnd).map Keyrecord.key
    · exact not_live_tombstones hrep.recsOk hnodup hk (hbefore.word k) hlive
    · have hlive₀ : db.Live k := by
        rw [Live, tombstones_records_ne hk] at hlive
        exact hlive
      obtain ⟨kr, hkr⟩ := live_iff_liveRec.mp hlive₀
      obtain rfl := hrep.recsOk.key_of_liveRec hkr
      have hhas := ((boundsAgree_iff (fun k hlive => ⟨hrep.validKey_of_live hlog hlive,
        hrep.dups_ne_nil_of_live hlog hlive⟩)).mp hbounds kr.key hlive₀ (le_of_inRange hin)).mpr hin
      exact hk (List.mem_map_of_mem
        ((mem_deleteTargets hrep.recsOk).mpr ⟨hkr, le_of_inRange hin, hhas⟩))
  have hnone : ∀ k ∈ (db.tombstones (r + 1) subrev epoch
      ((db.deleteTargets key rangeEnd).map Keyrecord.key)).rangeKeys key rangeEnd,
      (db.tombstones (r + 1) subrev epoch
        ((db.deleteTargets key rangeEnd).map Keyrecord.key)).visibleAt 0 k = none := by
    intro k hk
    rw [← Option.not_isSome_iff_eq_none, hrep'.isSome_visibleAt_zero hlog']
    exact hdead k (mem_rangeKeys.mp hk).2
  have hempty : (db.tombstones (r + 1) subrev epoch
      ((db.deleteTargets key rangeEnd).map Keyrecord.key)).entries key rangeEnd = [] :=
    List.filterMap_eq_nil_iff.mpr hnone
  refine (hrep'.getRange_newest hlog' hkey).mpr ⟨fun k hk e he => ?_, by rw [hempty]; rfl⟩
  rw [hnone k hk] at he
  cases he

end After

/-- The deletion deletes the keys that the range shows, in the same order and each once, and
reports them.  Then the range is empty, and the keys outside it read as before. -/
def DeletesShown (E : Env) (t : Tables) (rev subrev : Nat) (epoch : UInt64)
    (key rangeEnd : Bytes) : Prop :=
  ∃ kvs count db' recs,
    t.kv.getRange E key rangeEnd {} = .ok (kvs, count, false) ∧
    t.kv.deleteRange E rev subrev epoch key rangeEnd = .ok (db', recs) ∧
    recs.map Keyrecord.key = kvs.map Kv.key ∧ (kvs.map Kv.key).Nodup ∧
    db'.log = t.kv.log ++ kvs.map (fun e => ⟨rev, revAt rev subrev true, e.key, .delete⟩) ∧
    (∀ prevKv t' res affected,
      cmdDeleteRange E t rev subrev epoch ⟨key, rangeEnd, prevKv⟩ = .ok (t', res, affected) →
        t'.kv = db' ∧ res.deleted = Int64.ofNat kvs.length ∧
          res.prevKvs = if prevKv then kvs.map Kv.toProto else []) ∧
    db'.getRange E key rangeEnd {} = .ok ([], 0, false) ∧
    ∀ k, ¬ InRange key rangeEnd k → ∀ r,
      db'.getRange E k [] { revision := r } = t.kv.getRange E k [] { revision := r }

theorem Versioned.deletesShown_iff {E : Env} {t : Tables} {r subrev : Nat}
    (hver : t.kv.Versioned E False False ((r + 1) * 4096)) (hr : r + 1 < 2 ^ 52)
    (hsub : subrev < 1024) (epoch : UInt64) (key rangeEnd : Bytes) :
    DeletesShown E t (r + 1) subrev epoch key rangeEnd ↔
      ValidKey key ∧ t.kv.BoundsAgree key rangeEnd ∧ t.kv.RangeReadable key rangeEnd := by
  obtain ⟨ch, hrep, hlog, -⟩ := id hver
  have hbefore := hrep.before hlog hr hsub
  have hdup : (t.kv.deleteTargets key rangeEnd).any (isDup E (r + 1)) = false :=
    hbefore.not_isDup hr hrep.recsOk
  constructor
  · rintro ⟨kvs, count, db', recs, hget, hdel, hkeys, -⟩
    have hkey := validKey_of_getRange hget
    obtain ⟨hread, hout⟩ := (hrep.getRange_newest hlog hkey).mp hget
    obtain ⟨rfl, -⟩ := Prod.mk.inj hout
    rw [deleteRange_eq hrep.recsOk hkey, hdup, if_neg (by decide)] at hdel
    obtain ⟨-, rfl⟩ := Prod.mk.inj (Except.ok.inj hdel)
    exact ⟨hkey, (hrep.keys_eq_iff hlog).mp hkeys, hread⟩
  · rintro ⟨hkey, hbounds, hread⟩
    have hkeys := (hrep.keys_eq_iff hlog).mpr hbounds
    have hnodup := @deleteTargets_nodup t.kv key rangeEnd hrep.recsOk
    have hdel := @deleteRange_eq E t.kv (r + 1) key rangeEnd hrep.recsOk hkey subrev epoch
    rw [hdup, if_neg (by decide)] at hdel
    refine ⟨t.kv.entries key rangeEnd, _, _, _, (hrep.getRange_newest hlog hkey).mpr ⟨hread, rfl⟩,
      hdel, hkeys, hkeys ▸ hnodup, ?_, ?_, ?_, ?_⟩
    · rw [tombstones_log, hkeys, List.map_map]
      rfl
    · intro prevKv t' res affected hcmd
      have hlength := congrArg List.length hkeys
      rw [List.length_map, List.length_map] at hlength
      have hprev : prevKvs E (t.kv.tombstones (r + 1) subrev epoch
            ((t.kv.deleteTargets key rangeEnd).map Keyrecord.key))
          (t.kv.deleteTargets key rangeEnd) none =
            .ok ((t.kv.entries key rangeEnd).map Kv.toProto) :=
        hrep.prevKvs_tombstones hlog hbefore hr hsub hnodup
          (hrep.targets_entries hlog hkeys hread)
      rw [cmdDeleteRange, hdel] at hcmd
      simp only at hcmd
      split at hcmd
      · cases hcmd
      · rw [hprev] at hcmd
        cases prevKv with
        | false =>
            obtain ⟨rfl, hres⟩ := Prod.mk.inj (Except.ok.inj hcmd)
            obtain ⟨rfl, -⟩ := Prod.mk.inj hres
            exact ⟨rfl, congrArg Int64.ofNat hlength, rfl⟩
        | true =>
            obtain ⟨rfl, hres⟩ := Prod.mk.inj (Except.ok.inj hcmd)
            obtain ⟨rfl, -⟩ := Prod.mk.inj hres
            exact ⟨rfl, congrArg Int64.ofNat hlength, rfl⟩
    · exact hver.getRange_tombstones hr hsub hkey hbounds
    · intro k hout a
      refine getRange_one_congr (tombstones_dups_ne (fun hk => ?_)) (tombstones_val _ _ _ _ _) _
      rw [hkeys] at hk
      obtain ⟨e, he, rfl⟩ := List.mem_map.mp hk
      exact hout ((hrep.mem_entries hlog).mp he).1

end DbKv

/-- A range deletion deletes what the range shows exactly when the bounds agree on the live keys,
and the range can be read. -/
theorem deleteRange_deletes_shown_iff {E : Env} {b : Batch}
    (h : Reached E (fun _ cmd => cmd.OpsAtMost 1024) b) (hrev : b.newRev + 1 < 2 ^ 52)
    {subrev : Nat} (hsub : subrev < 1024) (epoch : UInt64) (key rangeEnd : Bytes) :
    DeletesShown E b.store.tables (b.newRev + 1) subrev epoch key rangeEnd ↔
      ValidKey key ∧ b.store.tables.kv.BoundsAgree key rangeEnd ∧
        b.store.tables.kv.RangeReadable key rangeEnd :=
  Versioned.deletesShown_iff
    (h.versioned_of_opsAtMost (fun _ _ hq => hq) (Nat.lt_of_succ_lt hrev)) hrev hsub epoch key
    rangeEnd

theorem deleteRange_deletes_shown_of_two :
    ∃ s ∈ storeAfter [[.put { key := [97], value := [1] }], [.put { key := [98], value := [2] }]],
      DeletesShown .plain s.tables 4 0 0 [97] [99] := by
  refine exists_mem_imp (D := fun s => s.dbMeta.rev = 3 ∧ s.tables.kv.liveRec [99] = none ∧
    s.tables.kv.RangeReadable [97] [99]) (by decide +kernel) (fun s hs hD => ?_)
  have hnew : (Batch.start s).newRev = 3 := hD.1
  have hbounds : s.tables.kv.BoundsAgree [97] [99] := by
    refine (if_neg (by decide)).mpr (fun _ _ hlive => ?_)
    obtain ⟨kr, hkr⟩ := live_iff_liveRec.mp hlive
    rw [hD.2.1] at hkr
    cases hkr
  have hshown := (deleteRange_deletes_shown_iff (reached_of_storeAfter (by decide +kernel) hs)
    (by rw [hnew]; decide) (by decide : 0 < 1024) 0 [97] [99]).mpr ⟨by decide, hbounds, hD.2.2⟩
  rw [hnew] at hshown
  exact hshown

/-- The key at the end of the range is deleted with it. -/
theorem deleteRange_deletes_end :
    ∃ s ∈ storeAfter [[.put { key := [97], value := [1] }], [.put { key := [98], value := [2] }]],
      Reached .plain (fun _ cmd => cmd.OpsAtMost 1024) (.start s) ∧ s.dbMeta.rev = 3 ∧
      (s.tables.kv.getRange .plain [97] [98] {}).map (fun r => r.1.map Kv.key) = .ok [[97]] ∧
      (s.tables.kv.deleteRange .plain 4 0 0 [97] [98]).map (fun r => r.2.map Keyrecord.key) =
        .ok [[97], [98]] :=
  ⟨_, Option.get_mem (by decide +kernel), reached_of_storeAfter (by decide +kernel)
    (Option.get_mem _), by decide +kernel, by decide +kernel, by decide +kernel⟩

end Turbokube
