import Turbokube.Store.Writes

/-!
# What a range deletion deletes

Under `RecsOk` a range deletion has two outcomes.  It fails when a live key of the
range was already written at the revision of the command, and otherwise it writes a
tombstone for every live key of the range, in key order, and returns their records
(`deleteRange_eq`).
-/

namespace Turbokube

open Encoding Lmdb

namespace DbKv

variable {E : Env} {db db' : DbKv} {rev subrev : Nat} {epoch : UInt64} {key rangeEnd : Bytes}

/-- The range of a deletion from its start on.  The end is included. -/
def deleteRangeHas (key rangeEnd k : Bytes) : Bool :=
  if rangeEnd = [] then decide (k = key) else decide (k ≤ rangeEnd)

/-- The newest record of a key if it is live. -/
def liveRec (db : DbKv) (k : Bytes) : Option Keyrecord :=
  match (db.records k).head? with
  | none => none
  | some kr => if kr.rev.isdel then none else some kr

theorem liveRec_eq_some_iff {k : Bytes} {kr : Keyrecord} :
    db.liveRec k = some kr ↔ (db.records k).head? = some kr ∧ kr.rev.isdel = false := by
  rw [liveRec]
  cases h : (db.records k).head? with
  | none => simp
  | some kr' =>
      cases hd : kr'.rev.isdel
      · simp only [Bool.false_eq_true, if_false, Option.some.injEq, hd]
        exact ⟨fun h => ⟨h, h ▸ hd⟩, fun h => h.1⟩
      · simp only [if_true, hd, Option.some.injEq, reduceCtorEq, false_iff]
        rintro ⟨rfl, hlive⟩
        exact absurd hd (by simp [hlive])

theorem live_iff_liveRec {k : Bytes} : db.Live k ↔ ∃ kr, db.liveRec k = some kr := by
  simp only [Live, liveRec_eq_some_iff]

theorem RecsOk.key_of_liveRec (h : db.RecsOk) {k : Bytes} {kr : Keyrecord}
    (hkr : db.liveRec k = some kr) : kr.key = k := by
  obtain ⟨hhead, -⟩ := liveRec_eq_some_iff.mp hkr
  exact h.key_of_mem (List.mem_of_head? hhead)

/-- A write to another key leaves the newest record alone. -/
theorem liveRec_congr {k : Bytes} (h : db'.records k = db.records k) :
    db'.liveRec k = db.liveRec k := by
  rw [liveRec, h, liveRec]

/-- The keys a deletion visits. -/
def deleteKeys (db : DbKv) (key rangeEnd : Bytes) : List Bytes :=
  ((db.rev.seek key).map Prod.fst).filter (deleteRangeHas key rangeEnd)

/-- The live records a deletion finds. -/
def deleteTargets (db : DbKv) (key rangeEnd : Bytes) : List Keyrecord :=
  (db.deleteKeys key rangeEnd).filterMap db.liveRec

/-- The record was written by the command that deletes it. -/
def isDup (E : Env) (rev : Nat) (kr : Keyrecord) : Bool :=
  decide (kr.rev.upper = UInt64.ofNat rev) && !E.flags.txnMultiWriteEnabled

/-- Past the range nothing of it follows. -/
theorem filter_rest_eq_nil {k : Bytes} {rest : List (Bytes × List Bytes)} (hk : key ≤ k)
    (hrest : ∀ e ∈ rest, k < e.1) (h : rangeEnd = [] ∨ deleteRangeHas key rangeEnd k = false) :
    (rest.map Prod.fst).filter (deleteRangeHas key rangeEnd) = [] := by
  rw [List.filter_eq_nil_iff]
  intro k' hk'
  obtain ⟨e, he, rfl⟩ := List.mem_map.mp hk'
  have hlt := hrest e he
  by_cases hend : rangeEnd = []
  · simp [deleteRangeHas, hend, ne_of_gt (lt_of_le_of_lt hk hlt)]
  · have hout := h.resolve_left hend
    simp only [deleteRangeHas, hend, if_false, decide_eq_false_iff_not, not_le] at hout
    simp [deleteRangeHas, hend, hout.trans hlt]

section Step

variable (E rev subrev epoch) (kr : Keyrecord) (vs : List Bytes)
  (rest : List (Bytes × List Bytes)) (acc : DeleteAcc)

theorem deleteLoop_outside (h : deleteRangeHas key rangeEnd kr.key = false) :
    deleteLoop E rev subrev epoch key rangeEnd ((kr.key, kr.bytes :: vs) :: rest) acc =
      .ok acc := by
  have hlen : ¬ kr.bytes.length < 12 := Nat.not_lt.mpr kr.twelve_le_bytes_length
  by_cases hend : rangeEnd = []
  · have hk : kr.key ≠ key := by simpa [deleteRangeHas, hend] using h
    simp [deleteLoop, hlen, hend, hk]
  · have hk : rangeEnd < kr.key := by simpa [deleteRangeHas, hend] using h
    simp [deleteLoop, hlen, hend, hk]

theorem inside_of_deleteRangeHas (h : deleteRangeHas key rangeEnd kr.key = true) :
    ¬ (rangeEnd = [] ∧ kr.key ≠ key) ∧ ¬ (rangeEnd ≠ [] ∧ rangeEnd < kr.key) := by
  by_cases hend : rangeEnd = []
  · simpa [deleteRangeHas, hend] using h
  · simpa [deleteRangeHas, hend] using h

theorem deleteLoop_tombstone (h : deleteRangeHas key rangeEnd kr.key = true)
    (hdel : kr.rev.isdel = true) :
    deleteLoop E rev subrev epoch key rangeEnd ((kr.key, kr.bytes :: vs) :: rest) acc =
      if rangeEnd = [] then .ok { acc with prev := ⟨kr.key, kr.rev, acc.prev.lease⟩ }
      else deleteLoop E rev subrev epoch key rangeEnd rest
        { acc with prev := ⟨kr.key, kr.rev, acc.prev.lease⟩ } := by
  have hlen : ¬ kr.bytes.length < 12 := Nat.not_lt.mpr kr.twelve_le_bytes_length
  have hstop := inside_of_deleteRangeHas kr h
  have hkeep : keepPrev acc.prev kr.key kr.bytes = (⟨kr.key, kr.rev, acc.prev.lease⟩, none) := by
    rw [keepPrev, Keyrecord.fromBytes_bytes]
    simp [hdel]
  rw [deleteLoop, if_neg hlen, if_neg hstop.1, if_neg hstop.2, hkeep]
  simp only [hdel, if_true]

theorem deleteLoop_live (h : deleteRangeHas key rangeEnd kr.key = true)
    (hlive : kr.rev.isdel = false) :
    deleteLoop E rev subrev epoch key rangeEnd ((kr.key, kr.bytes :: vs) :: rest) acc =
      if isDup E rev kr then .error .grpcDuplicateKey
      else if rangeEnd = [] then
        .ok ⟨acc.db.tombstone rev subrev epoch kr.key, kr, acc.items ++ [kr]⟩
      else deleteLoop E rev subrev epoch key rangeEnd rest
        ⟨acc.db.tombstone rev subrev epoch kr.key, kr, acc.items ++ [kr]⟩ := by
  have hlen : ¬ kr.bytes.length < 12 := Nat.not_lt.mpr kr.twelve_le_bytes_length
  have hstop := inside_of_deleteRangeHas kr h
  have hkeep : keepPrev acc.prev kr.key kr.bytes = (kr, none) := by
    rw [keepPrev, Keyrecord.fromBytes_live _ hlive]
  rw [deleteLoop, if_neg hlen, if_neg hstop.1, if_neg hstop.2, hkeep]
  simp only [hlive, Bool.false_eq_true, if_false, isDup, Bool.and_eq_true, decide_eq_true_eq]

end Step

/-- The loop over entries of a sound table, as seen from its targets. -/
theorem deleteLoop_eq (hok : db.RecsOk) {l : List (Bytes × List Bytes)}
    (hl : ∀ e ∈ l, e.2 = db.rev.dups e.1 ∧ e.2 ≠ [] ∧ key ≤ e.1)
    (hsorted : l.Pairwise (fun a b => a.1 < b.1)) (acc : DeleteAcc) (targets : List Keyrecord)
    (htargets :
      ((l.map Prod.fst).filter (deleteRangeHas key rangeEnd)).filterMap db.liveRec = targets) :
    if targets.any (isDup E rev) then
      deleteLoop E rev subrev epoch key rangeEnd l acc = .error .grpcDuplicateKey
    else
      ∃ prev, deleteLoop E rev subrev epoch key rangeEnd l acc =
        .ok ⟨acc.db.tombstones rev subrev epoch (targets.map Keyrecord.key), prev,
          acc.items ++ targets⟩ := by
  induction l generalizing acc targets with
  | nil =>
      subst htargets
      exact ⟨acc.prev, by simp [deleteLoop]⟩
  | cons e rest ih =>
      obtain ⟨k, dups⟩ := e
      obtain ⟨hdups, hne, hle⟩ := hl _ List.mem_cons_self
      obtain ⟨hlt, hrest⟩ := List.pairwise_cons.mp hsorted
      have hl' : ∀ e ∈ rest, e.2 = db.rev.dups e.1 ∧ e.2 ≠ [] ∧ key ≤ e.1 :=
        fun e he => hl e (List.mem_cons_of_mem _ he)
      simp only at hdups hne hle hlt
      obtain ⟨kr, krs, hrecs⟩ := List.exists_cons_of_ne_nil
        (fun hnil : db.records k = [] => hne (hdups.trans (records_eq_nil_iff.mp hnil)))
      have hkr : kr.key = k := hok.key_of_mem (by rw [hrecs]; exact List.mem_cons_self)
      have hcons : dups = kr.bytes :: krs.map Keyrecord.bytes := by
        rw [hdups, hok.dups_eq, hrecs, List.map_cons]
      clear hdups hne hl hsorted
      subst hcons hkr
      rw [List.map_cons] at htargets
      cases hin : deleteRangeHas key rangeEnd kr.key
      · rw [List.filter_cons_of_neg (by simp [hin]), filter_rest_eq_nil hle hlt (.inr hin),
          List.filterMap_nil] at htargets
        subst htargets
        exact ⟨acc.prev, by rw [deleteLoop_outside _ _ _ _ kr _ _ _ hin]; simp⟩
      · rw [List.filter_cons_of_pos hin] at htargets
        cases hdel : kr.rev.isdel
        · have hlive : db.liveRec kr.key = some kr :=
            liveRec_eq_some_iff.mpr ⟨by simp [hrecs], hdel⟩
          rw [List.filterMap_cons_some hlive] at htargets
          subst htargets
          rw [deleteLoop_live _ _ _ _ kr _ _ _ hin hdel, List.any_cons]
          cases hdup : isDup E rev kr
          · rw [Bool.false_or]
            by_cases hend : rangeEnd = []
            · rw [filter_rest_eq_nil hle hlt (.inl hend)]
              simp [hend]
            · have hrec := ih hl' hrest
                ⟨acc.db.tombstone rev subrev epoch kr.key, kr, acc.items ++ [kr]⟩ _ rfl
              simpa [hend] using hrec
          · simp
        · have hnone : db.liveRec kr.key = none := by simp [liveRec, hrecs, hdel]
          rw [List.filterMap_cons_none hnone] at htargets
          rw [deleteLoop_tombstone _ _ _ _ kr _ _ _ hin hdel]
          by_cases hend : rangeEnd = []
          · rw [filter_rest_eq_nil hle hlt (.inl hend)] at htargets
            subst htargets
            simp [hend]
          · rw [if_neg hend]
            exact ih hl' hrest { acc with prev := _ } targets htargets

/-- A key the cursor can be set to. -/
abbrev ValidKey (key : Bytes) : Prop := key ≠ []

theorem setRange_eq {t : DupTable Bytes Bytes} (hkey : ValidKey key) :
    setRange t key = if t.seek key = [] then .error .notFound else .ok (t.seek key) := by
  rw [setRange_of_ne_nil hkey]
  cases t.seek key with
  | nil => rfl
  | cons e rest => simp

theorem deleteRange_eq (hok : db.RecsOk) (hkey : ValidKey key) (subrev : Nat) (epoch : UInt64) :
    db.deleteRange E rev subrev epoch key rangeEnd =
      if (db.deleteTargets key rangeEnd).any (isDup E rev) then .error .grpcDuplicateKey
      else
        .ok (db.tombstones rev subrev epoch ((db.deleteTargets key rangeEnd).map Keyrecord.key),
          db.deleteTargets key rangeEnd) := by
  rw [deleteRange, setRange_eq hkey]
  by_cases hs : db.rev.seek key = []
  · simp [hs, deleteTargets, deleteKeys]
  · rw [if_neg hs]
    have hloop := @deleteLoop_eq E db rev subrev epoch key rangeEnd hok (db.rev.seek key)
      (fun e he => DupTable.mem_seek.mp he) (db.rev.seek_sorted key) { db := db }
      (db.deleteTargets key rangeEnd) rfl
    by_cases hdup : (db.deleteTargets key rangeEnd).any (isDup E rev) = true
    · rw [if_pos hdup] at hloop
      simp [hloop, hdup]
    · rw [if_neg hdup] at hloop
      obtain ⟨prev, hloop⟩ := hloop
      simp [hloop, hdup]

theorem deleteRange_nil :
    db.deleteRange E rev subrev epoch [] rangeEnd = .error (.lmdb .badValSize) := by
  rw [deleteRange, setRange_nil]

theorem validKey_of_deleteRange {out : DbKv × List Keyrecord}
    (h : db.deleteRange E rev subrev epoch key rangeEnd = .ok out) : ValidKey key := by
  rintro rfl
  rw [deleteRange_nil] at h
  cases h

/-- The targets are the live keys of the range. -/
theorem mem_deleteTargets {kr : Keyrecord} (hok : db.RecsOk) :
    kr ∈ db.deleteTargets key rangeEnd ↔
      db.liveRec kr.key = some kr ∧ key ≤ kr.key ∧ deleteRangeHas key rangeEnd kr.key = true := by
  rw [deleteTargets, List.mem_filterMap]
  constructor
  · rintro ⟨k, hk, hkr⟩
    obtain rfl := hok.key_of_liveRec hkr
    obtain ⟨hmem, hin⟩ := List.mem_filter.mp hk
    obtain ⟨e, he, heq⟩ := List.mem_map.mp hmem
    exact ⟨hkr, heq ▸ (DupTable.mem_seek.mp he).2.2, hin⟩
  · rintro ⟨hkr, hle, hin⟩
    refine ⟨kr.key, List.mem_filter.mpr ⟨List.mem_map.mpr ⟨(kr.key, db.rev.dups kr.key), ?_, rfl⟩,
      hin⟩, hkr⟩
    refine DupTable.mem_seek.mpr ⟨rfl, ?_, hle⟩
    intro hnil
    have hrecs := (liveRec_eq_some_iff.mp hkr).1
    rw [records_eq_nil_iff.mpr hnil] at hrecs
    cases hrecs

theorem deleteTargets_nodup (hok : db.RecsOk) :
    ((db.deleteTargets key rangeEnd).map Keyrecord.key).Nodup := by
  have hsorted : ((db.rev.seek key).map Prod.fst).Pairwise (· < ·) :=
    List.pairwise_map.mpr (db.rev.seek_sorted key)
  have hkeys := hsorted.filter (deleteRangeHas key rangeEnd)
  rw [deleteTargets, List.Nodup, List.pairwise_map, List.pairwise_filterMap]
  refine hkeys.imp (fun {a b} hab kr hkr kr' hkr' heq => ?_)
  rw [hok.key_of_liveRec hkr, hok.key_of_liveRec hkr'] at heq
  exact absurd heq (ne_of_lt hab)

end DbKv

end Turbokube
