import Turbokube.Machine.Compactions
import Turbokube.Machine.Growth
import Turbokube.Store.Failures

/-!
# The marks of compaction

The store keeps two marks: reads below `revMin` are refused, and `revCompacted` is the
revision of the last event removed.  A compaction overwrites both without looking at them.
They are in order and never go back as long as no compaction asks for a revision below the
mark and each one meets an event to remove that is not older than the last one removed
(`Cmd.CompactsForward`).
-/

namespace Turbokube

open Encoding Lmdb

/-- A read is refused exactly when it asks for a revision below the mark. -/
theorem queryRange_compacted_iff {E : Env} {kv : DbKv} {revMin : UInt64} {rev : Nat}
    {req : RangeRequest} :
    queryRange E kv revMin rev req = .error .grpcCompacted ↔
      0 < req.revision ∧ req.revision < revMin.toInt64 := by
  unfold queryRange
  split
  · rename_i h
    exact ⟨fun _ => h, fun _ => rfl⟩
  · rename_i h
    refine ⟨fun hq => ?_, fun h' => absurd h' h⟩
    split at hq
    · cases hq
    · split at hq
      · rename_i e herr
        rw [Except.error.inj hq] at herr
        cases DbKv.getRange_internal herr
      · cases hq

open DbKv

/-- A compaction asks for no revision below the mark, and it finds an event to remove from
`revCompacted` on, unless none was removed so far. -/
def Cmd.CompactsForward (b : Batch) : Cmd → Prop
  | .compact revision =>
      b.store.dbMeta.revMin ≤ revision.toUInt64 ∧
        (b.store.dbMeta.revCompacted = 0 ∨
          b.store.tables.kv.Finds (fun evt => b.store.dbMeta.revCompacted ≤ evt.rev.upper ∧
            evt.rev.upper < revision.toUInt64))
  | cmd => cmd.OpsAtMost 1024

instance (b : Batch) (cmd : Cmd) : Decidable (cmd.CompactsForward b) :=
  match cmd with
  | .compact revision =>
      inferInstanceAs (Decidable (b.store.dbMeta.revMin ≤ revision.toUInt64 ∧
        (b.store.dbMeta.revCompacted = 0 ∨ b.store.tables.kv.Finds _)))
  | .txn req => inferInstanceAs (Decidable ((Cmd.txn req).OpsAtMost 1024))
  | .term _ | .tick _ | .put _ | .deleteRange _ | .leaseGrant _ | .leaseRevoke _
  | .leaseKeepAlive _ | .leaseKeepAliveBatch _ | .invalid | .unknown | .empty => .isTrue trivial

theorem Cmd.CompactsForward.opsAtMost {b : Batch} {cmd : Cmd} (h : cmd.CompactsForward b) :
    cmd.OpsAtMost 1024 := by
  cases cmd with
  | compact revision => trivial
  | _ => exact h

structure Marks (b : Batch) : Prop where
  compacted : b.store.dbMeta.revCompacted ≤ b.store.dbMeta.revMin
  min : b.store.dbMeta.revMin.toNat ≤ b.newRev

variable {E : Env} {b b' : Batch} {cmd : Cmd}

theorem lastUpper_eq (l : List (Bytes × Bytes)) :
    (l = [] ∧ lastUpper 0 l = 0) ∨ ∃ p ∈ l, lastUpper 0 l = (decodeEvt p).rev.upper := by
  induction l using List.reverseRecOn with
  | nil => exact .inl ⟨rfl, rfl⟩
  | append_singleton l p _ => exact .inr ⟨p, by simp, by simp [lastUpper]⟩

theorem le_lastUpper {l : List (Bytes × Bytes)} (hsorted : (l.map decodeEvt).Pairwise
      (fun a b => a.rev.word.toNat ≤ b.rev.word.toNat)) {p : Bytes × Bytes} (hp : p ∈ l) :
    (decodeEvt p).rev.upper ≤ lastUpper 0 l := by
  cases l using List.reverseRecOn with
  | nil => cases hp
  | append_singleton l q =>
      rw [show lastUpper 0 (l ++ [q]) = (decodeEvt q).rev.upper by simp [lastUpper]]
      rcases List.mem_append.mp hp with hp | hp
      · rw [List.map_append] at hsorted
        exact upper_le_of_word_le ((List.pairwise_append.mp hsorted).2.2 _
          (List.mem_map_of_mem hp) _ List.mem_cons_self)
      · rw [List.mem_singleton.mp hp]
        exact UInt64.le_refl _

theorem Effect.marks_eq (hcmd : ∀ revision, cmd ≠ .compact revision) (heff : Effect E b cmd b') :
    b'.store.dbMeta.revMin = b.store.dbMeta.revMin ∧
      b'.store.dbMeta.revCompacted = b.store.dbMeta.revCompacted := by
  cases heff with
  | compact _ => exact absurd rfl (hcmd _)
  | _ => exact ⟨rfl, rfl⟩

/-- A command other than a compaction leaves the marks alone. -/
theorem Marks.of_effect (h : Marks b) (hcmd : ∀ revision, cmd ≠ .compact revision)
    (heff : Effect E b cmd b') : Marks b' := by
  obtain ⟨hmin, hcompacted⟩ := heff.marks_eq hcmd
  constructor
  case compacted =>
    rw [hmin, hcompacted]
    exact h.compacted
  case min =>
    rw [hmin]
    exact h.min.trans heff.newRev_le

/-- What a compaction does to the marks. -/
theorem marks_of_compact (hver : b.store.tables.kv.Versioned E False False
      ((b.newRev + 1) * 4096)) {revision : Int64} {kv : DbKv} {last : UInt64}
    (hcmd : (Cmd.compact revision).CompactsForward b)
    (hcompact : b.store.tables.kv.compact E revision.toUInt64 = .ok (kv, last)) :
    last ≤ revision.toUInt64 ∧ revision.toUInt64.toNat ≤ b.newRev ∧
      b.store.dbMeta.revMin ≤ revision.toUInt64 ∧ b.store.dbMeta.revCompacted ≤ last := by
  obtain ⟨ch, hrep, hlog, -⟩ := hver
  obtain ⟨hmeets, hpiece, rfl⟩ := hrep.compactBy_inv hlog hcompact
  obtain ⟨hforward, hremoves⟩ := hcmd
  refine ⟨?_, ?_, hforward, ?_⟩
  · rcases lastUpper_eq (b.store.tables.kv.removedEvents revision.toUInt64) with
      ⟨-, hzero⟩ | ⟨p, hp, hlast⟩
    · rw [hzero]
      exact UInt64.zero_le
    · rw [hlast]
      exact UInt64.le_of_lt (UInt64.not_le.mp (not_le_of_mem_removedEvents hmeets.pos hp))
  · obtain ⟨evt, hevt, hle⟩ := hmeets.event
    obtain ⟨p, hp, rfl⟩ := List.mem_map.mp hevt
    have hlt := (hrep.evt_lt hlog hp).2
    rw [UInt64.le_iff_toNat_le, Keyrev.upper_toNat] at hle
    omega
  · rcases hremoves with hzero | hfinds
    · rw [hzero]
      exact UInt64.zero_le
    · -- the event found is removed, and the last one removed is not older
      obtain ⟨p, hp, hle, hlt⟩ := hrep.exists_mem_walk hfinds (fun a c e ha hc hae hec =>
        ⟨UInt64.le_trans ha.1 (upper_le_of_word_le hae),
          UInt64.lt_of_le_of_lt (upper_le_of_word_le hec) hc.2⟩)
      have hmem : p ∈ b.store.tables.kv.removedEvents revision.toUInt64 :=
        mem_removedEvents.mpr ⟨hp, fun hstop => UInt64.not_le.mpr hlt hstop.2⟩
      exact UInt64.le_trans hle (le_lastUpper (hpiece.sorted hrep) hmem)

/-- One entry keeps the marks in order and moves none of them back. -/
theorem Marks.step (h : Marks b) (hver : b.store.tables.kv.Versioned E False False
      ((b.newRev + 1) * 4096)) (hcmd : cmd.CompactsForward b) (heff : Effect E b cmd b')
    (hr : b'.newRev < 2 ^ 52) :
    Marks b' ∧ b.store.dbMeta.revMin ≤ b'.store.dbMeta.revMin ∧
      b.store.dbMeta.revCompacted ≤ b'.store.dbMeta.revCompacted := by
  by_cases hcompact : ∃ revision, cmd = .compact revision
  · obtain ⟨revision, rfl⟩ := hcompact
    cases heff with
    | keep => exact ⟨h, UInt64.le_refl _, UInt64.le_refl _⟩
    | compact hc =>
        obtain ⟨hlast, hle, hmin, hcompacted⟩ := marks_of_compact hver hcmd hc
        exact ⟨⟨hlast, hle⟩, hmin, hcompacted⟩
  · have hne : ∀ revision, cmd ≠ .compact revision := fun revision heq => hcompact ⟨revision, heq⟩
    obtain ⟨hmin, hcompacted⟩ := heff.marks_eq hne
    rw [hmin, hcompacted]
    exact ⟨h.of_effect hne heff, UInt64.le_refl _, UInt64.le_refl _⟩

theorem Marks.commit (h : Marks b) (hsynced : b.Synced b.store.dbMeta.rev) (index : UInt64) :
    Marks (.start (b.finish b.store.dbMeta.rev index)) := by
  obtain ⟨-, hrev, -⟩ := eq_of_core_eq (core_start_finish hsynced index)
  refine ⟨h.compacted, ?_⟩
  rw [hrev]
  exact h.min

theorem Reached.marks (h : Reached E (fun b cmd => cmd.CompactsForward b) b)
    (hrev : b.newRev < 2 ^ 52) : Marks b := by
  induction h with
  | init => exact ⟨by decide, le_rfl⟩
  | entry hb hcmd happly ih =>
      have heff := effect_of_applyEntry happly
      have hlt := heff.newRev_le.trans_lt hrev
      exact ((ih hlt).step (hb.versioned_of_opsAtMost (fun _ _ hQ => hQ.opsAtMost) hlt) hcmd heff
        hrev).1
  | commit index hb ih =>
      obtain ⟨-, hrev', -⟩ := eq_of_core_eq (core_start_finish hb.synced index)
      rw [hrev'] at hrev
      exact (ih hrev).commit hb.synced index

/-- The marks of a run that goes on do not go back. -/
theorem Leads.marks_le (h : Reached E (fun b cmd => cmd.CompactsForward b) b)
    (hleads : Leads E (fun b cmd => cmd.CompactsForward b) b b') (hrev : b'.newRev < 2 ^ 52) :
    b.store.dbMeta.revMin ≤ b'.store.dbMeta.revMin ∧
      b.store.dbMeta.revCompacted ≤ b'.store.dbMeta.revCompacted := by
  induction hleads with
  | refl => exact ⟨UInt64.le_refl _, UInt64.le_refl _⟩
  | entry hb hcmd happly ih =>
      have heff := effect_of_applyEntry happly
      have hlt := heff.newRev_le.trans_lt hrev
      have hreach := h.leads hb
      obtain ⟨hmin, hcompacted⟩ := ih hlt
      obtain ⟨-, hmin', hcompacted'⟩ := (hreach.marks hlt).step
        (hreach.versioned_of_opsAtMost (fun _ _ hQ => hQ.opsAtMost) hlt) hcmd heff hrev
      exact ⟨UInt64.le_trans hmin hmin', UInt64.le_trans hcompacted hcompacted'⟩
  | commit index hb ih =>
      obtain ⟨-, hrev', -⟩ := eq_of_core_eq (core_start_finish (h.leads hb).synced index)
      rw [hrev'] at hrev
      exact ih hrev

/-- A Range in the state `b`. -/
def Batch.range (E : Env) (b : Batch) (req : RangeRequest) : Except Err RangeResponse :=
  queryRange E b.store.tables.kv b.store.dbMeta.revMin b.newRev req

/-- The record that a read at `r` finds for some key is no longer there. -/
def DbKv.Prunes (db db' : DbKv) (r : UInt64) : Prop :=
  ∃ k, ∃ kr ∈ (db.records k).find? (fun kr => kr.rev.upper ≤ r), kr ∉ db'.records k

theorem find?_mem_keepFrom {max r : UInt64} (hle : max ≤ r) {l : List Keyrecord} {kr : Keyrecord}
    (h : l.find? (fun kr => kr.rev.upper ≤ r) = some kr) : kr ∈ keepFrom Keyrecord.rev max l := by
  induction l with
  | nil => cases h
  | cons x l ih =>
      rw [List.find?_cons] at h
      rw [keepFrom]
      split at h
      · obtain rfl := Option.some.inj h
        split <;> simp
      · rename_i hx
        have hlt : max ≤ x.rev.upper := by
          rw [decide_eq_false_iff_not, UInt64.not_le] at hx
          exact UInt64.le_trans hle (UInt64.le_of_lt hx)
        rw [if_pos hlt]
        exact List.mem_cons_of_mem _ (ih h)

theorem toInt_toInt64_of_lt {a : UInt64} (h : a.toNat < 2 ^ 52) : a.toInt64.toInt = a.toNat := by
  rw [show a.toInt64.toInt = a.toBitVec.toInt from rfl, BitVec.toInt_eq_toNat_of_lt]
  · rfl
  · rw [show a.toBitVec.toNat = a.toNat from rfl]
    omega

theorem toInt64_le_of_le {a b : UInt64} (h : a ≤ b) (hb : b.toNat < 2 ^ 52) :
    a.toInt64 ≤ b.toInt64 := by
  rw [UInt64.le_iff_toNat_le] at h
  rw [Int64.le_iff_toInt_le, toInt_toInt64_of_lt (by omega), toInt_toInt64_of_lt (by omega)]
  omega

theorem lt_toInt64_of_lt {r : Int64} {a : UInt64} (h : r.toUInt64 < a)
    (ha : a.toNat < 2 ^ 52) : r < a.toInt64 := by
  rw [UInt64.lt_iff_toNat_lt] at h
  have hr' : r = r.toUInt64.toInt64 := by simp
  rw [hr', Int64.lt_iff_toInt_lt, toInt_toInt64_of_lt (by omega), toInt_toInt64_of_lt (by omega)]
  omega

/-- A read refused by a mark is refused by every later one. -/
theorem Batch.range_compacted_of_le {req : RangeRequest}
    (h : b.range E req = .error .grpcCompacted) (hmarks : Marks b')
    (hle : b.store.dbMeta.revMin ≤ b'.store.dbMeta.revMin) (hrev : b'.newRev < 2 ^ 52) :
    b'.range E req = .error .grpcCompacted := by
  obtain ⟨hpos, hlt⟩ := queryRange_compacted_iff.mp h
  refine queryRange_compacted_iff.mpr ⟨hpos, ?_⟩
  exact Int64.lt_of_lt_of_le hlt (toInt64_le_of_le hle (hmarks.min.trans_lt hrev))

/-- What a compaction prunes is below the mark it sets. -/
theorem Effect.range_of_prunes {revision : Int64} {req : RangeRequest} (hmarks : Marks b')
    (hver : b.store.tables.kv.Versioned E False False ((b.newRev + 1) * 4096))
    (heff : Effect E b (.compact revision) b') (hrev : b'.newRev < 2 ^ 52) (hpos : 0 < req.revision)
    (hprunes : b.store.tables.kv.Prunes b'.store.tables.kv req.revision.toUInt64) :
    b'.range E req = .error .grpcCompacted := by
  obtain ⟨k, kr, hkr, hgone⟩ := hprunes
  cases heff with
  | keep => exact absurd (List.mem_of_find?_eq_some hkr) hgone
  | compact hcompact =>
      obtain ⟨ch, hrep, hlog, -⟩ := hver
      have hcomp := hrep.compacted hlog hcompact
      refine queryRange_compacted_iff.mpr
        ⟨hpos, lt_toInt64_of_lt ?_ (hmarks.min.trans_lt hrev)⟩
      refine UInt64.not_le.mp (fun hle => hgone ?_)
      have hmem : kr ∈ keepFrom Keyrecord.rev revision.toUInt64 (b.store.tables.kv.records k) :=
        find?_mem_keepFrom hle hkr
      rw [← hcomp.keepFrom_records hrep hlog] at hmem
      exact (keepFrom_isPrefix _ _ _).mem hmem

/-- What the marks promise to the readers of a run that goes from `b` to `b'`. -/
structure MarksKept (E : Env) (b b' : Batch) : Prop where
  compacted_le_min : b'.store.dbMeta.revCompacted ≤ b'.store.dbMeta.revMin
  min_le_rev : b'.store.dbMeta.revMin.toNat ≤ b'.newRev
  min_mono : b.store.dbMeta.revMin ≤ b'.store.dbMeta.revMin
  compacted_mono : b.store.dbMeta.revCompacted ≤ b'.store.dbMeta.revCompacted
  refused : ∀ req, b.range E req = .error .grpcCompacted → b'.range E req = .error .grpcCompacted

/-- When every compaction of a run moves forward, the marks are in order in every state of the
run and never go back, a read once refused stays refused, and so is every read at a revision
whose records a compaction has pruned. -/
theorem compaction_marks_monotone (h : Reached E (fun b cmd => cmd.CompactsForward b) b)
    (hleads : Leads E (fun b cmd => cmd.CompactsForward b) b b') (hrev : b'.newRev < 2 ^ 52) :
    MarksKept E b b' ∧
      ∀ (ent : Entry) (revision : Int64) (b₁ : Batch) (res : Result) (req : RangeRequest),
        ent.cmd = .compact revision → ent.cmd.CompactsForward b →
        applyEntry E b ent = .ok (b₁, res) →
        Leads E (fun b cmd => cmd.CompactsForward b) b₁ b' → 0 < req.revision →
        b.store.tables.kv.Prunes b₁.store.tables.kv req.revision.toUInt64 →
        b'.range E req = .error .grpcCompacted := by
  have hmarks := (h.leads hleads).marks hrev
  obtain ⟨hmin, hcompacted⟩ := hleads.marks_le h hrev
  refine ⟨⟨hmarks.compacted, hmarks.min, hmin, hcompacted,
    fun req hreq => Batch.range_compacted_of_le hreq hmarks hmin hrev⟩, ?_⟩
  intro ent revision b₁ res req hcmd hforward happly hleads₁ hpos hprunes
  have heff := effect_of_applyEntry happly
  have hreach₁ := h.entry hforward happly
  have hrev₁ := (hreach₁.newRev_le_of_leads hleads₁).trans_lt hrev
  rw [hcmd] at heff
  have hrefused := heff.range_of_prunes (hreach₁.marks hrev₁)
    (h.versioned_of_opsAtMost (fun _ _ hQ => hQ.opsAtMost) (heff.newRev_le.trans_lt hrev₁)) hrev₁
    hpos hprunes
  exact Batch.range_compacted_of_le hrefused hmarks (hleads₁.marks_le hreach₁ hrev).1 hrev

/-- Five versions of one key, of the revisions 2 to 6. -/
def fiveVersions : List (List Cmd) := putsOf [97] [1, 2, 3, 4, 5]

theorem compaction_marks_monotone_after_five_puts :
    ∃ s ∈ storeAfter fiveVersions,
      ∃ r ∈ (applyEntry .plain (.start s) { index := 6, cmd := .compact 6 }).toOption,
        MarksKept .plain (.start s) r.1 ∧
          r.1.range .plain { key := [97], revision := 2 } = .error .grpcCompacted := by
  refine exists_mem_imp (D := fun s => ∃ r ∈
    (applyEntry .plain (.start s) { index := 6, cmd := .compact 6 }).toOption,
    (Cmd.compact 6).CompactsForward (.start s) ∧ r.1.newRev < 2 ^ 52 ∧
      ∃ kr ∈ (s.tables.kv.records [97]).find? (fun kr => kr.rev.upper ≤ 2),
        kr ∉ r.1.store.tables.kv.records [97]) (by decide +kernel) (fun s hs hD => ?_)
  refine exists_mem_imp hD (fun r hr hmarks => ?_)
  obtain ⟨hforward, hrev, hprunes⟩ := hmarks
  have happly := eq_ok_of_mem_toOption hr
  obtain ⟨hkept, hpruned⟩ := compaction_marks_monotone
    (reached_of_storeAfter (by decide +kernel) hs) (.entry .refl hforward happly) hrev
  exact ⟨hkept, hpruned _ 6 _ _ { key := [97], revision := 2 } rfl hforward happly .refl (by decide)
    ⟨[97], hprunes⟩⟩

/-- Compaction at 3 after one at 6 takes both marks back, and a read at 3 that was refused is
answered without the record that was pruned.  A second compaction at 6 removes an event that the
first stepped over, which takes `revCompacted` back. -/
theorem compaction_marks_go_back :
    ∃ s₀ ∈ storeAfter fiveVersions,
      ∃ r₁ ∈ (applyEntry .plain (.start s₀) { index := 6, cmd := .compact 6 }).toOption,
        r₁.1.store.dbMeta.revMin = 6 ∧ r₁.1.store.dbMeta.revCompacted = 4 ∧
        (∃ r₂ ∈ (applyEntry .plain r₁.1 { index := 7, cmd := .compact 3 }).toOption,
          r₂.1.store.dbMeta.revMin = 3 ∧ r₂.1.store.dbMeta.revCompacted = 0 ∧
          (((Batch.start s₀).range .plain { key := [97], revision := 3 }).toOption.map
            fun res => res.kvs.length) = some 1 ∧
          r₁.1.range .plain { key := [97], revision := 3 } = .error .grpcCompacted ∧
          ((r₂.1.range .plain { key := [97], revision := 3 }).toOption.map
            fun res => res.kvs.length) = some 0) ∧
        ∃ r₂ ∈ (applyEntry .plain r₁.1 { index := 7, cmd := .compact 6 }).toOption,
          r₂.1.store.dbMeta.revMin = 6 ∧ r₂.1.store.dbMeta.revCompacted = 3 := by
  decide +kernel

end Turbokube
