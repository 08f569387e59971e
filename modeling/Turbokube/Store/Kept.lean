import Turbokube.Store.Compaction
import Turbokube.Store.Ranges
import Turbokube.Store.Spacing

/-!
# What is kept of the history

Compaction cuts the histories of the keys from below.  `KeptFrom C` says how much of them is
still there after compactions at revisions up to `C`: a history that was cut keeps a version
below `C`.  So a read at `C` or later stops where it would have stopped in the whole
history.
-/

namespace Turbokube

open Encoding Lmdb

namespace DbKv

/-- A history that was cut keeps a version below `C`. -/
def CutAt (C : Nat) (ch : Bytes → List Version) (log : List Write) : Prop :=
  ∀ k, ch k = versions log k ∨ ∃ v ∈ ch k, v.rev.upper.toNat < C

variable {E F : Env} {S : Prop} {A : PutRequest → Prop} {db db' : DbKv}
  {ch ch' : Bytes → List Version} {log log' : List Write} {lo hi bound C : Nat}

theorem CutAt.extends (h : CutAt C ch log) (hext : Extends ch log ch' log') :
    CutAt C ch' log' := by
  intro k
  obtain ⟨new, hch, hlog⟩ := hext k
  rcases h k with hall | ⟨v, hv, hle⟩
  · left
    rw [hch, hlog, hall]
  · right
    refine ⟨v, ?_, hle⟩
    rw [hch]
    exact List.mem_append_right _ hv

theorem CutAt.mono {C' : Nat} (h : CutAt C ch log) (hle : C ≤ C') : CutAt C' ch log :=
  fun k => (h k).imp_right (Exists.imp (fun _ hv => ⟨hv.1, hv.2.trans_le hle⟩))

/-- What is kept of a list is all of it, or its last element is below `max`. -/
theorem keepFrom_eq_or {α : Type} (rev : α → Keyrev) (max : UInt64) (l : List α) :
    keepFrom rev max l = l ∨ ∃ v ∈ keepFrom rev max l, ¬ max ≤ (rev v).upper := by
  induction l with
  | nil => exact .inl rfl
  | cons v vs ih =>
      rw [keepFrom]
      split
      · rcases ih with hall | ⟨x, hx, hlt⟩
        · exact .inl (congrArg _ hall)
        · exact .inr ⟨x, List.mem_cons_of_mem _ hx, hlt⟩
      · rename_i hlt
        exact .inr ⟨v, List.mem_cons_self, hlt⟩

/-- Cutting a history further keeps a version below `C` if what compaction has to keep is kept. -/
theorem CutAt.compacted (h : CutAt C ch log) {max : UInt64} (hmax : max.toNat ≤ C)
    (hchain : ∀ k, ch' k <+: ch k)
    (hkeep : ∀ k, keepFrom Version.rev max (ch' k) = keepFrom Version.rev max (ch k)) :
    CutAt C ch' log := by
  intro k
  rcases keepFrom_eq_or Version.rev max (ch k) with hall | ⟨v, hv, hlt⟩
  · rw [← hkeep] at hall
    have hsame : ch' k = ch k := (hchain k).eq_of_length_le (by
      rw [← hall]
      exact (keepFrom_isPrefix _ _ _).length_le)
    rw [hsame]
    exact h k
  · rw [← hkeep] at hv
    refine .inr ⟨v, (keepFrom_isPrefix _ _ _).mem hv, ?_⟩
    rw [UInt64.le_iff_toNat_le] at hlt
    omega

/-- A version from `C` on was not cut. -/
theorem CutAt.mem (h : CutAt C ch log) (hlog : LogOk log lo hi) {k : Bytes}
    (hkept : ch k <+: versions log k) {x : Version} (hx : x ∈ versions log k)
    (hC : C ≤ x.rev.upper.toNat) : x ∈ ch k := by
  rcases h k with hall | ⟨v, hv, hlt⟩
  · rw [hall]
    exact hx
  · obtain ⟨rest, hrest⟩ := hkept
    have hdesc := hlog.desc k
    rw [← hrest] at hdesc hx
    refine (List.mem_append.mp hx).resolve_right (fun hmem => ?_)
    have hword := (List.pairwise_append.mp hdesc).2.2 v hv x hmem
    rw [Keyrev.upper_toNat] at hC hlt
    omega

/-- A read at `C` or later stops at the same version of what is kept and of the history. -/
theorem CutAt.head?_versionsAt (h : CutAt C ch log) {k : Bytes} (hkept : ch k <+: versions log k)
    {r : UInt64} (hr : C ≤ r.toNat) :
    (versionsAt r (ch k)).head? = (versionsAt r (versions log k)).head? := by
  rw [DbKv.head?_versionsAt, DbKv.head?_versionsAt]
  rcases h k with hall | ⟨v, hv, hlt⟩
  · rw [hall]
  · obtain ⟨rest, hrest⟩ := hkept
    have hfound : ((ch k).find? (fun v => !v.tooNew r)).isSome = true := by
      refine List.find?_isSome.mpr ⟨v, hv, ?_⟩
      have hnot : ¬ (0 < r ∧ r < v.rev.upper) := by
        rw [UInt64.lt_iff_toNat_lt, UInt64.lt_iff_toNat_lt]
        omega
      simp only [Version.tooNew, decide_eq_false hnot, Bool.not_false]
    rw [← hrest, List.find?_append]
    cases hfind : (ch k).find? (fun v => !v.tooNew r) with
    | none =>
        rw [hfind] at hfound
        cases hfound
    | some x => rfl

/-- The tables represent versions below `bound`, and what compactions up to `C` keep of them. -/
def KeptFrom (E : Env) (S : Prop) (C : Nat) (db : DbKv) (bound : Nat) : Prop :=
  ∃ ch, db.Rep E S ch ∧ LogOk db.log bound bound ∧ CutAt C ch db.log

theorem KeptFrom.empty : DbKv.empty.KeptFrom E S C bound :=
  ⟨_, .empty, .nil _ _, fun _ => .inl rfl⟩

theorem KeptFrom.mono {bound' : Nat} (h : db.KeptFrom E S C bound) (hle : bound ≤ bound') :
    db.KeptFrom E S C bound' := by
  obtain ⟨ch, hrep, hlog, hcut⟩ := h
  exact ⟨ch, hrep, hlog.mono hle hle, hcut⟩

theorem KeptFrom.mono_cut {C' : Nat} (h : db.KeptFrom E S C bound) (hle : C ≤ C') :
    db.KeptFrom E S C' bound := by
  obtain ⟨ch, hrep, hlog, hcut⟩ := h
  exact ⟨ch, hrep, hlog, hcut.mono hle⟩

/-- From the next revision on nothing is missing. -/
theorem Versioned.keptFrom {U : Prop} {r : Nat} (h : db.Versioned E S U ((r + 1) * 4096)) :
    db.KeptFrom E S (r + 1) ((r + 1) * 4096) := by
  obtain ⟨ch, hrep, hlog, -⟩ := h
  refine ⟨ch, hrep, hlog, fun k => ?_⟩
  cases hch : ch k with
  | nil => exact .inl (hrep.newest k hch).symm
  | cons v vs =>
      have hv : v ∈ ch k := by
        rw [hch]
        exact List.mem_cons_self
      exact .inr ⟨v, List.mem_cons_self,
        Nat.lt_succ_of_le (hlog.upper_le le_rfl le_rfl (hrep.mem_versions hv))⟩

/-- The version of an event from `C` on is there. -/
theorem KeptFrom.version_of_event (h : db.KeptFrom E S C bound) :
    ∃ ch, db.Rep E S ch ∧ LogOk db.log bound bound ∧
      ∀ evt ∈ db.eventsFrom C, ∃ x ∈ ch evt.key, x.rev = evt.rev := by
  obtain ⟨ch, hrep, hlog, hcut⟩ := h
  refine ⟨ch, hrep, hlog, fun evt hevt => ?_⟩
  obtain ⟨hmem, hC⟩ := List.mem_filter.mp hevt
  obtain ⟨x, hx, hrev⟩ := hrep.version_of_event hmem
  exact ⟨x, hcut.mem hlog (hrep.kept _) hx (by rw [hrev]; exact of_decide_eq_true hC), hrev⟩

theorem KeptFrom.recsOk (h : db.KeptFrom E S C bound) : db.RecsOk := by
  obtain ⟨ch, hrep, -⟩ := h
  exact hrep.recsOk

theorem KeptFrom.kvRun {r r' : Nat} (hA : ∀ req, A req → S → req.ignoreValue = true →
      req.value = []) (h : db.KeptFrom E S C ((r + 1) * 4096)) (hr' : r' < 2 ^ 52)
    (hrun : KvRun E A 1024 db r db' r') : db'.KeptFrom E S C ((r' + 1) * 4096) := by
  refine hrun.keeps_below KeptFrom.mono (fun hpos hrev hsub hkept hop => ?_) h hr'
  obtain ⟨ch, hrep, hlog, hcut⟩ := hkept
  obtain ⟨ch', hrep', hlog', hext⟩ := hrep.opStep_extends hA hlog hpos hrev hsub hop
  exact ⟨ch', hrep', hlog', hcut.extends hext⟩

theorem KeptFrom.compact {max last : UInt64} (h : db.KeptFrom E S C bound) (hmax : max.toNat ≤ C)
    (hc : db.compact F max = .ok (db', last)) : db'.KeptFrom E S C bound := by
  obtain ⟨ch, hrep, hlog, hcut⟩ := h
  have hcomp := hrep.compacted hlog hc
  refine ⟨_, hcomp.rep hrep hlog, hcomp.logOk hlog, ?_⟩
  rw [hcomp.log]
  exact hcut.compacted hmax hcomp.chain hcomp.keep

end DbKv

end Turbokube
