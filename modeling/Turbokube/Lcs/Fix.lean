import Turbokube.Lcs.Alignment

/-!
# The repair of overlapping diagonals

`fix` takes the diagonals longest first and keeps of each what does not conflict with those it has.
Any two it keeps are compatible: one ends, in both strings, before the other begins.
-/

namespace Turbokube

namespace Lcs

open EditGrid

/-- The first diagonal ends before the second begins. -/
def Before (d d' : Diag) : Prop := d.x + d.len ≤ d'.x ∧ d.y + d.len ≤ d'.y

def Compatible (d d' : Diag) : Prop := Before d d' ∨ Before d' d

/-- The second diagonal is a part of the first. -/
def Part (d d' : Diag) : Prop :=
  ∃ i, 0 ≤ i ∧ d'.x = d.x + i ∧ d'.y = d.y + i ∧ i + d'.len ≤ d.len

variable {cell : Int → Int → Prop} {exist prop d d' : Diag} {l t : List Diag}

theorem Part.refl (d : Diag) : Part d d := ⟨0, le_rfl, by omega, by omega, by omega⟩

theorem Part.trans {d'' : Diag} (h : Part d d') (h' : Part d' d'') : Part d d'' := by
  obtain ⟨i, hi, hx, hy, hlen⟩ := h
  obtain ⟨i', hi', hx', hy', hlen'⟩ := h'
  exact ⟨i + i', by omega, by omega, by omega, by omega⟩

theorem Compatible.part (h : Compatible exist d) (hpart : Part d d') : Compatible exist d' := by
  obtain ⟨i, hi, hx, hy, hlen⟩ := hpart
  unfold Compatible Before at h ⊢
  omega

theorem Matches.part (h : Matches cell d) (hpart : Part d d') (hpos : 0 < d'.len) :
    Matches cell d' := by
  obtain ⟨i, hi, hx, hy, hlen⟩ := hpart
  refine ⟨hpos, fun j hj hlt => ?_⟩
  rw [hx, hy, Int.add_assoc, Int.add_assoc]
  exact h.cells (i + j) (by omega) (by omega)

/-- What a step of the trimming may leave: a part with something on it, or nothing. -/
def Trims (prop : Diag) : Except Diag Diag → Prop
  | .ok d => Part prop d ∧ 0 < d.len
  | .error d => d.len ≤ 0

theorem trims_cutEnd {delta : Int} (hdelta : 0 ≤ delta) : Trims prop (cutEnd prop delta) := by
  rw [cutEnd]
  split
  · assumption
  · exact ⟨⟨0, le_rfl, by simp, by simp, by simp only; omega⟩, by simp only; omega⟩

theorem trims_cutStart {delta : Int} (hdelta : 0 ≤ delta) : Trims prop (cutStart prop delta) := by
  rw [cutStart]
  split
  · assumption
  · exact ⟨⟨delta, hdelta, rfl, rfl, by simp only; omega⟩, by simp only; omega⟩

theorem trims_self (hpos : 0 < prop.len) : Trims prop (.ok prop) := ⟨.refl prop, hpos⟩

theorem Trims.bind {r : Except Diag Diag} {f : Diag → Except Diag Diag} (h : Trims prop r)
    (hf : ∀ d, 0 < d.len → Trims d (f d)) : Trims prop (r >>= f) := by
  cases r with
  | error d => exact h
  | ok d =>
      have hnext := hf d h.2
      change Trims prop (f d)
      cases hr : f d with
      | error d' =>
          rw [hr] at hnext
          exact hnext
      | ok d' =>
          rw [hr] at hnext
          exact ⟨h.1.trans hnext.1, hnext.2⟩

theorem trims_trimEndX (hpos : 0 < prop.len) : Trims prop (trimEndX exist prop) := by
  rw [trimEndX]
  split
  · exact trims_cutEnd (by omega)
  · exact trims_self hpos

theorem trims_trimStartX (hpos : 0 < prop.len) : Trims prop (trimStartX exist prop) := by
  rw [trimStartX]
  split
  · exact trims_cutStart (by omega)
  · exact trims_self hpos

theorem trims_trimEndY (hpos : 0 < prop.len) : Trims prop (trimEndY exist prop) := by
  rw [trimEndY]
  split
  · exact trims_cutEnd (by omega)
  · exact trims_self hpos

theorem trims_trimStartY (hpos : 0 < prop.len) : Trims prop (trimStartY exist prop) := by
  rw [trimStartY]
  split
  · exact trims_cutStart (by omega)
  · exact trims_self hpos

theorem trims_trim (hpos : 0 < prop.len) : Trims prop (trim exist prop) := by
  rw [trim]
  refine (trims_trimEndX hpos).bind fun d hd => ?_
  refine (trims_trimStartX hd).bind fun d hd => ?_
  refine (trims_trimEndY hd).bind fun d hd => ?_
  exact trims_trimStartY hd

/-- The proposed diagonal is gone, bad, or trimmed to a part compatible with the existing one. -/
theorem overlap_cases (hpos : 0 < prop.len) :
    ((overlap exist prop).1 = .empty ∧ (overlap exist prop).2.len ≤ 0) ∨
      (overlap exist prop).1 = .bad ∨
      ((overlap exist prop).1 ≠ .empty ∧ (overlap exist prop).1 ≠ .bad) ∧
        0 < (overlap exist prop).2.len ∧ Part prop (overlap exist prop).2 ∧
        Compatible exist (overlap exist prop).2 := by
  have htrim := @trims_trim exist prop hpos
  rw [overlap]
  cases hr : trim exist prop with
  | error d =>
      rw [hr] at htrim
      exact .inl ⟨rfl, htrim⟩
  | ok d =>
      rw [hr] at htrim
      simp only
      split
      · next hbefore => exact .inr (.inr ⟨⟨nofun, nofun⟩, htrim.2, htrim.1, .inr hbefore⟩)
      · split
        · next hafter => exact .inr (.inr ⟨⟨nofun, nofun⟩, htrim.2, htrim.1, .inl hafter⟩)
        · exact .inr (.inl rfl)

/-- What the inner loop lets pass is a part compatible with every diagonal kept so far. -/
theorem fixOverlaps_spec {dir : Direction} {nxt : Diag} (hpos : 0 < nxt.len)
    (hlen : 0 < (fixOverlaps t dir nxt).2.len) (hbad : (fixOverlaps t dir nxt).1 ≠ .bad) :
    Part nxt (fixOverlaps t dir nxt).2 ∧ ∀ d ∈ t, Compatible d (fixOverlaps t dir nxt).2 := by
  induction t generalizing dir nxt with
  | nil => exact ⟨.refl nxt, by simp⟩
  | cons d t ih =>
      rw [fixOverlaps] at hlen hbad ⊢
      rcases @overlap_cases d nxt hpos with ⟨hempty, hle⟩ | hbad' | ⟨hdir, hpos', hpart, hcompat⟩
      · rw [if_pos (.inl hempty)] at hlen
        omega
      · rw [if_pos (.inr hbad')] at hbad
        exact absurd hbad' hbad
      · have hgoOn := not_or.mpr hdir
        rw [if_neg hgoOn] at hlen hbad ⊢
        obtain ⟨hpart', hrest⟩ := ih hpos' hlen hbad
        refine ⟨hpart.trans hpart', ?_⟩
        rw [List.forall_mem_cons]
        exact ⟨hcompat.part hpart', hrest⟩

theorem fixLoop_spec (hroom : t.length + l.length ≤ lcsCap) (hl : ∀ d ∈ l, Matches cell d)
    (htmp : ∀ d ∈ t, Matches cell d) (hpair : t.Pairwise Compatible) :
    ∃ r, (∀ p, fixLoop p l t = .ok r) ∧ (∀ d ∈ r, Matches cell d) ∧ r.Pairwise Compatible ∧
      r.length ≤ t.length + l.length := by
  induction l generalizing t with
  | nil => exact ⟨t, fun p => rfl, htmp, hpair, le_rfl⟩
  | cons d l ih =>
      rw [List.forall_mem_cons] at hl
      rw [List.length_cons] at hroom ⊢
      by_cases hkeep : 0 < (fixOverlaps t .empty d).2.len ∧ (fixOverlaps t .empty d).1 ≠ .bad
      · obtain ⟨hpart, hcompat⟩ := fixOverlaps_spec hl.1.pos hkeep.1 hkeep.2
        have hlen : (t ++ [(fixOverlaps t .empty d).2]).length = t.length + 1 := by simp
        obtain ⟨r, hr, hmatch, hpair', hle⟩ := ih (t := t ++ [(fixOverlaps t .empty d).2])
          (by omega) hl.2
          (by
            rw [List.forall_mem_append, List.forall_mem_singleton]
            exact ⟨htmp, hl.1.part hpart hkeep.1⟩)
          (by
            rw [List.pairwise_append]
            exact ⟨hpair, List.pairwise_singleton _ _, by simpa using hcompat⟩)
        refine ⟨r, fun p => ?_, hmatch, hpair', by omega⟩
        rw [fixLoop, if_pos hkeep, fits_eq (by omega)]
        exact hr p
      · obtain ⟨r, hr, hmatch, hpair', hle⟩ := ih (by omega) hl.2 htmp hpair
        refine ⟨r, fun p => ?_, hmatch, hpair', by omega⟩
        rw [fixLoop, if_neg hkeep]
        exact hr p

/-- Compatible diagonals in the order of their beginnings are an alignment. -/
theorem aligns_sort {U V : Int} (hin : Inside cell U V) (hU : 0 ≤ U) (hV : 0 ≤ V)
    (hmatch : ∀ d ∈ l, Matches cell d) (hpair : l.Pairwise Compatible) :
    Aligns cell 0 0 (sort l) U V := by
  have hperm := sort_perm l
  have hsym : ∀ {d d' : Diag}, Compatible d d' → Compatible d' d := Or.symm
  have hmatch' : ∀ d ∈ sort l, Matches cell d := fun d hd => hmatch d (hperm.subset hd)
  apply aligns_of_pairwise hU hV
  · exact fun d hd => ((hmatch' d hd).inside hin).1
  · exact fun d hd => ((hmatch' d hd).inside hin).2
  · exact hmatch'
  · have hboth := (hperm.symm.pairwise hpair hsym).and (sort_pairwise l)
    refine hboth.imp_of_mem fun {d d'} hd hd' h => ?_
    have hpos := (hmatch' d hd).pos
    have hpos' := (hmatch' d' hd').pos
    obtain ⟨hcompat, hle⟩ := h
    unfold Compatible Before at hcompat
    omega

theorem fix_spec {U V : Int} (hin : Inside cell U V) (hU : 0 ≤ U) (hV : 0 ≤ V)
    (hroom : l.length ≤ lcsCap) (hl : ∀ d ∈ l, Matches cell d) :
    ∃ r, (∀ p, fix p l = .ok r) ∧ Aligns cell 0 0 r U V ∧ r.length ≤ l.length := by
  have hperm := List.perm_insertionSort (fun d d' : Diag => d'.len ≤ d.len) l
  cases hsort : l.insertionSort fun d d' => d'.len ≤ d.len with
  | nil =>
      refine ⟨[], fun p => ?_, ⟨hU, hV⟩, Nat.zero_le _⟩
      simp only [fix, hsort]
  | cons d m =>
      rw [hsort] at hperm
      have hmem : ∀ d' ∈ d :: m, Matches cell d' := fun d' hd' => hl d' (hperm.subset hd')
      rw [List.forall_mem_cons] at hmem
      have hlen := hperm.length_eq
      rw [List.length_cons] at hlen
      obtain ⟨r, hr, hmatch, hpair, hle⟩ := fixLoop_spec (t := [d]) (l := m)
        (by simp only [List.length_singleton]; omega) hmem.2 (by simpa using hmem.1)
        (List.pairwise_singleton _ _)
      refine ⟨sort r, fun p => ?_, aligns_sort hin hU hV hmatch hpair, ?_⟩
      · simp only [fix, hsort, hr p]
        rfl
      · rw [(sort_perm r).length_eq]
        simp only [List.length_singleton] at hle
        omega

end Lcs

end Turbokube
