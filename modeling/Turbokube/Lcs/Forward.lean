import Turbokube.Lcs.Paths

/-!
# The forward search

`twolcs` runs `forward` in a smaller rectangle when it needs a path to its corner.  If some row up
to the limit has the corner as a label, then the first such row is where the search ends.
-/

namespace Turbokube

namespace Lcs

open EditGrid

variable {α : Type} [DecidableEq α] {a b : List α} {p : Port} {L D : Nat} {u v k : Int}
  {vf vb : Label} {K : Nat → Int → Prop} {D₀ : Nat} {l : List Diag}

/-- `D₀` is the first row with a label at the corner `(u, v)`. -/
structure FirstAtCorner (F : Nat → Int → Int) (u v : Int) (D₀ : Nat) : Prop where
  valid : Valid D₀ (u - v)
  label : F D₀ (u - v) = u
  first : ∀ D < D₀, Valid D (u - v) → F D (u - v) ≠ u

theorem exists_firstAtCorner {F : Nat → Int → Int} {n : Nat}
    (h : ∃ D ≤ n, Valid D (u - v) ∧ F D (u - v) = u) : ∃ D₀ ≤ n, FirstAtCorner F u v D₀ := by
  classical
  obtain ⟨D, hle, hD⟩ := h
  have hex : ∃ D, Valid D (u - v) ∧ F D (u - v) = u := ⟨D, hD⟩
  refine ⟨Nat.find hex, (Nat.find_min' hex hD).trans hle, (Nat.find_spec hex).1,
    (Nat.find_spec hex).2, fun D' hlt hk heq => Nat.find_min hex hlt ⟨hk, heq⟩⟩

/-- What backtracking from the corner gives, whatever else is in the tables. -/
def FromCorner (a b : List α) (u v : Int) (D₀ : Nat) (l : List Diag) : Prop :=
  ∀ {p L vf vb}, vf.get D₀ (u - v) = .ok (fwd a b u v D₀ (u - v)) →
    Filled p (fwd a b u v) vf (Below D₀) →
    (graph a b L u v vf vb).forwardlcs p D₀ (u - v) = .ok l

/-- The answer of `fdone` on diagonal `k` of row `D`. -/
def doneAt (u v : Int) (D₀ : Nat) (l : List Diag) (D : Nat) (k : Int) : Option (List Diag) :=
  if D = D₀ ∧ k = u - v then some l else none

theorem fdone_eq (L : Nat) (vb : Label) (hcorner : FirstAtCorner (fwd a b u v) u v D₀)
    (hl : FromCorner a b u v D₀ l) (hk : Valid D k) (hD : D ≤ D₀) (h : Filled p (fwd a b u v) vf K)
    (hbelow : ∀ D' k', D' < D → K D' k') (hthis : K D k) :
    (graph a b L u v vf vb).fdone p D k = .ok (doneAt u v D₀ l D k) := by
  rw [EditGraph.fdone, graph_vf, h.get D k hk hthis, ok_bind, graph_ux, graph_uy, doneAt]
  by_cases hat : fwd a b u v D k = u ∧ fwd a b u v D k - k = v
  · obtain rfl : k = u - v := by omega
    obtain rfl : D = D₀ := by
      by_contra hne
      exact hcorner.first D (by omega) hk hat.1
    rw [if_pos hat, hl (h.get D _ hk hthis) (h.mono fun D' k' _ hlt => hbelow D' k' hlt), ok_bind,
      if_pos ⟨rfl, rfl⟩]
  · rw [if_neg hat, if_neg]
    rintro ⟨rfl, rfl⟩
    have := hcorner.label
    omega

theorem forwardInner_spec (L : Nat) (vb : Label) (hu : u ≤ a.length) (hv : v ≤ b.length)
    (hcorner : FirstAtCorner (fwd a b u v) u v D₀) (hl : FromCorner a b u v D₀ l)
    (hD : D + 1 ≤ D₀) (hD₀ : D₀ < maxDiffs) (ks : List Int)
    (hks : ∀ k ∈ ks, k ∈ steps (-D + 1) (D - 1)) (h : Filled p (fwd a b u v) vf K)
    (hrows : ∀ D' k', D' < D + 1 → K D' k') :
    ∃ vf', EditGraph.forwardInner p D ks (graph a b L u v vf vb) =
        .ok (graph a b L u v vf' vb, ks.findSome? (doneAt u v D₀ l (D + 1))) ∧
      vf'.Shaped p ∧
      (ks.findSome? (doneAt u v D₀ l (D + 1)) = none →
        Filled p (fwd a b u v) vf' fun D' k' => K D' k' ∨ D' = D + 1 ∧ k' ∈ ks) := by
  induction ks generalizing vf K with
  | nil => exact ⟨vf, rfl, h.shaped, fun _ => h.mono fun D' k' _ hor => by simpa using hor⟩
  | cons k ks ih =>
      rw [List.forall_mem_cons] at hks
      obtain ⟨hk, hfirst, hlast⟩ := inner_of_mem_steps hks.1
      obtain ⟨vf₁, hlabel, h₁⟩ := labelForward_spec L vb hu hv h
        (fun k => hrows D k (Nat.lt_succ_self D)) (by omega) hk hfirst hlast
      have hdone := fdone_eq L vb hcorner hl hk hD h₁
        (fun D' k' hlt => .inl (hrows D' k' hlt)) (.inr ⟨rfl, rfl⟩)
      cases hat : doneAt u v D₀ l (D + 1) k with
      | some ans =>
          refine ⟨vf₁, ?_, h₁.shaped, ?_⟩
          · rw [EditGraph.forwardInner, hlabel, ok_bind]
            rw [Int.natCast_succ] at hdone
            rw [hdone, ok_bind, hat, List.findSome?_cons_of_isSome (by rw [hat]; rfl), hat]
          · rw [List.findSome?_cons_of_isSome (by rw [hat]; rfl), hat]
            nofun
      | none =>
          obtain ⟨vf₂, hinner, hshaped, h₂⟩ := ih hks.2 h₁
            (fun D' k' hlt => .inl (hrows D' k' hlt))
          rw [List.findSome?_cons_of_isNone (by rw [hat]; rfl)]
          refine ⟨vf₂, ?_, hshaped, fun hnone => (h₂ hnone).mono fun D' k' _ hor => ?_⟩
          · rw [EditGraph.forwardInner, hlabel, ok_bind]
            rw [Int.natCast_succ] at hdone
            rw [hdone, ok_bind, hat]
            exact hinner
          · rw [List.mem_cons, and_or_left, ← or_assoc] at hor
            exact hor

/-- A row ends the search if it is the one with the corner, and is filled if it is before it. -/
theorem forwardRow_spec (L : Nat) (vb : Label) (hu : u ≤ a.length) (hv : v ≤ b.length)
    (hcorner : FirstAtCorner (fwd a b u v) u v D₀) (hl : FromCorner a b u v D₀ l)
    (hD : D + 1 ≤ D₀) (hD₀ : D₀ < maxDiffs) (h : Filled p (fwd a b u v) vf (Rows D)) :
    ∃ vf', (graph a b L u v vf vb).forwardRow p D =
        .ok (graph a b L u v vf' vb, if D + 1 = D₀ then some l else none) ∧
      vf'.Shaped p ∧ (D + 1 < D₀ → Filled p (fwd a b u v) vf' (Rows (D + 1))) := by
  have hcast : ((D + 1 : Nat) : Int) = (D : Int) + 1 := rfl
  have hrows : ∀ D' (k' : Int), D' < D + 1 → Rows D D' k' := fun D' k' hlt => Nat.le_of_lt_succ hlt
  obtain ⟨vf₁, hset₁, h₁⟩ := setForward_first (D := D) L vb hu hv h (by omega)
  have hdone₁ := fdone_eq L vb hcorner hl (valid_first (D + 1)) hD h₁
    (fun D' k' hlt => .inl (hrows D' k' hlt)) (.inr ⟨rfl, rfl⟩)
  obtain ⟨vf₂, hset₂, h₂⟩ := setForward_last (D := D) L vb hu hv h₁ (by omega)
  have hdone₂ := fdone_eq L vb hcorner hl (valid_last (D + 1)) hD h₂
    (fun D' k' hlt => .inl (.inl (hrows D' k' hlt))) (.inr ⟨rfl, rfl⟩)
  obtain ⟨vf₃, hinner, hshaped, h₃⟩ := forwardInner_spec L vb hu hv hcorner hl hD
    hD₀ (steps (-D + 1) (D - 1)) (fun k hk => hk) h₂
    (fun D' k' hlt => .inl (.inl (hrows D' k' hlt)))
  rw [hcast] at hdone₁ hdone₂
  rw [EditGraph.forwardRow, graph_vf, h.get D _ (valid_first D) le_rfl, ok_bind, hset₁, ok_bind,
    hdone₁, ok_bind]
  by_cases hat₁ : D + 1 = D₀ ∧ -((D : Int) + 1) = u - v
  · refine ⟨vf₁, ?_, h₁.shaped, fun hlt => absurd hat₁.1 (by omega)⟩
    rw [doneAt, if_pos hat₁, if_pos hat₁.1]
  rw [doneAt, if_neg hat₁, graph_vf, h₁.get D _ (valid_last D) (.inl le_rfl)]
  simp only [ok_bind]
  rw [hset₂, ok_bind, hdone₂, ok_bind]
  by_cases hat₂ : D + 1 = D₀ ∧ (D : Int) + 1 = u - v
  · refine ⟨vf₂, ?_, h₂.shaped, fun hlt => absurd hat₂.1 (by omega)⟩
    rw [doneAt, if_pos hat₂, if_pos hat₂.1]
  rw [doneAt, if_neg hat₂]
  simp only
  rw [hinner]
  by_cases hrow : D + 1 = D₀
  · -- the corner is on one of the diagonals between
    have hmem : u - v ∈ steps (-D + 1) (D - 1) := by
      have hk : Valid (D + 1) (u - v) := by
        rw [hrow]
        exact hcorner.valid
      rcases valid_succ_iff.mp hk with hfirst | hlast | hmem
      · exact absurd ⟨hrow, hfirst.symm⟩ hat₁
      · exact absurd ⟨hrow, hlast.symm⟩ hat₂
      · exact hmem
    have hfind : (steps (-D + 1) (D - 1)).findSome? (doneAt u v D₀ l (D + 1)) = some l := by
      cases hf : (steps (-D + 1) (D - 1)).findSome? (doneAt u v D₀ l (D + 1)) with
      | none =>
          have hnone := List.findSome?_eq_none_iff.mp hf _ hmem
          rw [doneAt, if_pos ⟨hrow, rfl⟩] at hnone
          cases hnone
      | some l' =>
          obtain ⟨k, -, hk⟩ := List.exists_of_findSome?_eq_some hf
          rw [doneAt] at hk
          split at hk
          · exact hk.symm
          · cases hk
    refine ⟨vf₃, ?_, hshaped, fun hlt => absurd hrow (by omega)⟩
    rw [hfind, if_pos hrow]
  · have hfind : (steps (-D + 1) (D - 1)).findSome? (doneAt u v D₀ l (D + 1)) = none := by
      rw [List.findSome?_eq_none_iff]
      intro k _
      exact if_neg fun hc => hrow hc.1
    refine ⟨vf₃, ?_, hshaped, fun _ => (h₃ hfind).rows_succ⟩
    rw [hfind, if_neg hrow]

theorem forwardLoop_spec (vb : Label) (hu : u ≤ a.length) (hv : v ≤ b.length)
    (hcorner : FirstAtCorner (fwd a b u v) u v D₀) (hl : FromCorner a b u v D₀ l)
    (hD₀ : D₀ < maxDiffs) (n : Nat) (hD : D < D₀) (hn : D₀ ≤ D + n)
    (h : Filled p (fwd a b u v) vf (Rows D)) :
    ∃ vf', EditGraph.forwardLoop p n D (graph a b L u v vf vb) =
      .ok (graph a b L u v vf' vb, l) ∧ vf'.Shaped p := by
  induction n generalizing D vf with
  | zero => omega
  | succ n ih =>
      obtain ⟨vf₁, hrow, hshaped, h₁⟩ := forwardRow_spec L vb hu hv hcorner hl hD hD₀ h
      rw [EditGraph.forwardLoop, hrow, ok_bind]
      by_cases hend : D + 1 = D₀
      · rw [if_pos hend]
        exact ⟨vf₁, rfl, hshaped⟩
      · rw [if_neg hend]
        exact ih (D := D + 1) (by omega) (by omega) (h₁ (by omega))

/-- The search finds an alignment of the whole rectangle. -/
theorem forward_spec (hu : u ≤ a.length) (hv : v ≤ b.length) (hL : L < maxDiffs)
    (hex : ∃ D ≤ L, Valid D (u - v) ∧ fwd a b u v D (u - v) = u) :
    ∃ l, Aligns (Cell a b u v) 0 0 l u v ∧ l.length ≤ L + 1 ∧
      ∀ {p vf vb}, vf.Shaped p →
        ∃ vf', EditGraph.forward p (graph a b L u v vf vb) = .ok (graph a b L u v vf' vb, l) ∧
          vf'.Shaped p := by
  obtain ⟨D₀, hle, hcorner⟩ := exists_firstAtCorner hex
  have hcap : D₀ + 1 < lcsCap := by
    unfold maxDiffs at hL
    unfold lcsCap
    omega
  obtain ⟨l, halign, hlen, hl⟩ := forwardlcs_spec hu hv hcorner.valid hcap
  rw [hcorner.label, show u - (u - v) = v by omega] at halign
  refine ⟨l, halign, by omega, fun {p vf vb} hshaped => ?_⟩
  have hvalid : Valid 0 0 := valid_zero.mpr rfl
  have h₀ : Filled p (fwd a b u v) vf fun _ _ => False := ⟨hshaped, fun _ _ _ => False.elim⟩
  obtain ⟨vf₁, hset, h₁⟩ := setForward_spec L vb hu hv h₀ hvalid (by decide)
    (le_refl 0) (by omega) rfl
  have hdone := fdone_eq L vb hcorner hl hvalid (Nat.zero_le _) h₁
    (fun D' k' hlt => absurd hlt (Nat.not_lt_zero _)) (.inr ⟨rfl, rfl⟩)
  rw [Int.natCast_zero] at hset hdone
  rw [EditGraph.forward, graph_lx, hset, ok_bind, hdone, ok_bind, doneAt]
  by_cases hzero : 0 = D₀
  · have hk := hcorner.valid
    rw [← hzero, valid_zero] at hk
    rw [if_pos ⟨hzero, hk.symm⟩]
    exact ⟨vf₁, rfl, h₁.shaped⟩
  · rw [if_neg fun hc => hzero hc.1, graph_limit, Int.toNat_natCast]
    refine forwardLoop_spec (D := 0) vb hu hv hcorner hl (by omega) L (by omega) (by omega) ?_
    refine h₁.mono fun D k hk hle => .inr ?_
    obtain rfl : D = 0 := Nat.le_zero.mp hle
    exact ⟨rfl, valid_zero.mp hk⟩

end Lcs

end Turbokube
