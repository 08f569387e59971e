import Turbokube.Lcs.Labels

/-!
# The forward and the backward pass

A pass fills one more row of a table.  The backward pass is the forward one on the reversed strings,
with the diagonals and the positions counted from the other end.
-/

namespace Turbokube

namespace Lcs

open EditGrid

variable {α : Type} [DecidableEq α] {a b : List α} {p : Port} {L D : Nat} {u v k x : Int}
  {vf vb : Label} {K : Nat → Int → Prop}

omit [DecidableEq α] in
theorem slice_eq {s : List α} {i j : Int} (hi : 0 ≤ i) (hij : i ≤ j) (hj : j ≤ s.length) :
    slice s i j = .ok ((s.take j.toNat).drop i.toNat) := if_pos ⟨hi, hij, hj⟩

/-- The edit graph of a search in the rectangle up to `(u, v)`. -/
def graph (a b : List α) (L : Nat) (u v : Int) (vf vb : Label) : EditGraph α :=
  { a := a, b := b, vf := vf, vb := vb, limit := L, lx := 0, ly := 0, ux := u, uy := v,
    delta := a.length - b.length }

omit [DecidableEq α] in
@[simp] theorem graph_vf : (graph a b L u v vf vb).vf = vf := rfl

omit [DecidableEq α] in
@[simp] theorem graph_vb : (graph a b L u v vf vb).vb = vb := rfl

omit [DecidableEq α] in
@[simp] theorem graph_lx : (graph a b L u v vf vb).lx = 0 := rfl

omit [DecidableEq α] in
@[simp] theorem graph_ly : (graph a b L u v vf vb).ly = 0 := rfl

omit [DecidableEq α] in
@[simp] theorem graph_ux : (graph a b L u v vf vb).ux = u := rfl

omit [DecidableEq α] in
@[simp] theorem graph_uy : (graph a b L u v vf vb).uy = v := rfl

omit [DecidableEq α] in
@[simp] theorem graph_delta :
    (graph a b L u v vf vb).delta = (a.length : Int) - b.length := rfl

omit [DecidableEq α] in
@[simp] theorem graph_limit : (graph a b L u v vf vb).limit = L := rfl

/-- The forward labels of the rectangle up to `(u, v)`. -/
def fwd (a b : List α) (u v : Int) : Nat → Int → Int := furthest (slide a b u v)

/-- The forward labels of the reversed strings. -/
def rev (a b : List α) : Nat → Int → Int := fwd a.reverse b.reverse a.length b.length

/-- The backward labels. -/
def bwd (a b : List α) (D : Nat) (k : Int) : Int := a.length - rev a b D (-k)

theorem furthest_fwd (hu : u ≤ a.length) (hv : v ≤ b.length) :
    Furthest (Cell a b u v) (fwd a b u v) :=
  furthest_furthest (slides_slide hu hv)

theorem furthest_rev (a b : List α) :
    Furthest (Cell a.reverse b.reverse a.length b.length) (rev a b) :=
  furthest_fwd (by simp) (by simp)

section Forward

theorem lookForward_eq (hu : u ≤ a.length) (hv : v ≤ b.length) (hx : 0 ≤ x) (hy : 0 ≤ x - k) :
    (graph a b L u v vf vb).lookForward k x = .ok (slide a b u v k x) := by
  simp only [EditGraph.lookForward, graph, Int.add_zero]
  by_cases hrect : x < u ∧ x - k < v
  · rw [if_pos hrect, EditGraph.commonPrefixLen, slice_eq hx hrect.1.le hu, ok_bind,
      slice_eq hy hrect.2.le hv, ok_bind, ok_bind, slide, if_pos (by omega)]
  · rw [if_neg hrect, slide, if_neg (by omega)]

theorem setForward_spec (L : Nat) (vb : Label) (hu : u ≤ a.length) (hv : v ≤ b.length)
    (h : Filled p (fwd a b u v) vf K) (hk : Valid D k) (hD : D < maxDiffs) (hx : 0 ≤ x)
    (hy : 0 ≤ x - k) (heq : slide a b u v k x = fwd a b u v D k) :
    ∃ vf', (graph a b L u v vf vb).setForward p D k x = .ok (graph a b L u v vf' vb) ∧
      Filled p (fwd a b u v) vf' fun D' k' => K D' k' ∨ D' = D ∧ k' = k := by
  obtain ⟨vf', hset, hfilled⟩ := h.set hk hD heq
  refine ⟨vf', ?_, hfilled⟩
  rw [EditGraph.setForward, lookForward_eq hu hv hx hy, ok_bind]
  simp only [graph, Int.sub_zero, hset]
  rfl

/-- The first diagonal of a row. -/
theorem setForward_first (L : Nat) (vb : Label) (hu : u ≤ a.length) (hv : v ≤ b.length)
    (h : Filled p (fwd a b u v) vf K) (hD : D + 1 < maxDiffs) :
    ∃ vf', (graph a b L u v vf vb).setForward p (D + 1) (-(D + 1)) (fwd a b u v D (-D)) =
        .ok (graph a b L u v vf' vb) ∧
      Filled p (fwd a b u v) vf' fun D' k' => K D' k' ∨ D' = D + 1 ∧ k' = -(D + 1) := by
  have hnonneg := (furthest_fwd hu hv).nonneg D (-D) (valid_first D)
  refine setForward_spec L vb hu hv h (valid_first (D + 1)) hD (by omega) (by omega) ?_
  rw [← start_first (fwd a b u v D)]
  rfl

/-- The last diagonal of a row. -/
theorem setForward_last (L : Nat) (vb : Label) (hu : u ≤ a.length) (hv : v ≤ b.length)
    (h : Filled p (fwd a b u v) vf K) (hD : D + 1 < maxDiffs) :
    ∃ vf', (graph a b L u v vf vb).setForward p (D + 1) (D + 1) (fwd a b u v D D + 1) =
        .ok (graph a b L u v vf' vb) ∧
      Filled p (fwd a b u v) vf' fun D' k' => K D' k' ∨ D' = D + 1 ∧ k' = D + 1 := by
  have hnonneg := (furthest_fwd hu hv).nonneg D D (valid_last D)
  refine setForward_spec L vb hu hv h (valid_last (D + 1)) hD (by omega) (by omega) ?_
  rw [← start_last (fwd a b u v D)]
  rfl

/-- A diagonal between them. -/
theorem labelForward_spec (L : Nat) (vb : Label) (hu : u ≤ a.length) (hv : v ≤ b.length)
    (h : Filled p (fwd a b u v) vf K) (hrow : ∀ k, K D k) (hD : D + 1 < maxDiffs)
    (hk : Valid (D + 1) k) (hfirst : k ≠ -((D : Int) + 1)) (hlast : k ≠ (D : Int) + 1) :
    ∃ vf', (graph a b L u v vf vb).labelForward p D k = .ok (graph a b L u v vf' vb) ∧
      Filled p (fwd a b u v) vf' fun D' k' => K D' k' ∨ D' = D + 1 ∧ k' = k := by
  have hleft := hk.left hfirst
  have hright := hk.right hlast
  have hnonneg := (furthest_fwd hu hv).nonneg D _ hleft
  have hnonneg' := (furthest_fwd hu hv).nonneg D _ hright
  have hle := (slides_slide hu hv k (fwd a b u v D (k - 1) + 1)).le
  have hle' := (slides_slide hu hv k (fwd a b u v D (k + 1))).le
  have hmax : (if slide a b u v k (fwd a b u v D (k - 1) + 1) >
        slide a b u v k (fwd a b u v D (k + 1))
      then slide a b u v k (fwd a b u v D (k - 1) + 1)
      else slide a b u v k (fwd a b u v D (k + 1))) =
      max (slide a b u v k (fwd a b u v D (k - 1) + 1))
        (slide a b u v k (fwd a b u v D (k + 1))) := by
    split <;> omega
  have hentry : slide a b u v k (max (slide a b u v k (fwd a b u v D (k - 1) + 1))
      (slide a b u v k (fwd a b u v D (k + 1)))) = fwd a b u v (D + 1) k := by
    rw [slide_max hu hv, fwd, furthest, start_inner _ hfirst hlast]
  obtain ⟨vf', hset, hfilled⟩ := setForward_spec L vb hu hv h hk hD (by omega) (by omega) hentry
  refine ⟨vf', ?_, hfilled⟩
  rw [EditGraph.labelForward, graph_vf, h.get D _ hleft (hrow _), ok_bind,
    lookForward_eq hu hv (by omega) (by omega), ok_bind, h.get D _ hright (hrow _), ok_bind,
    lookForward_eq hu hv (by omega) (by omega), ok_bind, hmax]
  exact hset

theorem mem_steps {lo hi : Int} : k ∈ steps lo hi ↔ lo ≤ k ∧ k ≤ hi ∧ (k - lo) % 2 = 0 := by
  rw [steps, List.mem_map]
  constructor
  · rintro ⟨i, hi, rfl⟩
    rw [List.mem_range] at hi
    omega
  · intro h
    exact ⟨((k - lo) / 2).toNat, List.mem_range.mpr (by omega), by omega⟩

/-- The diagonals of a row are the first, the last and those of the loop. -/
theorem valid_succ_iff :
    Valid (D + 1) k ↔ k = -(D + 1) ∨ k = D + 1 ∨ k ∈ steps (-D + 1) (D - 1) := by
  rw [mem_steps]
  unfold Valid
  omega

theorem inner_of_mem_steps (h : k ∈ steps (-D + 1) (D - 1)) :
    Valid (D + 1) k ∧ k ≠ -((D : Int) + 1) ∧ k ≠ (D : Int) + 1 := by
  refine ⟨valid_succ_iff.mpr (.inr (.inr h)), ?_⟩
  rw [mem_steps] at h
  omega

omit [DecidableEq α] in
/-- A loop that sets a label of row `D + 1` for each diagonal of a list.  A label needs row `D`
only. -/
theorem Filled.foldlM {F : Nat → Int → Int} {t : Label} {g : Label → EditGraph α}
    {f : EditGraph α → Int → Except Fault (EditGraph α)} (ks : List Int)
    (hstep : ∀ k ∈ ks, ∀ {t K}, Filled p F t K → (∀ k, K D k) →
      ∃ t', f (g t) k = .ok (g t') ∧ Filled p F t' fun D' k' => K D' k' ∨ D' = D + 1 ∧ k' = k)
    (h : Filled p F t K) (hrow : ∀ k, K D k) :
    ∃ t', ks.foldlM f (g t) = .ok (g t') ∧
      Filled p F t' fun D' k' => K D' k' ∨ D' = D + 1 ∧ k' ∈ ks := by
  induction ks generalizing t K with
  | nil => exact ⟨t, rfl, h.mono fun D' k' _ hor => by simpa using hor⟩
  | cons k ks ih =>
      rw [List.forall_mem_cons] at hstep
      obtain ⟨t₁, hlabel, h₁⟩ := hstep.1 h hrow
      obtain ⟨t₂, hfold, h₂⟩ := ih hstep.2 h₁ fun k => .inl (hrow k)
      refine ⟨t₂, ?_, h₂.mono fun D' k' _ hor => ?_⟩
      · rw [List.foldlM_cons, hlabel, ok_bind, hfold]
      · rw [List.mem_cons, and_or_left, ← or_assoc] at hor
        exact hor

/-- The rows up to `D`. -/
def Rows (D D' : Nat) (_ : Int) : Prop := D' ≤ D

/-- The cells a pass sets are the next row. -/
theorem Filled.rows_succ {F : Nat → Int → Int} {t : Label}
    (h : Filled p F t fun D' k' => ((Rows D D' k' ∨ D' = D + 1 ∧ k' = -(D + 1)) ∨
      D' = D + 1 ∧ k' = D + 1) ∨ D' = D + 1 ∧ k' ∈ steps (-D + 1) (D - 1)) :
    Filled p F t (Rows (D + 1)) := by
  refine h.mono fun D' k' hk' hle => ?_
  by_cases hrow : D' = D + 1
  · subst hrow
    rcases valid_succ_iff.mp hk' with hfirst | hlast | hmem
    · exact .inl (.inl (.inr ⟨rfl, hfirst⟩))
    · exact .inl (.inr ⟨rfl, hlast⟩)
    · exact .inr ⟨rfl, hmem⟩
  · have hle' : D' ≤ D := by
      unfold Rows at hle
      omega
    exact .inl (.inl (.inl hle'))

theorem forwardPass_spec (L : Nat) (vb : Label) (hu : u ≤ a.length) (hv : v ≤ b.length)
    (h : Filled p (fwd a b u v) vf (Rows D)) (hD : D + 1 < maxDiffs) :
    ∃ vf', (graph a b L u v vf vb).forwardPass p D = .ok (graph a b L u v vf' vb) ∧
      Filled p (fwd a b u v) vf' (Rows (D + 1)) := by
  obtain ⟨vf₁, hset₁, h₁⟩ := setForward_first L vb hu hv h hD
  obtain ⟨vf₂, hset₂, h₂⟩ := setForward_last L vb hu hv h₁ hD
  obtain ⟨vf₃, hfold, h₃⟩ := h₂.foldlM (g := fun t => graph a b L u v t vb)
    (f := fun e k => e.labelForward p D k) (steps (-D + 1) (D - 1))
    (fun k hk _ _ h hrow => by
      obtain ⟨hvalid, hfirst, hlast⟩ := inner_of_mem_steps hk
      exact labelForward_spec L vb hu hv h hrow hD hvalid hfirst hlast)
    fun k => .inl (.inl le_rfl)
  refine ⟨vf₃, ?_, h₃.rows_succ⟩
  rw [EditGraph.forwardPass, graph_vf, h.get D _ (valid_first D) le_rfl, ok_bind, hset₁, ok_bind,
    graph_vf, h₁.get D _ (valid_last D) (.inl le_rfl), ok_bind, hset₂, ok_bind, hfold]

end Forward

section Backward

theorem rev_nonneg (hk : Valid D k) : 0 ≤ rev a b D k ∧ 0 ≤ rev a b D k - k :=
  (furthest_rev a b).nonneg D k hk

/-- Going down from a point is going up from it in the reversed strings. -/
theorem lookBackward_eq (hx : 0 ≤ x) (hy : 0 ≤ x + k) :
    (graph a b L u v vf vb).lookBackward k (a.length - x) =
      .ok (a.length - slide a.reverse b.reverse a.length b.length (-k) x) := by
  simp only [EditGraph.lookBackward, graph, Int.add_zero]
  have hy' : (a.length : Int) - x - (k + (a.length - b.length)) = b.length - (x + k) := by omega
  rw [hy', slide]
  by_cases hrect : (a.length : Int) - x > 0 ∧ (b.length : Int) - (x + k) > 0
  · have htake : (a.take ((a.length : Int) - x).toNat).reverse = a.reverse.drop x.toNat := by
      rw [List.reverse_take]
      congr 1
      omega
    have htake' : (b.take ((b.length : Int) - (x + k)).toNat).reverse =
        b.reverse.drop (x - -k).toNat := by
      rw [List.reverse_take]
      congr 1
      omega
    have hall : a.reverse.take (a.length : Int).toNat = a.reverse := by
      rw [Int.toNat_natCast, List.take_of_length_le (by simp)]
    have hall' : b.reverse.take (b.length : Int).toNat = b.reverse := by
      rw [Int.toNat_natCast, List.take_of_length_le (by simp)]
    rw [if_pos hrect, if_pos (by omega), EditGraph.commonSuffixLen,
      slice_eq le_rfl hrect.1.le (show (a.length : Int) - x ≤ a.length by omega), ok_bind,
      slice_eq le_rfl hrect.2.le (show (b.length : Int) - (x + k) ≤ b.length by omega), ok_bind,
      ok_bind, commonSuffixLen, Int.toNat_zero, List.drop_zero, List.drop_zero, htake, htake',
      hall, hall']
    congr 1
    omega
  · rw [if_neg hrect, if_neg (by omega)]

theorem setBackward_spec (L : Nat) (vf : Label) (h : Filled p (bwd a b) vb K) (hk : Valid D k)
    (hD : D < maxDiffs) (hx : 0 ≤ x) (hy : 0 ≤ x + k)
    (heq : slide a.reverse b.reverse a.length b.length (-k) x = rev a b D (-k)) :
    ∃ vb', (graph a b L u v vf vb).setBackward p D k (a.length - x) =
        .ok (graph a b L u v vf vb') ∧
      Filled p (bwd a b) vb' fun D' k' => K D' k' ∨ D' = D ∧ k' = k := by
  obtain ⟨vb', hset, hfilled⟩ := h.set hk hD (x := bwd a b D k) rfl
  refine ⟨vb', ?_, hfilled⟩
  rw [EditGraph.setBackward, lookBackward_eq hx hy, ok_bind, heq]
  simp only [graph, Int.sub_zero]
  rw [bwd] at hset
  rw [hset]
  rfl

/-- The first diagonal of a row is the last one of the reversed strings. -/
theorem setBackward_first (L : Nat) (vf : Label) (h : Filled p (bwd a b) vb K)
    (hD : D + 1 < maxDiffs) :
    ∃ vb', (graph a b L u v vf vb).setBackward p (D + 1) (-(D + 1)) (bwd a b D (-D) - 1) =
        .ok (graph a b L u v vf vb') ∧
      Filled p (bwd a b) vb' fun D' k' => K D' k' ∨ D' = D + 1 ∧ k' = -(D + 1) := by
  have hnonneg := rev_nonneg (a := a) (b := b) (valid_last D)
  have hpoint : bwd a b D (-D) - 1 = a.length - (rev a b D D + 1) := by
    rw [bwd, Int.neg_neg]
    omega
  rw [hpoint]
  refine setBackward_spec L vf h (valid_first (D + 1)) hD (by omega) (by omega) ?_
  rw [← start_last (rev a b D), Int.neg_neg]
  rfl

theorem setBackward_last (L : Nat) (vf : Label) (h : Filled p (bwd a b) vb K)
    (hD : D + 1 < maxDiffs) :
    ∃ vb', (graph a b L u v vf vb).setBackward p (D + 1) (D + 1) (bwd a b D D) =
        .ok (graph a b L u v vf vb') ∧
      Filled p (bwd a b) vb' fun D' k' => K D' k' ∨ D' = D + 1 ∧ k' = D + 1 := by
  have hnonneg := rev_nonneg (a := a) (b := b) (valid_first D)
  rw [bwd]
  refine setBackward_spec L vf h (valid_last (D + 1)) hD (by omega) (by omega) ?_
  rw [← start_first (rev a b D)]
  rfl

theorem labelBackward_spec (L : Nat) (vf : Label) (h : Filled p (bwd a b) vb K)
    (hrow : ∀ k, K D k) (hD : D + 1 < maxDiffs) (hk : Valid (D + 1) k)
    (hfirst : k ≠ -((D : Int) + 1)) (hlast : k ≠ (D : Int) + 1) :
    ∃ vb', (graph a b L u v vf vb).labelBackward p D k = .ok (graph a b L u v vf vb') ∧
      Filled p (bwd a b) vb' fun D' k' => K D' k' ∨ D' = D + 1 ∧ k' = k := by
  have hleft := hk.left hfirst
  have hright := hk.right hlast
  -- the points of the two neighbours, seen from the other end
  have hpoint : bwd a b D (k - 1) = a.length - rev a b D (-k + 1) := by
    rw [bwd]
    congr 2
    omega
  have hpoint' : bwd a b D (k + 1) - 1 = a.length - (rev a b D (-k - 1) + 1) := by
    rw [bwd, show -(k + 1) = -k - 1 by omega]
    omega
  have hnonneg := rev_nonneg (a := a) (b := b) (valid_neg hleft)
  have hnonneg' := rev_nonneg (a := a) (b := b) (valid_neg hright)
  rw [show -(k - 1) = -k + 1 by omega] at hnonneg
  rw [show -(k + 1) = -k - 1 by omega] at hnonneg'
  have hlen : (a.length : Int) ≤ a.reverse.length := by rw [List.length_reverse]
  have hlen' : (b.length : Int) ≤ b.reverse.length := by rw [List.length_reverse]
  have hle := (slides_slide hlen hlen' (-k) (rev a b D (-k + 1))).le
  have hle' := (slides_slide hlen hlen' (-k) (rev a b D (-k - 1) + 1)).le
  have hentry : slide a.reverse b.reverse a.length b.length (-k)
      (max (slide a.reverse b.reverse a.length b.length (-k) (rev a b D (-k - 1) + 1))
        (slide a.reverse b.reverse a.length b.length (-k) (rev a b D (-k + 1)))) =
      rev a b (D + 1) (-k) := by
    rw [slide_max hlen hlen', rev, fwd, furthest, start_inner _ (by omega) (by omega)]
  obtain ⟨vb', hset, hfilled⟩ :=
    setBackward_spec L vf h hk hD (by omega) (by omega) hentry (u := u) (v := v)
  refine ⟨vb', ?_, hfilled⟩
  rw [EditGraph.labelBackward, graph_vb, h.get D _ hleft (hrow _), ok_bind, hpoint,
    lookBackward_eq (by omega) (by omega), ok_bind, h.get D _ hright (hrow _), ok_bind, hpoint',
    lookBackward_eq (by omega) (by omega), ok_bind, ← hset]
  congr 1
  split <;> omega

theorem backwardPass_spec (L : Nat) (vf : Label) (h : Filled p (bwd a b) vb (Rows D))
    (hD : D + 1 < maxDiffs) :
    ∃ vb', (graph a b L u v vf vb).backwardPass p D = .ok (graph a b L u v vf vb') ∧
      Filled p (bwd a b) vb' (Rows (D + 1)) := by
  obtain ⟨vb₁, hset₁, h₁⟩ := setBackward_first L vf h hD
  obtain ⟨vb₂, hset₂, h₂⟩ := setBackward_last L vf h₁ hD
  obtain ⟨vb₃, hfold, h₃⟩ := h₂.foldlM (g := fun t => graph a b L u v vf t)
    (f := fun e k => e.labelBackward p D k) (steps (-D + 1) (D - 1))
    (fun k hk _ _ h hrow => by
      obtain ⟨hvalid, hfirst, hlast⟩ := inner_of_mem_steps hk
      exact labelBackward_spec L vf h hrow hD hvalid hfirst hlast)
    fun k => .inl (.inl le_rfl)
  refine ⟨vb₃, ?_, h₃.rows_succ⟩
  rw [EditGraph.backwardPass, graph_vb, h.get D _ (valid_first D) le_rfl, ok_bind, hset₁, ok_bind,
    graph_vb, h₁.get D _ (valid_last D) (.inl le_rfl), ok_bind, hset₂, ok_bind, hfold]

end Backward

end Lcs

end Turbokube
