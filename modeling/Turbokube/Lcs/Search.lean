import Turbokube.Lcs.Meeting

/-!
# The two-sided search

Every exit of the search gives an alignment of the two strings, with at most `2 * limit + 2`
diagonals.  If the labels have not met when the limit is reached, some label of the last forward row
is inside the edit graph: otherwise one of the row before would be past the corner, and would have
met a backward label.
-/

namespace Turbokube

namespace Lcs

open EditGrid

variable {α : Type} [DecidableEq α] {a b : List α} {p : Port} {L D : Nat} {k : Int}
  {vf vb : Label}

/-- The labels have not met in a round before `D`. -/
def Apart (a b : List α) (D : Nat) : Prop :=
  ∀ D' < D, ∀ k, ¬ Meets a b D' D' k ∧ ¬ Meets a b (D' + 1) D' k

section Limit

theorem maxForward_spec (ks : List Int) (hks : ∀ k ∈ ks, Valid L k) (kmax diagmax : Int) :
    ∃ r, (r ∈ ks ∨ r = kmax ∧ ∀ k ∈ ks, ¬ (front a b L k + (front a b L k - k) > diagmax ∧
        front a b L k ≤ a.length ∧ front a b L k - k ≤ b.length)) ∧
      ∀ {p vf vb}, Filled p (front a b) vf (Rows L) →
        (graph a b L a.length b.length vf vb).maxForward ks kmax diagmax = .ok r := by
  induction ks generalizing kmax diagmax with
  | nil => exact ⟨kmax, .inr ⟨rfl, by simp⟩, fun _ => rfl⟩
  | cons k ks ih =>
      rw [List.forall_mem_cons] at hks
      by_cases hbetter : front a b L k + (front a b L k - k) > diagmax ∧
          front a b L k ≤ a.length ∧ front a b L k - k ≤ b.length
      · obtain ⟨r, hr, heq⟩ := ih hks.2 k (front a b L k + (front a b L k - k))
        refine ⟨r, .inl ?_, fun {p vf vb} h => ?_⟩
        · rcases hr with hmem | ⟨rfl, -⟩
          · exact List.mem_cons_of_mem _ hmem
          · exact List.mem_cons_self
        · rw [EditGraph.maxForward, graph_vf, graph_limit, h.get L k hks.1 le_rfl, ok_bind,
            graph_ux, graph_uy, if_pos hbetter, heq h]
      · obtain ⟨r, hr, heq⟩ := ih hks.2 kmax diagmax
        refine ⟨r, ?_, fun {p vf vb} h => ?_⟩
        · rcases hr with hmem | ⟨rfl, hnone⟩
          · exact .inl (List.mem_cons_of_mem _ hmem)
          · refine .inr ⟨rfl, ?_⟩
            rw [List.forall_mem_cons]
            exact ⟨hbetter, hnone⟩
        · rw [EditGraph.maxForward, graph_vf, graph_limit, h.get L k hks.1 le_rfl, ok_bind,
            graph_ux, graph_uy, if_neg hbetter, heq h]

/-- The backward scan keeps the diagonal of the forward one if it finds none, which is also one of
the row. -/
theorem minBackward_spec (ks : List Int) (hks : ∀ k ∈ ks, Valid L k) (kmax diagmin : Int) :
    ∃ r, (r ∈ ks ∨ r = kmax) ∧
      ∀ {p vf vb}, Filled p (bwd a b) vb (Rows L) →
        (graph a b L a.length b.length vf vb).minBackward ks kmax diagmin = .ok r := by
  induction ks generalizing kmax diagmin with
  | nil => exact ⟨kmax, .inr rfl, fun _ => rfl⟩
  | cons k ks ih =>
      rw [List.forall_mem_cons] at hks
      by_cases hbetter : bwd a b L k + (bwd a b L k - (k + (a.length - b.length))) < diagmin ∧
          bwd a b L k ≥ 0 ∧ bwd a b L k - (k + (a.length - b.length)) ≥ 0
      · obtain ⟨r, hr, heq⟩ :=
          ih hks.2 k (bwd a b L k + (bwd a b L k - (k + (a.length - b.length))))
        refine ⟨r, .inl ?_, fun {p vf vb} h => ?_⟩
        · rcases hr with hmem | rfl
          · exact List.mem_cons_of_mem _ hmem
          · exact List.mem_cons_self
        · rw [EditGraph.minBackward, graph_vb, graph_limit, h.get L k hks.1 le_rfl, ok_bind,
            graph_delta, if_pos hbetter, heq h]
      · obtain ⟨r, hr, heq⟩ := ih hks.2 kmax diagmin
        refine ⟨r, ?_, fun {p vf vb} h => ?_⟩
        · rcases hr with hmem | rfl
          · exact .inl (List.mem_cons_of_mem _ hmem)
          · exact .inr rfl
        · rw [EditGraph.minBackward, graph_vb, graph_limit, h.get L k hks.1 le_rfl, ok_bind,
            graph_delta, if_neg hbetter, heq h]

theorem valid_iff_mem_steps : Valid L k ↔ k ∈ steps (-L) L := by
  rw [mem_steps]
  unfold Valid
  omega

/-- Some label of the last row is inside the edit graph. -/
theorem Apart.exists_inside (h : Apart a b L) :
    ∃ k, Valid L k ∧ front a b L k ≤ a.length ∧ front a b L k - k ≤ b.length := by
  by_contra hnone
  have hlen : (0 : Int) ≤ a.length := Int.natCast_nonneg _
  have hlen' : (0 : Int) ≤ b.length := Int.natCast_nonneg _
  obtain ⟨D, k, rfl, hk, hx, hy⟩ := (furthest_front a b).exists_past_corner inside_cell hlen hlen'
    fun k hk => by
      by_contra hin
      exact hnone ⟨k, hk, by omega, by omega⟩
  have hexcess := (furthest_front a b).excess inside_cell hlen hlen' D k hk
  -- the backward row of the right parity has this diagonal
  have hmeets : ∀ {db : Nat}, Valid db (k - (a.length - b.length)) → Meets a b D db k := by
    intro db hdb
    have hle := bwd_le hdb
    exact ⟨hk, hdb, hle.1.trans hx⟩
  by_cases hsame : Valid D (k - (a.length - b.length))
  · exact (h D (Nat.lt_succ_self D) k).1 (hmeets hsame)
  · obtain ⟨D', rfl⟩ : ∃ D', D = D' + 1 := by
      refine ⟨D - 1, ?_⟩
      unfold Valid at hsame hk
      omega
    have hother : Valid D' (k - (a.length - b.length)) := by
      unfold Valid at hsame hk ⊢
      omega
    exact (h D' (by omega) k).2 (hmeets hother)

theorem partialPaths_spec (h : Apart a b L) (hL : L < maxDiffs) :
    Solves a b L L L fun p e => e.partialPaths p := by
  have hsteps : ∀ k ∈ steps (-L) L, Valid L k := fun k hk => valid_iff_mem_steps.mpr hk
  obtain ⟨kf, hkf, heqf⟩ := maxForward_spec (a := a) (b := b) _ hsteps (-L - 1) (-1)
  have hvalid : Valid L kf := by
    rcases hkf with hmem | ⟨-, hnone⟩
    · exact hsteps kf hmem
    · obtain ⟨k, hk, hx, hy⟩ := h.exists_inside
      have hnonneg := front_nonneg (a := a) (b := b) hk
      exact absurd ⟨by omega, hx, hy⟩ (hnone k (valid_iff_mem_steps.mp hk))
  obtain ⟨kb, hkb, heqb⟩ := minBackward_spec (a := a) (b := b) _ hsteps kf infinity
  have hvalid' : Valid L kb := by
    rcases hkb with hmem | rfl
    · exact hsteps kb hmem
    · exact hvalid
  have hkb_eq : kb + ((a.length : Int) - b.length) - (a.length - b.length) = kb := by omega
  obtain ⟨lf, hlf, hlenf, hforward⟩ := frontPath (a := a) (b := b) hvalid hL
  obtain ⟨lb, hlb, hlenb, hbackward⟩ := @backPath α _ a b L
    (kb + (a.length - b.length)) (by rw [hkb_eq]; exact hvalid') hL
  rw [hkb_eq] at hbackward
  have hmatch : ∀ d ∈ lf ++ lb, Matches (Cell a b a.length b.length) d := by
    rw [List.forall_mem_append]
    exact ⟨fun d hd => hlf.matches_of_mem hd, fun d hd => hlb.matches_of_mem hd⟩
  have hlen : (lf ++ lb).length ≤ 2 * L + 2 := by
    rw [List.length_append]
    omega
  obtain ⟨l, hfix, haligns, hle⟩ := fix_spec inside_cell (Int.natCast_nonneg _)
    (Int.natCast_nonneg _) (le_lcsCap hL hlen) hmatch
  refine .of_ok haligns (hle.trans hlen) fun {p _ _} hvf hvb => ?_
  unfold Valid at hvalid hvalid'
  rw [EditGraph.partialPaths, graph_limit, heqf hvf, ok_bind, if_neg (by omega), hforward hvf,
    ok_bind, heqb hvb, ok_bind, if_neg (by omega), hbackward hvb, ok_bind, appendAll,
    fits_eq (le_lcsCap hL hlen), ok_bind, hfix p, ok_bind]

end Limit

section Rounds

theorem twosidedLoop_spec (hL : L < maxDiffs) (n : Nat) (hn : D + n = L) (h : Apart a b D) :
    Solves a b L D D fun p e => EditGraph.twosidedLoop p n D e := by
  induction n generalizing D with
  | zero =>
      obtain rfl : D = L := hn
      exact partialPaths_spec h hL
  | succ n ih =>
      have hcast : ((D + 1 : Nat) : Int) = (D : Int) + 1 := rfl
      obtain ⟨got, hsome, hnone, heq⟩ := twoDone_spec a b D D
      cases got with
      | some kf =>
          have hmeets := hsome kf rfl
          have hpoint := hmeets.nonneg le_rfl fun df' db' hdf hdb k => by
            obtain rfl : df' = db' := by omega
            exact (h df' (by omega) k).1
          refine (twolcs_spec hmeets hpoint.1 hpoint.2 (by omega) (by omega) hL).congr
            fun hvf hvb => ?_
          rw [EditGraph.twosidedLoop, heq hvf hvb, ok_bind]
      | none =>
          obtain ⟨got', hsome', hnone', heq'⟩ := twoDone_spec a b (D + 1) D
          cases got' with
          | some kf =>
              have hmeets := hsome' kf rfl
              have hpoint := hmeets.nonneg (Nat.le_succ D) fun df' db' hdf hdb k => by
                obtain rfl : df' = db' + 1 := by omega
                exact (h db' (by omega) k).2
              obtain ⟨l, hl, hlen, hreturns⟩ :=
                twolcs_spec (L := L) hmeets hpoint.1 hpoint.2 (by omega) (by omega) hL
              refine ⟨l, hl, hlen, fun {p vf vb} hvf hvb => ?_⟩
              obtain ⟨vf', hpass, hvf'⟩ := forwardPass_spec L vb le_rfl le_rfl hvf (by omega)
              have hdone := heq' (L := L) hvf' hvb
              have hend := hreturns hvf' hvb
              rw [hcast] at hdone hend
              beta_reduce
              rw [EditGraph.twosidedLoop, heq hvf hvb, ok_bind]
              dsimp only
              rw [hpass, ok_bind, hdone, ok_bind]
              exact hend
          | none =>
              have hapart : Apart a b (D + 1) := by
                intro D' hlt k
                by_cases hlast : D' = D
                · subst hlast
                  exact ⟨hnone rfl k, hnone' rfl k⟩
                · exact h D' (by omega) k
              obtain ⟨l, hl, hlen, hreturns⟩ := ih (by omega) hapart
              refine ⟨l, hl, hlen, fun {p vf vb} hvf hvb => ?_⟩
              obtain ⟨vf', hpass, hvf'⟩ := forwardPass_spec L vb le_rfl le_rfl hvf (by omega)
              have hdone := heq' (L := L) hvf' hvb
              obtain ⟨vb', hpass', hvb'⟩ := backwardPass_spec (u := a.length) (v := b.length) L vf'
                hvb (by omega)
              have hend := hreturns hvf' hvb'
              rw [hcast] at hdone hend
              beta_reduce
              rw [EditGraph.twosidedLoop, heq hvf hvb, ok_bind]
              dsimp only
              rw [hpass, ok_bind, hdone, ok_bind]
              dsimp only
              rw [hpass', ok_bind]
              exact hend

/-- The search gives the same alignment for any tables it is given. -/
theorem twosided_spec (a b : List α) (hL : L < maxDiffs) :
    ∃ l, Aligns (Cell a b a.length b.length) 0 0 l a.length b.length ∧ l.length ≤ 2 * L + 2 ∧
      ∀ {p vf vb}, vf.Shaped p → vb.Shaped p →
        Returns p a b L l (EditGraph.twosided p (graph a b L a.length b.length vf vb)) := by
  obtain ⟨l, hl, hlen, hreturns⟩ := twosidedLoop_spec (a := a) (b := b) (D := 0) hL L
    (Nat.zero_add L) fun D' hlt => absurd hlt (Nat.not_lt_zero D')
  refine ⟨l, hl, hlen, fun {p vf vb} hvf hvb => ?_⟩
  have hvalid : Valid 0 0 := valid_zero.mpr rfl
  have hrows : ∀ D (k : Int), Valid D k → Rows 0 D k → False ∨ D = 0 ∧ k = 0 := by
    intro D k hk hle
    obtain rfl : D = 0 := Nat.le_zero.mp hle
    exact .inr ⟨rfl, valid_zero.mp hk⟩
  have hvf₀ : Filled p (front a b) vf fun _ _ => False := ⟨hvf, fun _ _ _ => False.elim⟩
  have hvb₀ : Filled p (bwd a b) vb fun _ _ => False := ⟨hvb, fun _ _ _ => False.elim⟩
  obtain ⟨vf', hset, hvf'⟩ := setForward_spec L vb le_rfl le_rfl hvf₀ hvalid (by decide)
    (le_refl 0) (by omega) rfl
  obtain ⟨vb', hset', hvb'⟩ := setBackward_spec (u := a.length) (v := b.length) L vf' hvb₀ hvalid
    (by decide) (le_refl 0) (by omega) rfl
  rw [Int.natCast_zero] at hset hset'
  rw [Int.sub_zero] at hset'
  rw [EditGraph.twosided, graph_lx, hset, ok_bind, graph_ux, hset', ok_bind, graph_limit,
    Int.toNat_natCast]
  exact hreturns (hvf'.mono hrows) (hvb'.mono hrows)

end Rounds

end Lcs

end Turbokube
