import Turbokube.Lcs.Passes

/-!
# Backtracking

From a label the path back to the origin is read off the rows before.  Its diagonals are an
alignment up to the label, and there are at most as many as rows, since a path goes along one
diagonal only before it comes to the next row.
-/

namespace Turbokube

namespace Lcs

open EditGrid

/-- `x` is the label of diagonal `k` in the row before `D`. -/
def Previous (F : Nat → Int → Int) (D : Nat) (k x : Int) : Prop :=
  ∃ D', D = D' + 1 ∧ Valid D' k ∧ F D' k = x

/-- The rows before `D`. -/
def Below (D D' : Nat) (_ : Int) : Prop := D' < D

section Labelled

variable {p : Port} {F : Nat → Int → Int} {t : Label} {D : Nat} {k x : Int} {g : Bool}

theorem Filled.labelled_true (h : Filled p F t (Below D)) (hg : g = true)
    (hx : Previous F D k x) : t.labelled g (D - 1) k x = .ok true := by
  obtain ⟨D', rfl, hk, rfl⟩ := hx
  have hrow : ((D' + 1 : Nat) : Int) - 1 = D' := by omega
  have hok : ok D' k = true := by
    unfold Valid at hk
    exact decide_eq_true ⟨by omega, hk.1, hk.2.1⟩
  rw [Label.labelled, hrow, hg, hok, Bool.and_self, if_pos rfl,
    h.get D' k hk (Nat.lt_succ_self D'), ok_bind, decide_eq_true rfl]

theorem Filled.labelled_false (h : Filled p F t (Below D)) (hparity : ((D : Int) + k) % 2 = 1)
    (hx : ¬ (g = true ∧ Previous F D k x)) : t.labelled g (D - 1) k x = .ok false := by
  rw [Label.labelled]
  split
  · next hcond =>
    obtain ⟨hg, hok⟩ := Bool.and_eq_true_iff.mp hcond
    have hrange := of_decide_eq_true hok
    obtain ⟨D', rfl⟩ : ∃ D', D = D' + 1 := ⟨D - 1, by omega⟩
    have hrow : ((D' + 1 : Nat) : Int) - 1 = D' := by omega
    rw [hrow] at hrange ⊢
    have hk : Valid D' k := by
      unfold Valid
      omega
    rw [h.get D' k hk (Nat.lt_succ_self D'), ok_bind, decide_eq_false]
    exact fun heq => hx ⟨hg, D', rfl, hk, heq⟩
  · rfl

end Labelled

variable {α : Type} [DecidableEq α] {a b : List α} {p : Port} {L D : Nat} {u v k x : Int}
  {vf vb : Label} {X Y : Int}

section Backtrack

variable {T : Type} {F : Nat → Int → Int} {cell : Int → Int → Prop}
  {ready : Nat → T → Prop} {Good Begun : Int → Int → List Diag → Prop}
  {loop : Nat → Int → Int → Int → List Diag → T → Except Fault (List Diag)}

/-- A loop that goes back to the origin, in either direction.  From the point `x` of diagonal `k` it
goes to a label of the row before where one is next to the point, and else along the diagonal.
`Good` says that the list is an alignment up to the point, and `Begun` that a diagonal of it ends
there. -/
structure Backtracks (F : Nat → Int → Int) (cell : Int → Int → Prop) (ready : Nat → T → Prop)
    (Good Begun : Int → Int → List Diag → Prop)
    (loop : Nat → Int → Int → Int → List Diag → T → Except Fault (List Diag)) : Prop where
  earlier : ∀ {D t}, ready (D + 1) t → ready D t
  from_le : ∀ {k k' x x' ans}, Good k x ans → x' ≤ x → x' - k' ≤ x - k → Good k' x' ans
  stop : ∀ {fuel D k x ans t}, ready D t → x = 0 ∧ x - k = 0 →
    loop (fuel + 1) D k x ans t = .ok ans
  row : ∀ {D k x}, Valid D k → ¬ (x = 0 ∧ x - k = 0) →
    Previous F D (k - 1) (x - 1) ∨ Previous F D (k + 1) x →
    ∃ k' x', Previous F D k' x' ∧ (k' = k - 1 ∧ x' = x - 1 ∨ k' = k + 1 ∧ x' = x) ∧
      ∀ {fuel ans t}, ready D t → loop (fuel + 1) D k x ans t = loop fuel (D - 1) k' x' ans t
  along : ∀ {D k x ans}, Valid D k → ¬ (x = 0 ∧ x - k = 0) → ¬ Previous F D (k - 1) (x - 1) →
    ¬ Previous F D (k + 1) x → cell (x - 1) (x - 1 - k) → Good k x ans → ans.length < lcsCap →
    ∃ m, Good k (x - 1) m ∧ Begun k (x - 1) m ∧ m.length ≤ ans.length + 1 ∧
      (Begun k x ans → m.length = ans.length) ∧
      ∀ {fuel t}, ready D t → loop (fuel + 1) D k x ans t = loop fuel D k (x - 1) m t

/-- Of the diagonals there is one for each row left behind, and one for this row if the path has
begun to go along its diagonal. -/
theorem Backtracks.run (hb : Backtracks F cell ready Good Begun loop) (hF : Furthest cell F)
    {n : Nat} (hn : n + 1 < lcsCap) (fuel : Nat) {D : Nat} {k x : Int} (ans : List Diag)
    (hx : OnPath F D k x) (hfuel : (x + (x - k)).toNat < fuel) (hgood : Good k x ans)
    (hcount : x = F D k ∧ ans.length + D ≤ n ∨ ans.length + D ≤ n + 1 ∧ Begun k x ans) :
    ∃ l, Good 0 0 l ∧ l.length ≤ n + 1 ∧ ∀ {t}, ready D t → loop fuel D k x ans t = .ok l := by
  induction fuel generalizing D k x ans with
  | zero => omega
  | succ fuel ih =>
      have hnonneg := hF.onPath_nonneg hx
      have hlen : ans.length + D ≤ n + 1 := by
        rcases hcount with ⟨-, hle⟩ | ⟨hle, -⟩
        · omega
        · exact hle
      by_cases horigin : x = 0 ∧ x - k = 0
      · exact ⟨ans, hb.from_le hgood (by omega) (by omega), by omega, fun h => hb.stop h horigin⟩
      by_cases hprev : Previous F D (k - 1) (x - 1) ∨ Previous F D (k + 1) x
      · obtain ⟨k', x', ⟨D', rfl, hk', rfl⟩, hnext, hloop⟩ := hb.row hx.valid horigin hprev
        have hnonneg' := hF.nonneg D' k' hk'
        obtain ⟨l, hl, hlen', heq⟩ := ih ans (hF.onPath hk') (by omega)
          (hb.from_le hgood (by omega) (by omega)) (.inl ⟨rfl, by omega⟩)
        refine ⟨l, hl, hlen', fun h => ?_⟩
        have hrow : ((D' + 1 : Nat) : Int) - 1 = D' := by omega
        rw [hloop h, hrow, heq (hb.earlier h)]
      · obtain ⟨hleft, hbelow⟩ := not_or.mp hprev
        obtain ⟨hcell, hx'⟩ := hF.step_back hx horigin
          (fun D' hD hk heq => hleft ⟨D', hD, hk, heq⟩)
          (fun D' hD hk heq => hbelow ⟨D', hD, hk, heq⟩)
        obtain ⟨m, hm, hbegun, hmlen, hext, hloop⟩ :=
          hb.along hx.valid horigin hleft hbelow hcell hgood (by omega)
        have hlen' : m.length + D ≤ n + 1 := by
          rcases hcount with ⟨-, hle⟩ | ⟨hle, hbegun'⟩
          · omega
          · rw [hext hbegun']
            exact hle
        obtain ⟨l, hl, hlen', heq⟩ := ih m hx' (by omega) hm (.inr ⟨hlen', hbegun⟩)
        exact ⟨l, hl, hlen', fun h => by rw [hloop h, heq h]⟩

end Backtrack

section Forward

theorem forwardlcsLoop_backtracks : Backtracks (fwd a b u v) (Cell a b u v)
    (fun D (t : Port × EditGraph α) => ∃ L vf vb, t.2 = graph a b L u v vf vb ∧
      Filled t.1 (fwd a b u v) vf (Below D))
    (fun k x ans => Aligns (Cell a b u v) x (x - k) ans X Y)
    (fun k x ans => ∃ d l, ans = d :: l ∧ d.x = x ∧ d.y = x - k)
    (fun fuel D k x ans t => EditGraph.forwardlcsLoop t.1 t.2 fuel D k x ans) where
  earlier := by
    rintro D t ⟨L, vf, vb, he, h⟩
    exact ⟨L, vf, vb, he, h.mono fun D'' k'' _ hlt => Nat.lt_succ_of_lt hlt⟩
  from_le h hx hy := h.from_le hx hy
  stop _ horigin := if_pos horigin
  row := by
    intro D k x hvalid horigin hprev
    unfold Valid at hvalid
    by_cases hleft : Previous (fwd a b u v) D (k - 1) (x - 1)
    · refine ⟨k - 1, x - 1, hleft, .inl ⟨rfl, rfl⟩, ?_⟩
      rintro fuel ans ⟨p, e⟩ ⟨L, vf, vb, rfl, h⟩
      rw [EditGraph.forwardlcsLoop, if_neg horigin, graph_vf, h.labelled_true rfl hleft, ok_bind,
        if_pos rfl]
    · have hbelow := hprev.resolve_left hleft
      refine ⟨k + 1, x, hbelow, .inr ⟨rfl, rfl⟩, ?_⟩
      rintro fuel ans ⟨p, e⟩ ⟨L, vf, vb, rfl, h⟩
      rw [EditGraph.forwardlcsLoop, if_neg horigin, graph_vf,
        h.labelled_false (by omega) (fun hc => hleft hc.2), ok_bind, if_neg nofun,
        h.labelled_true rfl hbelow, ok_bind, if_pos rfl]
  along := by
    intro D k x ans hvalid horigin hleft hbelow hcell hgood hlen
    unfold Valid at hvalid
    have hy : x - 1 - k = x - k - 1 := by omega
    rw [hy] at hcell
    have hgood' : Aligns (Cell a b u v) (x - 1 + 1) (x - k - 1 + 1) ans X Y := by
      rwa [Int.sub_add_cancel, Int.sub_add_cancel]
    obtain ⟨m, hm, halign, hmlen, ⟨d, m', rfl, hdx, hdy⟩, hext⟩ := prepend_spec hlen hgood' hcell
    refine ⟨d :: m', by rwa [hy], ⟨d, m', rfl, hdx, by omega⟩, hmlen, ?_, ?_⟩
    · rintro ⟨d', l', rfl, hdx', hdy'⟩
      exact hext d' l' rfl (by omega) (by omega)
    · rintro fuel ⟨p, e⟩ ⟨L, vf, vb, rfl, h⟩
      rw [EditGraph.forwardlcsLoop, if_neg horigin, graph_vf,
        h.labelled_false (by omega) (fun hc => hleft hc.2), ok_bind, if_neg nofun,
        h.labelled_false (by omega) (fun hc => hbelow hc.2), ok_bind, if_neg nofun, graph_lx,
        graph_ly, Int.add_zero, Int.add_zero, hm p, ok_bind]

theorem forwardlcs_spec (hu : u ≤ a.length) (hv : v ≤ b.length) (hk : Valid D k)
    (hD : D + 1 < lcsCap) :
    ∃ l, Aligns (Cell a b u v) 0 0 l (fwd a b u v D k) (fwd a b u v D k - k) ∧
      l.length ≤ D + 1 ∧
      ∀ {p L vf vb}, vf.get D k = .ok (fwd a b u v D k) →
        Filled p (fwd a b u v) vf (Below D) →
        (graph a b L u v vf vb).forwardlcs p D k = .ok l := by
  obtain ⟨l, hl, hlen, heq⟩ := forwardlcsLoop_backtracks.run (furthest_fwd hu hv) hD
    ((fwd a b u v D k + (fwd a b u v D k - k)).toNat + 1) [] ((furthest_fwd hu hv).onPath hk)
    (Nat.lt_succ_self _) ⟨le_rfl, le_rfl⟩ (.inl ⟨rfl, by simp⟩)
  refine ⟨l, hl, hlen, fun {p L vf vb} hget h => ?_⟩
  rw [EditGraph.forwardlcs, graph_vf, hget, ok_bind]
  exact heq (t := (p, _)) ⟨L, vf, vb, rfl, h⟩

end Forward

section Backward

omit [DecidableEq α] in
/-- A cell of the reversed strings is a cell of the strings. -/
theorem cell_of_reverse {x y : Int}
    (h : Cell a.reverse b.reverse a.length b.length x y) :
    Cell a b a.length b.length (a.length - 1 - x) (b.length - 1 - y) := by
  obtain ⟨hx, hy, heq⟩ := h
  rw [List.getElem?_reverse (by omega), List.getElem?_reverse (by omega)] at heq
  refine ⟨by omega, by omega, ?_⟩
  rw [show ((a.length : Int) - 1 - x).toNat = a.length - 1 - x.toNat by omega,
    show ((b.length : Int) - 1 - y).toNat = b.length - 1 - y.toNat by omega]
  exact heq

theorem bwd_neg (D : Nat) (k : Int) : bwd a b D (-k) = a.length - rev a b D k := by
  rw [bwd, Int.neg_neg]

/-- The label of the row before, seen from either end. -/
theorem previous_bwd_iff : Previous (bwd a b) D (-k) (a.length - x) ↔ Previous (rev a b) D k x := by
  constructor
  · rintro ⟨D', rfl, hk, heq⟩
    rw [bwd_neg] at heq
    have hk' := valid_neg hk
    rw [Int.neg_neg] at hk'
    exact ⟨D', rfl, hk', by omega⟩
  · rintro ⟨D', rfl, hk, rfl⟩
    exact ⟨D', rfl, valid_neg hk, bwd_neg D' k⟩

theorem Aligns.to_le {cell : Int → Int → Prop} {l : List Diag} {x y x' y' x'' y'' : Int}
    (h : Aligns cell x y l x' y') (hx : x' ≤ x'') (hy : y' ≤ y'') : Aligns cell x y l x'' y'' := by
  have hend : Aligns cell x y (l ++ []) x'' y'' := h.append ⟨hx, hy⟩
  rwa [List.append_nil] at hend

/-- The loop, with the diagonal `k` and the point `x` counted from the other end. -/
theorem backwardlcsLoop_backtracks :
    Backtracks (rev a b) (Cell a.reverse b.reverse a.length b.length)
    (fun D (t : Port × EditGraph α) => ∃ L vf vb, t.2 = graph a b L a.length b.length vf vb ∧
      Filled t.1 (bwd a b) vb (Below D))
    (fun k x ans =>
      Aligns (Cell a b a.length b.length) X Y ans (a.length - x) (b.length - (x - k)))
    (fun k x ans => ∃ l d, ans = l ++ [d] ∧ d.x + d.len = a.length - x ∧
      d.y + d.len = b.length - (x - k))
    (fun fuel D k x ans t => EditGraph.backwardlcsLoop t.1 t.2 fuel D (-k) (a.length - x) ans) := by
  have hstop : ∀ {k x : Int}, (a.length - x = (a.length : Int) ∧
      (a.length : Int) - x - (-k + (a.length - b.length)) = b.length) ↔
      x = 0 ∧ x - k = 0 := by omega
  have habove_iff : ∀ {D : Nat} {k x : Int}, Previous (bwd a b) D (-k - 1) (a.length - x) ↔
      Previous (rev a b) D (k + 1) x := by
    intro D k x
    rw [← previous_bwd_iff, Int.neg_add]
    rfl
  have hright_iff : ∀ {D : Nat} {k x : Int},
      Previous (bwd a b) D (-k + 1) (a.length - x + 1) ↔ Previous (rev a b) D (k - 1) (x - 1) := by
    intro D k x
    rw [← previous_bwd_iff, show -(k - 1) = -k + 1 by omega,
      show (a.length : Int) - (x - 1) = a.length - x + 1 by omega]
  constructor
  case earlier =>
    rintro D t ⟨L, vf, vb, he, h⟩
    exact ⟨L, vf, vb, he, h.mono fun D'' k'' _ hlt => Nat.lt_succ_of_lt hlt⟩
  case from_le => exact fun h hx hy => h.to_le (by omega) (by omega)
  case stop =>
    rintro fuel D k x ans ⟨p, e⟩ ⟨L, vf, vb, rfl, -⟩ horigin
    exact if_pos (hstop.mpr horigin)
  case row =>
    -- the code looks at the two labels in the other order than going forward
    intro D k x hvalid horigin hprev
    unfold Valid at hvalid
    by_cases habove : Previous (rev a b) D (k + 1) x
    · refine ⟨k + 1, x, habove, .inr ⟨rfl, rfl⟩, ?_⟩
      rintro fuel ans ⟨p, e⟩ ⟨L, vf, vb, rfl, h⟩
      rw [EditGraph.backwardlcsLoop, graph_ux, graph_uy, graph_delta,
        if_neg (mt hstop.mp horigin), graph_vb, h.labelled_true rfl (habove_iff.mpr habove),
        ok_bind, if_pos rfl, Int.neg_add]
      rfl
    · have hright := hprev.resolve_right habove
      refine ⟨k - 1, x - 1, hright, .inl ⟨rfl, rfl⟩, ?_⟩
      rintro fuel ans ⟨p, e⟩ ⟨L, vf, vb, rfl, h⟩
      rw [EditGraph.backwardlcsLoop, graph_ux, graph_uy, graph_delta,
        if_neg (mt hstop.mp horigin), graph_vb,
        h.labelled_false (by omega) (fun hc => habove (habove_iff.mp hc.2)), ok_bind,
        if_neg nofun, h.labelled_true rfl (hright_iff.mpr hright), ok_bind, if_pos rfl]
      congr 1 <;> omega
  case along =>
    intro D k x ans hvalid horigin hright habove hcell hgood hlen
    unfold Valid at hvalid
    have hcell' := cell_of_reverse hcell
    rw [show (a.length : Int) - 1 - (x - 1) = a.length - x by omega,
      show (b.length : Int) - 1 - (x - 1 - k) = b.length - (x - k) by omega] at hcell'
    obtain ⟨m, hm, halign, hmlen, hlast, hext⟩ := append_spec hlen hgood hcell'
    rw [show (a.length : Int) - x + 1 = a.length - (x - 1) by omega,
      show (b.length : Int) - (x - k) + 1 = b.length - (x - 1 - k) by omega] at halign hlast
    refine ⟨m, halign, hlast, hmlen, ?_, ?_⟩
    · rintro ⟨l', d, rfl, hdx, hdy⟩
      exact hext l' d rfl hdx hdy
    · rintro fuel ⟨p, e⟩ ⟨L, vf, vb, rfl, h⟩
      rw [EditGraph.backwardlcsLoop, graph_ux, graph_uy, graph_delta,
        if_neg (mt hstop.mp horigin), graph_vb,
        h.labelled_false (by omega) (fun hc => habove (habove_iff.mp hc.2)), ok_bind,
        if_neg nofun, h.labelled_false (by omega) (fun hc => hright (hright_iff.mp hc.2)),
        ok_bind, if_neg nofun, graph_lx, graph_ly, Int.add_zero, Int.add_zero,
        show (a.length : Int) - x - (-k + (a.length - b.length)) = b.length - (x - k) by omega,
        hm p, ok_bind]
      congr 1
      omega

theorem backwardlcs_spec (hk : Valid D k) (hD : D + 1 < lcsCap) :
    ∃ l, Aligns (Cell a b a.length b.length) (bwd a b D k)
        (bwd a b D k - (k + (a.length - b.length))) l a.length b.length ∧
      l.length ≤ D + 1 ∧
      ∀ {p L vf vb}, vb.get D k = .ok (bwd a b D k) → Filled p (bwd a b) vb (Below D) →
        (graph a b L a.length b.length vf vb).backwardlcs p D k = .ok l := by
  have hpoint : bwd a b D k - (k + (a.length - b.length)) =
      b.length - (rev a b D (-k) - -k) := by
    rw [bwd]
    omega
  obtain ⟨l, hl, hlen, heq⟩ := (backwardlcsLoop_backtracks (a := a) (b := b)
    (X := bwd a b D k) (Y := bwd a b D k - (k + (a.length - b.length)))).run (furthest_rev a b) hD
    ((rev a b D (-k) + (rev a b D (-k) - -k)).toNat + 1) []
    ((furthest_rev a b).onPath (valid_neg hk)) (Nat.lt_succ_self _) ⟨le_rfl, by rw [hpoint]⟩
    (.inl ⟨rfl, by simp⟩)
  rw [Int.sub_zero, Int.sub_zero, Int.sub_zero] at hl
  refine ⟨l, hl, hlen, fun {p L vf vb} hget h => ?_⟩
  have hloop := heq (t := (p, _)) ⟨L, vf, vb, rfl, h⟩
  rw [Int.neg_neg] at hloop
  rw [EditGraph.backwardlcs, graph_vb, hget, ok_bind, ← hloop]
  congr 2
  simp only [graph]
  rw [bwd]
  omega

end Backward

end Lcs

end Turbokube
