import Turbokube.Lcs.Fix
import Turbokube.Lcs.Forward

/-!
# Where the two searches meet

A forward and a backward label meet on a diagonal if the backward one is not beyond the forward one.
`twoDone` finds such a diagonal and `twolcs` makes an alignment from it in one of eight ways.  The
last of them searches the rectangle up to the backward label, which has to be a point of the grid.
It is, because the labels have not met two rows earlier.
-/

namespace Turbokube

namespace Lcs

open EditGrid

variable {α : Type} [DecidableEq α] {a b : List α} {p : Port} {L df db : Nat} {k kf : Int}
  {vf vb : Label}

/-- The forward labels of the whole edit graph. -/
def front (a b : List α) : Nat → Int → Int := fwd a b a.length b.length

/-- The backward label on the forward diagonal `k`. -/
abbrev back (a b : List α) (D : Nat) (k : Int) : Int := bwd a b D (k - (a.length - b.length))

/-- The labels of rows `df` and `db` on the forward diagonal `k` have passed each other. -/
structure Meets (a b : List α) (df db : Nat) (k : Int) : Prop where
  forward : Valid df k
  backward : Valid db (k - (a.length - b.length))
  le : back a b db k ≤ front a b df k

theorem furthest_front (a b : List α) :
    Furthest (Cell a b a.length b.length) (front a b) := furthest_fwd le_rfl le_rfl

theorem front_nonneg {D : Nat} (hk : Valid D k) : 0 ≤ front a b D k ∧ 0 ≤ front a b D k - k :=
  (furthest_front a b).nonneg D k hk

/-- A backward label is at most at the corner. -/
theorem bwd_le {D : Nat} (hk : Valid D (k - (a.length - b.length))) :
    back a b D k ≤ a.length ∧ back a b D k - k ≤ b.length := by
  have hnonneg := rev_nonneg (a := a) (b := b) (valid_neg hk)
  rw [back, bwd]
  omega

section TwoDone

/-- Each of the special cases is one of two labels that have passed each other. -/
theorem twoDoneSpecial_spec (ls : List Int)
    (hls : ∀ l ∈ ls, Valid df l ∧ Valid db (l - (a.length - b.length))) :
    ∃ r : Option Int, (∀ l ∈ r, Meets a b df db l) ∧
      ∀ {p L vf vb}, Filled p (front a b) vf (Rows df) → Filled p (bwd a b) vb (Rows db) →
        (graph a b L a.length b.length vf vb).twoDoneSpecial df db ls = .ok r := by
  induction ls with
  | nil => exact ⟨none, by simp, fun _ _ => rfl⟩
  | cons l ls ih =>
      rw [List.forall_mem_cons] at hls
      obtain ⟨⟨hf, hb⟩, hls⟩ := hls
      obtain ⟨r, hr, heq⟩ := ih hls
      by_cases hspecial : front a b df l = back a b db l ∨ back a b db l = 0 ∨
          back a b db l - l = 0 ∨ front a b df l - l = b.length ∨ front a b df l = a.length
      · refine ⟨some l, ?_, fun {p L vf vb} hvf hvb => ?_⟩
        · have hnonneg := front_nonneg (a := a) (b := b) hf
          have hle := bwd_le hb
          have hmeets : Meets a b df db l := ⟨hf, hb, by omega⟩
          simpa using hmeets
        · rw [EditGraph.twoDoneSpecial, graph_vf, hvf.get df l hf le_rfl, ok_bind, graph_vb,
            graph_delta, hvb.get db _ hb le_rfl, ok_bind, graph_ux, graph_uy, if_pos hspecial]
      · refine ⟨r, hr, fun {p L vf vb} hvf hvb => ?_⟩
        rw [EditGraph.twoDoneSpecial, graph_vf, hvf.get df l hf le_rfl, ok_bind, graph_vb,
          graph_delta, hvb.get db _ hb le_rfl, ok_bind, graph_ux, graph_uy, if_neg hspecial,
          heq hvf hvb]

theorem twoDoneLoop_spec (ks : List Int)
    (hks : ∀ k ∈ ks, Valid df k ∧ Valid db (k - (a.length - b.length))) :
    ∃ r : Option Int, (∀ k ∈ r, Meets a b df db k) ∧
      (r = none → ∀ k ∈ ks, ¬ Meets a b df db k) ∧
      ∀ {p L vf vb}, Filled p (front a b) vf (Rows df) → Filled p (bwd a b) vb (Rows db) →
        (graph a b L a.length b.length vf vb).twoDoneLoop df db ks = .ok r := by
  induction ks with
  | nil => exact ⟨none, by simp, by simp, fun _ _ => rfl⟩
  | cons k ks ih =>
      have hall := hks
      rw [List.forall_mem_cons] at hks
      obtain ⟨⟨hf, hb⟩, hks⟩ := hks
      by_cases hle : back a b db k ≤ front a b df k
      · obtain ⟨r, hr, heq⟩ := twoDoneSpecial_spec (k :: ks) hall
        refine ⟨some (r.getD k), ?_, nofun, fun {p L vf vb} hvf hvb => ?_⟩
        · have hmeets : Meets a b df db (r.getD k) := by
            cases r with
            | none => exact ⟨hf, hb, hle⟩
            | some l => exact hr l rfl
          simpa using hmeets
        · rw [EditGraph.twoDoneLoop, graph_vf, hvf.get df k hf le_rfl, ok_bind, graph_vb,
            graph_delta, hvb.get db _ hb le_rfl, ok_bind, if_pos hle, heq hvf hvb, ok_bind]
      · obtain ⟨r, hr, hnone, heq⟩ := ih hks
        refine ⟨r, hr, fun h => ?_, fun {p L vf vb} hvf hvb => ?_⟩
        · rw [List.forall_mem_cons]
          exact ⟨fun hmeets => hle hmeets.le, hnone h⟩
        · rw [EditGraph.twoDoneLoop, graph_vf, hvf.get df k hf le_rfl, ok_bind, graph_vb,
            graph_delta, hvb.get db _ hb le_rfl, ok_bind, if_neg hle, heq hvf hvb]

/-- `twoDone` finds a diagonal on which the labels meet, if there is one. -/
theorem twoDone_spec (a b : List α) (df db : Nat) :
    ∃ r : Option Int, (∀ k ∈ r, Meets a b df db k) ∧ (r = none → ∀ k, ¬ Meets a b df db k) ∧
      ∀ {p L vf vb}, Filled p (front a b) vf (Rows df) → Filled p (bwd a b) vb (Rows db) →
        (graph a b L a.length b.length vf vb).twoDone df db = .ok r := by
  by_cases hparity : ((df : Int) + db + ((a.length : Int) - b.length)) % 2 ≠ 0
  · refine ⟨none, by simp, fun _ k hmeets => ?_, fun {p L vf vb} _ _ => ?_⟩
    · obtain ⟨hf, hb, -⟩ := hmeets
      unfold Valid at hf hb
      omega
    · rw [EditGraph.twoDone, graph_delta, if_pos hparity]
  · -- the loop is over the diagonals of both rows
    have hmem : ∀ k, k ∈ steps
        (if -(df : Int) > -db + ((a.length : Int) - b.length) then -(df : Int)
          else -db + ((a.length : Int) - b.length))
        (if (df : Int) < db + ((a.length : Int) - b.length) then (df : Int)
          else db + ((a.length : Int) - b.length)) ↔
        Valid df k ∧ Valid db (k - (a.length - b.length)) := by
      intro k
      rw [mem_steps]
      unfold Valid
      split <;> split <;> omega
    obtain ⟨r, hr, hnone, heq⟩ := twoDoneLoop_spec (a := a) (b := b) _ fun k hk => (hmem k).mp hk
    refine ⟨r, hr, fun h k hmeets => ?_, fun {p L vf vb} hvf hvb => ?_⟩
    · exact hnone h k ((hmem k).mpr ⟨hmeets.forward, hmeets.backward⟩) hmeets
    · rw [EditGraph.twoDone, graph_delta, if_neg hparity]
      exact heq hvf hvb

end TwoDone

/-- Where labels meet first, the backward one is a point of the grid. -/
theorem Meets.nonneg (h : Meets a b df db kf) (hle : db ≤ df)
    (hfirst : ∀ df' db', df = df' + 1 → db = db' + 1 → ∀ k, ¬ Meets a b df' db' k) :
    0 ≤ back a b db kf ∧ 0 ≤ back a b db kf - kf := by
  have hF := furthest_rev a b
  have hin : Inside (Cell a.reverse b.reverse a.length b.length) a.length b.length := inside_cell
  have hlen : (0 : Int) ≤ a.length := Int.natCast_nonneg _
  have hlen' : (0 : Int) ≤ b.length := Int.natCast_nonneg _
  have hk := valid_neg h.backward
  -- a label beyond the grid comes from a neighbour in the row before, which has met already
  have hright : 0 > back a b db kf → ∃ df', df = df' + 1 ∧ kf = (df' : Int) + 1 := by
    intro hneg
    obtain ⟨db', rfl, hk', hreach⟩ := hF.beyond hin hlen hlen' db _ hk
      (by rw [back, bwd] at hneg; omega)
    obtain ⟨df', rfl⟩ : ∃ df', df = df' + 1 := ⟨df - 1, by omega⟩
    refine ⟨df', rfl, ?_⟩
    by_contra hlast
    have hvalid := h.forward.right hlast
    have hk'' := valid_neg hk'
    rw [show -(-(kf - ((a.length : Int) - b.length)) - 1) =
      kf + 1 - (a.length - b.length) by omega] at hk''
    refine hfirst df' db' rfl rfl (kf + 1) ⟨hvalid, hk'', ?_⟩
    have hnonneg := front_nonneg (a := a) (b := b) hvalid
    rw [back, bwd] at hneg ⊢
    rw [show -(kf + 1 - ((a.length : Int) - b.length)) =
      -(kf - (a.length - b.length)) - 1 by omega]
    omega
  have habove : 0 > back a b db kf - kf →
      ∃ df', df = df' + 1 ∧ kf = -((df' : Int) + 1) := by
    intro hneg
    obtain ⟨db', rfl, hk', hreach⟩ := hF.above hin hlen hlen' db _ hk
      (by rw [back, bwd] at hneg; omega)
    obtain ⟨df', rfl⟩ : ∃ df', df = df' + 1 := ⟨df - 1, by omega⟩
    refine ⟨df', rfl, ?_⟩
    by_contra hfirst'
    have hvalid := h.forward.left hfirst'
    have hk'' := valid_neg hk'
    rw [show -(-(kf - ((a.length : Int) - b.length)) + 1) =
      kf - 1 - (a.length - b.length) by omega] at hk''
    refine hfirst df' db' rfl rfl (kf - 1) ⟨hvalid, hk'', ?_⟩
    have hnonneg := front_nonneg (a := a) (b := b) hvalid
    rw [back, bwd] at hneg ⊢
    rw [show -(kf - 1 - ((a.length : Int) - b.length)) =
      -(kf - (a.length - b.length)) + 1 by omega]
    omega
  constructor
  · by_contra hneg
    obtain ⟨df', rfl, hlast⟩ := hright (by omega)
    obtain ⟨df'', heq, hfirst'⟩ := habove (by omega)
    omega
  · by_contra hneg
    obtain ⟨df', rfl, hfirst'⟩ := habove (by omega)
    obtain ⟨df'', heq, hlast⟩ := hright (by omega)
    omega

section Twolcs

/-- What a search of the whole edit graph returns: the diagonals `l`, and tables to go back to the
pool. -/
def Returns (p : Port) (a b : List α) (L : Nat) (l : List Diag)
    (r : Except Fault (EditGraph α × List Diag)) : Prop :=
  ∃ vf vb, r = .ok (graph a b L a.length b.length vf vb, l) ∧ vf.Shaped p ∧ vb.Shaped p

omit [DecidableEq α] in
/-- The parts of an alignment are patched together in either order. -/
theorem joined_eq {cell : Int → Int → Prop} {x y x' y' : Int} {l m m' : List Diag}
    (e : EditGraph α) (h : Aligns cell x y l x' y') (hperm : (m ++ m').Perm l)
    (hlen : l.length ≤ lcsCap) : e.joined p m m' = .ok (e, l) := by
  rw [EditGraph.joined, appendAll, fits_eq (by rw [hperm.length_eq]; exact hlen), ok_bind,
    sort_eq h hperm]

theorem le_lcsCap {n : Nat} (hL : L < maxDiffs) (hn : n ≤ 2 * L + 2) : n ≤ lcsCap := by
  unfold maxDiffs at hL
  unfold lcsCap
  omega

/-- A search of the whole edit graph that finds the rows up to `df` and `db` returns an alignment of
the strings, and the same one for any tables. -/
def Solves (a b : List α) (L df db : Nat)
    (search : Port → EditGraph α → Except Fault (EditGraph α × List Diag)) : Prop :=
  ∃ l, Aligns (Cell a b a.length b.length) 0 0 l a.length b.length ∧ l.length ≤ 2 * L + 2 ∧
    ∀ {p vf vb}, Filled p (front a b) vf (Rows df) → Filled p (bwd a b) vb (Rows db) →
      Returns p a b L l (search p (graph a b L a.length b.length vf vb))

section Solves

variable {search search' : Port → EditGraph α → Except Fault (EditGraph α × List Diag)}
  {l lf lb : List Diag} {x y : Int}

theorem Solves.of_ok (hl : Aligns (Cell a b a.length b.length) 0 0 l a.length b.length)
    (hlen : l.length ≤ 2 * L + 2)
    (heq : ∀ {p vf vb}, Filled p (front a b) vf (Rows df) → Filled p (bwd a b) vb (Rows db) →
      search p (graph a b L a.length b.length vf vb) =
        .ok (graph a b L a.length b.length vf vb, l)) : Solves a b L df db search :=
  ⟨l, hl, hlen, fun hvf hvb => ⟨_, _, heq hvf hvb, hvf.shaped, hvb.shaped⟩⟩

/-- A path to a point and one from there on. -/
theorem Solves.join (hlf : Aligns (Cell a b a.length b.length) 0 0 lf x y)
    (hlb : Aligns (Cell a b a.length b.length) x y lb a.length b.length)
    (hlen : lf.length + lb.length ≤ 2 * L + 2) (hL : L < maxDiffs)
    (heq : ∀ {p vf vb}, Filled p (front a b) vf (Rows df) → Filled p (bwd a b) vb (Rows db) →
      ∃ m m', (m ++ m').Perm (lf ++ lb) ∧ search p (graph a b L a.length b.length vf vb) =
        (graph a b L a.length b.length vf vb).joined p m m') : Solves a b L df db search := by
  rw [← List.length_append] at hlen
  refine .of_ok (hlf.append hlb) hlen fun hvf hvb => ?_
  obtain ⟨m, m', hperm, hsearch⟩ := heq hvf hvb
  rw [hsearch]
  exact joined_eq _ (hlf.append hlb) hperm (le_lcsCap hL hlen)

theorem Solves.congr (h : Solves a b L df db search)
    (heq : ∀ {p vf vb}, Filled p (front a b) vf (Rows df) → Filled p (bwd a b) vb (Rows db) →
      search' p (graph a b L a.length b.length vf vb) =
        search p (graph a b L a.length b.length vf vb)) : Solves a b L df db search' := by
  obtain ⟨l, hl, hlen, hreturns⟩ := h
  refine ⟨l, hl, hlen, fun hvf hvb => ?_⟩
  rw [heq hvf hvb]
  exact hreturns hvf hvb

end Solves

/-- The rows before `D` are filled. -/
theorem Filled.below {F : Nat → Int → Int} {t : Label} {D D' : Nat} (h : Filled p F t (Rows D))
    (hle : D' ≤ D) : Filled p F t (Below D') :=
  h.mono fun _ _ _ hlt => (Nat.le_of_lt hlt).trans hle

/-- The forward path to the label on `kf`. -/
theorem frontPath (hk : Valid df kf) (hdf : df < maxDiffs) :
    ∃ l, Aligns (Cell a b a.length b.length) 0 0 l (front a b df kf) (front a b df kf - kf) ∧
      l.length ≤ df + 1 ∧
      ∀ {p L vf vb}, Filled p (front a b) vf (Rows df) →
        (graph a b L a.length b.length vf vb).forwardlcs p df kf = .ok l := by
  have hcap : df + 1 < lcsCap := by
    unfold maxDiffs at hdf
    unfold lcsCap
    omega
  obtain ⟨l, hl, hlen, heq⟩ := forwardlcs_spec (a := a) (b := b) le_rfl le_rfl hk hcap
  exact ⟨l, hl, hlen, fun h => heq (h.get df kf hk le_rfl) (h.below le_rfl)⟩

/-- The backward path from the label on the forward diagonal `k`. -/
theorem backPath (hk : Valid db (k - (a.length - b.length))) (hdb : db < maxDiffs) :
    ∃ l, Aligns (Cell a b a.length b.length) (back a b db k) (back a b db k - k) l
        a.length b.length ∧
      l.length ≤ db + 1 ∧
      ∀ {p L vf vb}, Filled p (bwd a b) vb (Rows db) →
        (graph a b L a.length b.length vf vb).backwardlcs p db (k - (a.length - b.length)) =
          .ok l := by
  have hcap : db + 1 < lcsCap := by
    unfold maxDiffs at hdb
    unfold lcsCap
    omega
  obtain ⟨l, hl, hlen, heq⟩ := backwardlcs_spec (a := a) (b := b) hk hcap
  rw [Int.sub_add_cancel] at hl
  exact ⟨l, hl, hlen, fun h => heq (h.get db _ hk le_rfl) (h.below le_rfl)⟩

/-- The rectangle up to a backward label that has met a forward one has a path through it. -/
theorem Meets.exists_corner (h : Meets a b df db kf) (hu : 0 ≤ back a b db kf)
    (hv : 0 ≤ back a b db kf - kf) :
    ∃ D ≤ df, Valid D kf ∧
      fwd a b (back a b db kf) (back a b db kf - kf) D kf = back a b db kf := by
  have hmeet := h.le
  have hle := bwd_le h.backward
  have hF := furthest_fwd hle.1 hle.2
  have hcap := (furthest_front a b).restrict hF
    (fun x y hcell hx hy => ⟨⟨hcell.1.1, hx⟩, ⟨hcell.2.1.1, hy⟩, hcell.2.2⟩) df kf h.forward
  have hk : back a b db kf - (back a b db kf - kf) = kf := Int.sub_sub_self _ _
  have hcorner := hF.exists_corner inside_cell hu hv df
  rw [hk] at hcorner
  exact hcorner h.forward (by omega)

/-- Another path: forward to the backward label, and on from there. -/
theorem anotherPath_spec (h : Meets a b df db kf) (hu : 0 ≤ back a b db kf)
    (hv : 0 ≤ back a b db kf - kf) (hdf : df ≤ L) (hdb : db ≤ L) (hL : L < maxDiffs) :
    Solves a b L df db fun p e => e.anotherPath p db (kf - (a.length - b.length)) (back a b db kf)
      (back a b db kf - kf) := by
  have hle := bwd_le h.backward
  obtain ⟨lb, hlb, hlenb, heqb⟩ := backPath h.backward (by omega)
  obtain ⟨D, hD, hcorner⟩ := h.exists_corner hu hv
  have hk : back a b db kf - (back a b db kf - kf) = kf := Int.sub_sub_self _ _
  obtain ⟨lf, hlf, hlenf, heqf⟩ := forward_spec hle.1 hle.2 hL
    ⟨D, hD.trans hdf, by rw [hk]; exact hcorner⟩
  have haligns := (hlf.mono fun x y hcell => ⟨⟨hcell.1.1, by have := hcell.1.2; omega⟩,
    ⟨hcell.2.1.1, by have := hcell.2.1.2; omega⟩, hcell.2.2⟩).append hlb
  have hlen : (lf ++ lb).length ≤ 2 * L + 2 := by
    rw [List.length_append]
    omega
  refine ⟨lf ++ lb, haligns, hlen, fun {p vf vb} hvf hvb => ?_⟩
  obtain ⟨vf', hfwd, hshaped⟩ := @heqf p vf vb hvf.shaped
  refine ⟨vf', vb, ?_, hshaped, hvb.shaped⟩
  beta_reduce
  rw [EditGraph.anotherPath, heqb hvb, ok_bind]
  change (EditGraph.forward p (graph a b L (back a b db kf) (back a b db kf - kf) vf vb) >>= _) = _
  rw [hfwd, ok_bind]
  exact joined_eq _ haligns List.perm_append_comm (le_lcsCap hL hlen)

/-- The cases in which the forward path leads to the forward label. -/
theorem throughForward_spec (h : Meets a b df db kf) (hu : 0 ≤ back a b db kf)
    (hv : 0 ≤ back a b db kf - kf) (hdf : df ≤ L) (hdb : db ≤ L) (hL : L < maxDiffs) :
    Solves a b L df db fun p e => e.throughForward p df db kf (front a b df kf)
      (front a b df kf - kf) (back a b db kf) (back a b db kf - kf) := by
  have hlen : (0 : Int) ≤ a.length := Int.natCast_nonneg _
  have hlen' : (0 : Int) ≤ b.length := Int.natCast_nonneg _
  obtain ⟨lf, hlf, hlenf, heqf⟩ := frontPath (a := a) (b := b) h.forward (by omega)
  obtain ⟨lb, hlb, hlenb, heqb⟩ := backPath h.backward (by omega)
  by_cases hborder : back a b db kf = 0 ∨ back a b db kf - kf = 0 ∨
      front a b df kf = a.length ∨ front a b df kf - kf = b.length
  · by_cases hstart : back a b db kf = 0 ∨ back a b db kf - kf = 0
    · refine .of_ok (hlb.inside inside_cell hlen hlen') (by omega) fun hvf hvb => ?_
      rw [EditGraph.throughForward, graph_ux, graph_uy, graph_delta, if_pos hborder,
        if_pos hstart, heqb hvb, ok_bind]
    · refine .of_ok (hlf.inside inside_cell hlen hlen') (by omega) fun hvf hvb => ?_
      rw [EditGraph.throughForward, graph_ux, graph_uy, graph_delta, if_pos hborder,
        if_neg hstart, heqf hvf, ok_bind]
  -- from the forward label an edge leads to a backward label of the row before
  have hjoin : ∀ {k' x' : Int}, Previous (bwd a b) db (k' - (a.length - b.length)) x' →
      front a b df kf ≤ x' → front a b df kf - kf ≤ x' - k' →
      Solves a b L df db (fun p e => do
        let lcs ← e.backwardlcs p ((db : Int) - 1) (k' - (a.length - b.length))
        let fwd ← e.forwardlcs p df kf
        e.joined p lcs fwd) := by
    intro k' x' hprev hx hy
    obtain ⟨db', rfl, hk', rfl⟩ := hprev
    obtain ⟨lb', hlb', hlenb', heqb'⟩ := backPath hk' (by omega)
    refine .join hlf (hlb'.from_le hx hy) (by omega) hL fun hvf hvb =>
      ⟨lb', lf, List.perm_append_comm, ?_⟩
    have hrow : ((db' + 1 : Nat) : Int) - 1 = db' := by omega
    rw [hrow, heqb' (hvb.mono fun _ _ _ hle => Nat.le_succ_of_le hle), ok_bind, heqf hvf, ok_bind]
  have hvalid := h.backward
  unfold Valid at hvalid
  have hright_k : front a b df kf + 1 - (front a b df kf - kf) - ((a.length : Int) - b.length) =
      kf + 1 - (a.length - b.length) := by omega
  have habove_k : front a b df kf - (front a b df kf - kf + 1) - ((a.length : Int) - b.length) =
      kf - 1 - (a.length - b.length) := by omega
  by_cases hright : decide (front a b df kf + 1 ≤ a.length) = true ∧
      Previous (bwd a b) db (kf + 1 - (a.length - b.length)) (front a b df kf + 1)
  · refine (hjoin hright.2 (by omega) (by omega)).congr fun hvf hvb => ?_
    rw [EditGraph.throughForward, graph_ux, graph_uy, graph_delta, if_neg hborder, graph_vb,
      hright_k, (hvb.below le_rfl).labelled_true hright.1 hright.2, ok_bind, if_pos rfl,
      show kf - ((a.length : Int) - b.length) + 1 = kf + 1 - (a.length - b.length) by omega]
  · by_cases habove : decide (front a b df kf - kf + 1 ≤ b.length) = true ∧
        Previous (bwd a b) db (kf - 1 - (a.length - b.length)) (front a b df kf)
    · refine (hjoin habove.2 le_rfl (by omega)).congr fun hvf hvb => ?_
      rw [EditGraph.throughForward, graph_ux, graph_uy, graph_delta, if_neg hborder, graph_vb,
        hright_k, (hvb.below le_rfl).labelled_false (by omega) hright, ok_bind, if_neg nofun,
        habove_k, (hvb.below le_rfl).labelled_true habove.1 habove.2, ok_bind, if_pos rfl,
        show kf - ((a.length : Int) - b.length) - 1 = kf - 1 - (a.length - b.length) by omega]
    · refine (anotherPath_spec h hu hv hdf hdb hL).congr fun hvf hvb => ?_
      rw [EditGraph.throughForward, graph_ux, graph_uy, graph_delta, if_neg hborder, graph_vb,
        hright_k, (hvb.below le_rfl).labelled_false (by omega) hright, ok_bind, if_neg nofun,
        habove_k, (hvb.below le_rfl).labelled_false (by omega) habove, ok_bind, if_neg nofun]

/-- `twolcs` after it has read the two labels. -/
theorem twolcs_eq (h : Meets a b df db kf) (hvf : Filled p (front a b) vf (Rows df))
    (hvb : Filled p (bwd a b) vb (Rows db)) (e : EditGraph α)
    (he : e = graph a b L a.length b.length vf vb) :
    e.twolcs p df db kf =
      (if front a b df kf = back a b db kf then do
        let lcs ← e.forwardlcs p df kf
        let bwd ← e.backwardlcs p db (kf - (a.length - b.length))
        e.joined p lcs bwd
      else do
        let left ← vf.labelled (decide (back a b db kf > 0)) (df - 1) (kf - 1) (back a b db kf - 1)
        if left then do
          let lcs ← e.forwardlcs p (df - 1) (kf - 1)
          let bwd ← e.backwardlcs p db (kf - (a.length - b.length))
          e.joined p lcs bwd
        else do
          let below ← vf.labelled (decide (back a b db kf - kf > 0)) (df - 1) (kf + 1)
            (back a b db kf)
          if below then do
            let lcs ← e.forwardlcs p (df - 1) (kf + 1)
            let bwd ← e.backwardlcs p db (kf - (a.length - b.length))
            e.joined p lcs bwd
          else
            e.throughForward p df db kf (front a b df kf) (front a b df kf - kf) (back a b db kf)
              (back a b db kf - kf)) := by
  have hleft : back a b db kf - 1 - (back a b db kf - kf) = kf - 1 := by omega
  have hbelow : back a b db kf - (back a b db kf - kf - 1) = kf + 1 := by omega
  subst he
  rw [EditGraph.twolcs, graph_vf, hvf.get df kf h.forward le_rfl, ok_bind, graph_vb, graph_delta]
  dsimp only
  rw [hvb.get db _ h.backward le_rfl, ok_bind, hleft, hbelow]

/-- Every case of `twolcs` gives an alignment of the strings. -/
theorem twolcs_spec (h : Meets a b df db kf) (hu : 0 ≤ back a b db kf)
    (hv : 0 ≤ back a b db kf - kf) (hdf : df ≤ L) (hdb : db ≤ L) (hL : L < maxDiffs) :
    Solves a b L df db fun p e => e.twolcs p df db kf := by
  obtain ⟨lb, hlb, hlenb, heqb⟩ := backPath h.backward (by omega)
  have hvalid := h.forward
  unfold Valid at hvalid
  by_cases hsame : front a b df kf = back a b db kf
  · obtain ⟨lf, hlf, hlenf, heqf⟩ := frontPath (a := a) (b := b) h.forward (by omega)
    rw [hsame] at hlf
    refine .join hlf hlb (by omega) hL fun hvf hvb => ⟨lf, lb, List.Perm.refl _, ?_⟩
    rw [twolcs_eq h hvf hvb _ rfl, if_pos hsame, heqf hvf, ok_bind, heqb hvb, ok_bind]
  -- to the backward label an edge leads from a forward label of the row before
  have hjoin : ∀ {k' x' : Int}, Previous (front a b) df k' x' →
      x' ≤ back a b db kf → x' - k' ≤ back a b db kf - kf →
      Solves a b L df db (fun p e => do
        let lcs ← e.forwardlcs p ((df : Int) - 1) k'
        let back ← e.backwardlcs p db (kf - (a.length - b.length))
        e.joined p lcs back) := by
    intro k' x' hprev hx hy
    obtain ⟨df', rfl, hk', rfl⟩ := hprev
    obtain ⟨lf', hlf', hlenf', heqf'⟩ := frontPath (a := a) (b := b) hk' (by omega)
    refine .join hlf' (hlb.from_le hx hy) (by omega) hL fun hvf hvb =>
      ⟨lf', lb, List.Perm.refl _, ?_⟩
    have hrow : ((df' + 1 : Nat) : Int) - 1 = df' := by omega
    rw [hrow, heqf' (hvf.mono fun _ _ _ hle => Nat.le_succ_of_le hle), ok_bind, heqb hvb, ok_bind]
  by_cases hleft : decide (back a b db kf > 0) = true ∧
      Previous (front a b) df (kf - 1) (back a b db kf - 1)
  · refine (hjoin hleft.2 (by omega) (by omega)).congr fun hvf hvb => ?_
    rw [twolcs_eq h hvf hvb _ rfl, if_neg hsame,
      (hvf.below le_rfl).labelled_true hleft.1 hleft.2, ok_bind, if_pos rfl]
  · by_cases hbelow : decide (back a b db kf - kf > 0) = true ∧
        Previous (front a b) df (kf + 1) (back a b db kf)
    · refine (hjoin hbelow.2 le_rfl (by omega)).congr fun hvf hvb => ?_
      rw [twolcs_eq h hvf hvb _ rfl, if_neg hsame,
        (hvf.below le_rfl).labelled_false (by omega) hleft, ok_bind, if_neg nofun,
        (hvf.below le_rfl).labelled_true hbelow.1 hbelow.2, ok_bind, if_pos rfl]
    · refine (throughForward_spec h hu hv hdf hdb hL).congr fun hvf hvb => ?_
      rw [twolcs_eq h hvf hvb _ rfl, if_neg hsame,
        (hvf.below le_rfl).labelled_false (by omega) hleft, ok_bind, if_neg nofun,
        (hvf.below le_rfl).labelled_false (by omega) hbelow, ok_bind, if_neg nofun]

end Twolcs

end Lcs

end Turbokube
