import Mathlib.Data.List.Pairwise
import Turbokube.EditGrid.Furthest
import Turbokube.Model.Lcs

/-!
# Alignments

`Aligns cell x y l x' y'` says that the diagonals `l` are matching, in order and do not overlap in
either string, from point `(x, y)` to point `(x', y')`.  This is what `toDiffs` needs of a list of
diagonals.
-/

namespace Turbokube

namespace Lcs

open EditGrid

/-- A diagonal with something on it, all of which matches. -/
structure Matches (cell : Int → Int → Prop) (d : Diag) : Prop where
  pos : 0 < d.len
  cells : ∀ i, 0 ≤ i → i < d.len → cell (d.x + i) (d.y + i)

def Aligns (cell : Int → Int → Prop) (x y : Int) : List Diag → Int → Int → Prop
  | [], x', y' => x ≤ x' ∧ y ≤ y'
  | d :: l, x', y' =>
      (x ≤ d.x ∧ y ≤ d.y) ∧ Matches cell d ∧ Aligns cell (d.x + d.len) (d.y + d.len) l x' y'

variable {cell : Int → Int → Prop} {p : Port} {d d' : Diag} {l m : List Diag} {x y x' y' : Int}

theorem Matches.mono {cell' : Int → Int → Prop} (h : Matches cell' d)
    (hcell : ∀ x y, cell' x y → cell x y) : Matches cell d :=
  ⟨h.pos, fun i hi hlt => hcell _ _ (h.cells i hi hlt)⟩

theorem matches_one (hcell : cell x y) : Matches cell ⟨x, y, 1⟩ := by
  refine ⟨Int.one_pos, fun i hi hlt => ?_⟩
  obtain rfl : i = 0 := by
    simp only at hlt
    omega
  simpa using hcell

theorem Matches.inside {U V : Int} (h : Matches cell d) (hin : Inside cell U V) :
    (0 ≤ d.x ∧ 0 ≤ d.y) ∧ d.x + d.len ≤ U ∧ d.y + d.len ≤ V := by
  have hpos := h.pos
  have hfirst := hin _ _ (h.cells 0 le_rfl hpos)
  have hlast := hin _ _ (h.cells (d.len - 1) (by omega) (by omega))
  omega

namespace Aligns

theorem mono {cell' : Int → Int → Prop} (h : Aligns cell' x y l x' y')
    (hcell : ∀ x y, cell' x y → cell x y) : Aligns cell x y l x' y' := by
  induction l generalizing x y with
  | nil => exact h
  | cons d l ih => exact ⟨h.1, h.2.1.mono hcell, ih h.2.2⟩

theorem from_le {x₀ y₀ : Int} (h : Aligns cell x y l x' y') (hx : x₀ ≤ x) (hy : y₀ ≤ y) :
    Aligns cell x₀ y₀ l x' y' := by
  cases l with
  | nil => exact ⟨hx.trans h.1, hy.trans h.2⟩
  | cons d l => exact ⟨⟨hx.trans h.1.1, hy.trans h.1.2⟩, h.2⟩

theorem append {x'' y'' : Int} (h : Aligns cell x y l x' y') (h' : Aligns cell x' y' m x'' y'') :
    Aligns cell x y (l ++ m) x'' y'' := by
  induction l generalizing x y with
  | nil => exact h'.from_le h.1 h.2
  | cons d l ih => exact ⟨h.1, h.2.1, ih h.2.2⟩

/-- The diagonals of a rectangle are an alignment of the whole rectangle. -/
theorem inside {U V : Int} (hin : Inside cell U V) (hU : 0 ≤ U) (hV : 0 ≤ V)
    (h : Aligns cell x y l x' y') : Aligns cell 0 0 l U V := by
  have hrest : ∀ {l : List Diag} {x y : Int}, x ≤ U → y ≤ V → Aligns cell x y l x' y' →
      Aligns cell x y l U V := by
    intro l
    induction l with
    | nil => exact fun hx hy _ => ⟨hx, hy⟩
    | cons d l ih =>
        intro x y _ _ h
        have hd := h.2.1.inside hin
        exact ⟨h.1, h.2.1, ih hd.2.1 hd.2.2 h.2.2⟩
  cases l with
  | nil => exact ⟨hU, hV⟩
  | cons d l =>
      have hd := h.2.1.inside hin
      exact ⟨hd.1, h.2.1, hrest hd.2.1 hd.2.2 h.2.2⟩

theorem matches_of_mem (h : Aligns cell x y l x' y') (hd : d ∈ l) : Matches cell d := by
  induction l generalizing x y with
  | nil => cases hd
  | cons d₀ l ih =>
      rcases List.mem_cons.mp hd with rfl | hd
      · exact h.2.1
      · exact ih h.2.2 hd

theorem le_of_mem (h : Aligns cell x y l x' y') (hd : d ∈ l) : x ≤ d.x ∧ y ≤ d.y := by
  induction l generalizing x y with
  | nil => cases hd
  | cons d₀ l ih =>
      rcases List.mem_cons.mp hd with rfl | hd
      · exact h.1
      · have hle := ih h.2.2 hd
        have hpos := h.2.1.pos
        have hfirst := h.1
        omega

theorem pairwise (h : Aligns cell x y l x' y') : l.Pairwise fun d d' => d.x < d'.x := by
  induction l generalizing x y with
  | nil => exact .nil
  | cons d l ih =>
      refine .cons (fun d' hd' => ?_) (ih h.2.2)
      have hle := h.2.2.le_of_mem hd'
      have hpos := h.2.1.pos
      omega

end Aligns

/-- Diagonals of which each ends before the next begins are an alignment. -/
theorem aligns_of_pairwise {U V : Int} (hx : x ≤ U) (hy : y ≤ V)
    (hfirst : ∀ d ∈ l, x ≤ d.x ∧ y ≤ d.y) (hlast : ∀ d ∈ l, d.x + d.len ≤ U ∧ d.y + d.len ≤ V)
    (hmatch : ∀ d ∈ l, Matches cell d)
    (hl : l.Pairwise fun d d' => d.x + d.len ≤ d'.x ∧ d.y + d.len ≤ d'.y) :
    Aligns cell x y l U V := by
  induction l generalizing x y with
  | nil => exact ⟨hx, hy⟩
  | cons d l ih =>
      rw [List.forall_mem_cons] at hfirst hlast hmatch
      rw [List.pairwise_cons] at hl
      exact ⟨hfirst.1, hmatch.1, ih hlast.1.1 hlast.1.2 hl.1 hlast.2 hmatch.2 hl.2⟩

section Lists

theorem fits_eq (hl : l.length ≤ lcsCap) : fits p l = .ok l := by
  cases p with
  | go => rfl
  | zig => exact if_pos hl

/-- The edge below the first diagonal either makes that longer or begins a new one. -/
theorem prepend_spec (hl : l.length < lcsCap) (h : Aligns cell (x + 1) (y + 1) l x' y')
    (hcell : cell x y) :
    ∃ m, (∀ p, prepend p l x y = .ok m) ∧ Aligns cell x y m x' y' ∧ m.length ≤ l.length + 1 ∧
      (∃ d m', m = d :: m' ∧ d.x = x ∧ d.y = y) ∧
      ∀ d l', l = d :: l' → d.x = x + 1 → d.y = y + 1 → m.length = l.length := by
  have hnew := matches_one hcell
  cases l with
  | nil =>
      refine ⟨[⟨x, y, 1⟩], fun p => fits_eq (show 1 ≤ 64 by decide), ⟨⟨le_rfl, le_rfl⟩, hnew, h⟩,
        le_rfl, ⟨_, _, rfl, rfl, rfl⟩, nofun⟩
  | cons d l =>
      by_cases hadj : d.x = x + 1 ∧ d.y = y + 1
      · refine ⟨⟨x, y, d.len + 1⟩ :: l, fun p => if_pos hadj, ⟨⟨le_rfl, le_rfl⟩, ?_, ?_⟩,
          Nat.le_succ _, ⟨_, _, rfl, rfl, rfl⟩, fun _ _ _ _ _ => rfl⟩
        · have hpos := h.2.1.pos
          refine ⟨by simp only; omega, fun i hi hlt => ?_⟩
          by_cases hzero : i = 0
          · subst hzero
            simpa using hcell
          · have hc := h.2.1.cells (i - 1) (by omega) (by simp only at hlt; omega)
            rw [hadj.1, hadj.2] at hc
            have hx : x + 1 + (i - 1) = x + i := by omega
            have hy : y + 1 + (i - 1) = y + i := by omega
            rwa [hx, hy] at hc
        · exact h.2.2.from_le (by simp only; omega) (by simp only; omega)
      · refine ⟨⟨x, y, 1⟩ :: d :: l, fun p => ?_, ⟨⟨le_rfl, le_rfl⟩, hnew, h⟩, le_rfl,
          ⟨_, _, rfl, rfl, rfl⟩, ?_⟩
        · rw [prepend, if_neg hadj]
          exact fits_eq hl
        · intro d' l' heq hx hy
          obtain ⟨rfl, -⟩ := List.cons.inj heq
          exact absurd ⟨hx, hy⟩ hadj

theorem Aligns.concat (h : Aligns cell x y l x' y') (hcell : Matches cell d) (hx : x' ≤ d.x)
    (hy : y' ≤ d.y) : Aligns cell x y (l ++ [d]) (d.x + d.len) (d.y + d.len) :=
  h.append ⟨⟨hx, hy⟩, hcell, le_rfl, le_rfl⟩

theorem aligns_concat (h : Aligns cell x y (l ++ [d]) x' y') :
    Aligns cell x y l d.x d.y ∧ Matches cell d ∧ d.x + d.len ≤ x' ∧ d.y + d.len ≤ y' := by
  induction l generalizing x y with
  | nil => exact ⟨h.1, h.2⟩
  | cons d₀ l ih =>
      have hrest := ih h.2.2
      exact ⟨⟨h.1, h.2.1, hrest.1⟩, hrest.2⟩

/-- The edge above the last diagonal. -/
theorem append_spec (hl : l.length < lcsCap) (h : Aligns cell x' y' l x y) (hcell : cell x y) :
    ∃ m, (∀ p, append p l x y = .ok m) ∧ Aligns cell x' y' m (x + 1) (y + 1) ∧
      m.length ≤ l.length + 1 ∧
      (∃ m' d, m = m' ++ [d] ∧ d.x + d.len = x + 1 ∧ d.y + d.len = y + 1) ∧
      ∀ l' d, l = l' ++ [d] → d.x + d.len = x → d.y + d.len = y → m.length = l.length := by
  have hnew := matches_one hcell
  rcases List.eq_nil_or_concat' l with rfl | ⟨l, d, rfl⟩
  · exact ⟨[⟨x, y, 1⟩], fun p => fits_eq (show 1 ≤ 64 by decide), h.concat hnew le_rfl le_rfl,
      le_rfl, ⟨[], _, rfl, rfl, rfl⟩, fun l' d heq => by simp at heq⟩
  · obtain ⟨hfront, hmatch, hx, hy⟩ := aligns_concat h
    by_cases hadj : d.x + d.len = x ∧ d.y + d.len = y
    · have hlong : Matches cell ⟨d.x, d.y, d.len + 1⟩ := by
        have hpos := hmatch.pos
        refine ⟨by simp only; omega, fun i hi hlt => ?_⟩
        by_cases hend : i = d.len
        · subst hend
          simp only
          rwa [hadj.1, hadj.2]
        · exact hmatch.cells i hi (by simp only at hlt; omega)
      have haligns := hfront.concat hlong le_rfl le_rfl
      have hx' : d.x + (d.len + 1) = x + 1 := by omega
      have hy' : d.y + (d.len + 1) = y + 1 := by omega
      simp only [hx', hy'] at haligns
      refine ⟨l ++ [⟨d.x, d.y, d.len + 1⟩], fun p => ?_, haligns, ?_, ⟨l, _, rfl, hx', hy'⟩, ?_⟩
      · simp only [append, List.getLast?_append, List.getLast?_singleton,
          Option.some_or, List.dropLast_concat, if_pos hadj]
      · simp
      · intros
        simp
    · refine ⟨l ++ [d] ++ [⟨x, y, 1⟩], fun p => ?_, h.concat hnew le_rfl le_rfl, ?_,
        ⟨_, _, rfl, rfl, rfl⟩, ?_⟩
      · simp only [append, List.getLast?_append, List.getLast?_singleton,
          Option.some_or, if_neg hadj]
        apply fits_eq
        simp only [List.length_append, List.length_singleton] at hl ⊢
        omega
      · simp
      · intro l' d' heq hx hy
        have hlast : d = d' := by
          have := congrArg List.getLast? heq
          simpa using this
        exact absurd ⟨hlast ▸ hx, hlast ▸ hy⟩ hadj

end Lists

section Sorting

theorem less_eq_false_iff : less d' d = false ↔ d.x < d'.x ∨ d.x = d'.x ∧ d'.len ≤ d.len := by
  rw [less]
  split
  · rw [decide_eq_false_iff_not]
    omega
  · rw [decide_eq_false_iff_not]
    omega

theorem sort_perm (l : List Diag) : (sort l).Perm l := List.perm_insertionSort _ l

theorem sort_pairwise (l : List Diag) : (sort l).Pairwise fun d d' => d.x ≤ d'.x := by
  have : Std.Total fun d d' : Diag => less d' d = false := by
    refine ⟨fun d d' => ?_⟩
    rw [less_eq_false_iff, less_eq_false_iff]
    omega
  have : IsTrans Diag fun d d' => less d' d = false := by
    refine ⟨fun d d' d'' h h' => ?_⟩
    rw [less_eq_false_iff] at h h' ⊢
    omega
  refine (List.pairwise_insertionSort _ l).imp fun h => ?_
  rw [less_eq_false_iff] at h
  omega

/-- An alignment is sorted, so sorting its diagonals gives it back. -/
theorem sort_eq (h : Aligns cell x y l x' y') (hperm : m.Perm l) : sort m = l := by
  have hl := h.pairwise
  have hsort := (sort_perm m).trans hperm
  refine hsort.eq_of_pairwise (fun d d' hd hd' hle hge => ?_) (sort_pairwise m) (hl.imp le_of_lt)
  by_contra hne
  have : Std.Symm fun d d' : Diag => d.x ≠ d'.x := ⟨fun _ _ h => h.symm⟩
  exact (hl.imp ne_of_lt).forall (hsort.subset hd) hd' hne (le_antisymm hle hge)

end Sorting

end Lcs

end Turbokube
