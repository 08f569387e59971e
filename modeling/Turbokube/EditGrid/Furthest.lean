import Mathlib.Order.MinMax
import Mathlib.Tactic.Push

/-!
# Furthest reaching points

An edit grid has a diagonal edge from `(x, y)` to `(x + 1, y + 1)` in every cell that matches, and
all horizontal and vertical edges, also outside the rectangle of the cells.  The diagonal of a point
is `k = x - y`.  `F D k` is the `x` of the furthest point of diagonal `k` that a greedy path with
`D` horizontal and vertical edges gets to: one more such edge from a neighbouring diagonal, and then
along the diagonal as far as the cells match.

Diagonal `k` has a label in row `D` if `Valid D k`.
-/

namespace EditGrid

def Valid (D : Nat) (k : Int) : Prop := -(D : Int) ≤ k ∧ k ≤ D ∧ ((D : Int) + k) % 2 = 0

instance (D : Nat) (k : Int) : Decidable (Valid D k) :=
  inferInstanceAs (Decidable (-(D : Int) ≤ k ∧ k ≤ D ∧ ((D : Int) + k) % 2 = 0))

/-- Along diagonal `k` from `x` as far as the cells match. -/
structure Slides (cell : Int → Int → Prop) (k x x' : Int) : Prop where
  le : x ≤ x'
  run : ∀ t, x ≤ t → t < x' → cell t (t - k)
  stop : ¬ cell x' (x' - k)

/-- Where row `D + 1` enters diagonal `k`. -/
def start (row : Int → Int) (D : Nat) (k : Int) : Int :=
  if k = -((D : Int) + 1) then row (k + 1)
  else if k = (D : Int) + 1 then row (k - 1) + 1
  else max (row (k - 1) + 1) (row (k + 1))

structure Furthest (cell : Int → Int → Prop) (F : Nat → Int → Int) : Prop where
  zero : Slides cell 0 0 (F 0 0)
  succ : ∀ D k, Valid (D + 1) k → Slides cell k (start (F D) D k) (F (D + 1) k)

/-- The labels that a way to slide gives. -/
def furthest (slide : Int → Int → Int) : Nat → Int → Int
  | 0, k => slide k 0
  | D + 1, k => slide k (start (furthest slide D) D k)

theorem furthest_furthest {cell : Int → Int → Prop} {slide : Int → Int → Int}
    (h : ∀ k x, Slides cell k x (slide k x)) : Furthest cell (furthest slide) :=
  ⟨h 0 0, fun D k _ => h k (start (furthest slide D) D k)⟩

/-- Where row `D` enters diagonal `k`. -/
def entry (F : Nat → Int → Int) : Nat → Int → Int
  | 0, _ => 0
  | D + 1, k => start (F D) D k

/-- A point between the entry to a diagonal and its label. -/
structure OnPath (F : Nat → Int → Int) (D : Nat) (k x : Int) : Prop where
  valid : Valid D k
  entry_le : entry F D k ≤ x
  le : x ≤ F D k

/-- The cells of a rectangle. -/
def Inside (cell : Int → Int → Prop) (U V : Int) : Prop :=
  ∀ x y, cell x y → (0 ≤ x ∧ x < U) ∧ 0 ≤ y ∧ y < V

section Valid

variable {D : Nat} {k : Int}

theorem valid_zero : Valid 0 k ↔ k = 0 := by
  unfold Valid
  omega

theorem Valid.left (h : Valid (D + 1) k) (hk : k ≠ -((D : Int) + 1)) : Valid D (k - 1) := by
  unfold Valid at h ⊢
  omega

theorem Valid.right (h : Valid (D + 1) k) (hk : k ≠ (D : Int) + 1) : Valid D (k + 1) := by
  unfold Valid at h ⊢
  omega

theorem Valid.up (h : Valid D k) : Valid (D + 1) (k + 1) ∧ Valid (D + 1) (k - 1) := by
  unfold Valid at h ⊢
  omega

theorem valid_neg (h : Valid D k) : Valid D (-k) := by
  unfold Valid at h ⊢
  omega

theorem valid_first (D : Nat) : Valid D (-D) := by
  unfold Valid
  omega

theorem valid_last (D : Nat) : Valid D D := by
  unfold Valid
  omega

/-- The place of diagonal `k` in row `D`. -/
theorem Valid.exists_place (h : Valid D k) : ∃ i : Nat, i ≤ D ∧ (D : Int) + k = 2 * i := by
  unfold Valid at h
  exact ⟨(((D : Int) + k) / 2).toNat, by omega, by omega⟩

end Valid

section Start

variable {D : Nat} {k : Int}

theorem start_first (row : Int → Int) (D : Nat) : start row D (-((D : Int) + 1)) = row (-D) := by
  rw [start, if_pos rfl]
  congr 1
  omega

theorem start_last (row : Int → Int) (D : Nat) : start row D ((D : Int) + 1) = row D + 1 := by
  rw [start, if_neg (by omega), if_pos rfl, Int.add_sub_cancel]

theorem start_inner (row : Int → Int) (hfirst : k ≠ -((D : Int) + 1)) (hlast : k ≠ (D : Int) + 1) :
    start row D k = max (row (k - 1) + 1) (row (k + 1)) := by
  rw [start, if_neg hfirst, if_neg hlast]

theorem start_cases (row : Int → Int) (h : Valid (D + 1) k) :
    (Valid D (k - 1) ∧ start row D k = row (k - 1) + 1) ∨
      Valid D (k + 1) ∧ start row D k = row (k + 1) := by
  rw [start]
  by_cases hleft : k = -((D : Int) + 1)
  · rw [if_pos hleft]
    exact .inr ⟨h.right (by omega), rfl⟩
  · rw [if_neg hleft]
    by_cases hright : k = (D : Int) + 1
    · rw [if_pos hright]
      exact .inl ⟨h.left hleft, rfl⟩
    · rw [if_neg hright]
      rcases max_cases (row (k - 1) + 1) (row (k + 1)) with ⟨heq, -⟩ | ⟨heq, -⟩
      · exact .inl ⟨h.left hleft, heq⟩
      · exact .inr ⟨h.right hright, heq⟩

theorem left_le_start (row : Int → Int) (h : Valid D (k - 1)) :
    row (k - 1) + 1 ≤ start row D k := by
  have hleft : k ≠ -((D : Int) + 1) := by
    unfold Valid at h
    omega
  rw [start, if_neg hleft]
  split
  · exact le_rfl
  · exact le_max_left _ _

theorem right_le_start (row : Int → Int) (h : Valid D (k + 1)) :
    row (k + 1) ≤ start row D k := by
  have hright : k ≠ (D : Int) + 1 := by
    unfold Valid at h
    omega
  rw [start, if_neg hright]
  split
  · exact le_rfl
  · exact le_max_right _ _

end Start

namespace Slides

variable {cell : Int → Int → Prop} {k x y x' y' : Int}

/-- Sliding from a point on the way ends at the same point. -/
theorem unique (h : Slides cell k x x') (h' : Slides cell k y y') (hy : x ≤ y) (hle : y ≤ x') :
    y' = x' := by
  rcases lt_trichotomy x' y' with hlt | heq | hlt
  · exact absurd (h'.run x' hle hlt) h.stop
  · exact heq.symm
  · exact absurd (h.run y' (hy.trans h'.le) hlt) h'.stop

/-- Sliding from the larger of two points is as good as sliding from both. -/
theorem max (hx : Slides cell k x x') (hy : Slides cell k y y') :
    Slides cell k (Max.max x y) (Max.max x' y') := by
  -- the smaller one slides past the larger one, or stops before it
  have hcase : ∀ {x y x' y' : Int}, Slides cell k x x' → Slides cell k y y' → x ≤ y →
      Slides cell k y (Max.max x' y') := by
    intro x y x' y' hx hy hxy
    by_cases hpast : y ≤ x'
    · rw [hx.unique hy hxy hpast, max_self]
      exact ⟨hpast, fun t ht => hx.run t (hxy.trans ht), hx.stop⟩
    · rw [max_eq_right ((not_le.mp hpast).le.trans hy.le)]
      exact hy
  rcases le_total x y with hxy | hyx
  · rw [max_eq_right hxy]
    exact hcase hx hy hxy
  · rw [max_eq_left hyx, max_comm x' y']
    exact hcase hy hx hyx

end Slides

namespace Furthest

variable {cell : Int → Int → Prop} {F : Nat → Int → Int} {U V : Int} {D : Nat} {k : Int}

theorem start_le (h : Furthest cell F) (hk : Valid (D + 1) k) : start (F D) D k ≤ F (D + 1) k :=
  (h.succ D k hk).le

theorem left_lt (h : Furthest cell F) (hk : Valid D k) : F D k + 1 ≤ F (D + 1) (k + 1) := by
  have hle := left_le_start (k := k + 1) (F D) (by rw [Int.add_sub_cancel]; exact hk)
  rw [Int.add_sub_cancel] at hle
  exact hle.trans (h.start_le hk.up.1)

theorem right_le (h : Furthest cell F) (hk : Valid D k) : F D k ≤ F (D + 1) (k - 1) := by
  have hle := right_le_start (k := k - 1) (F D) (by rw [Int.sub_add_cancel]; exact hk)
  rw [Int.sub_add_cancel] at hle
  exact hle.trans (h.start_le hk.up.2)

/-- Both coordinates of a label and of the entry to its diagonal are at least 0. -/
theorem nonneg (h : Furthest cell F) : ∀ D k, Valid D k → 0 ≤ F D k ∧ 0 ≤ F D k - k := by
  intro D
  induction D with
  | zero =>
      intro k hk
      obtain rfl := valid_zero.mp hk
      have := h.zero.le
      omega
  | succ D ih =>
      intro k hk
      have hle := h.start_le hk
      rcases start_cases (F D) hk with ⟨hleft, heq⟩ | ⟨hright, heq⟩
      · have := ih (k - 1) hleft
        omega
      · have := ih (k + 1) hright
        omega

theorem start_nonneg (h : Furthest cell F) (hk : Valid (D + 1) k) :
    0 ≤ start (F D) D k ∧ 0 ≤ start (F D) D k - k := by
  rcases start_cases (F D) hk with ⟨hleft, heq⟩ | ⟨hright, heq⟩
  · have := h.nonneg D (k - 1) hleft
    omega
  · have := h.nonneg D (k + 1) hright
    omega

theorem onPath (h : Furthest cell F) (hk : Valid D k) : OnPath F D k (F D k) := by
  refine ⟨hk, ?_, le_rfl⟩
  cases D with
  | zero =>
      obtain rfl := valid_zero.mp hk
      exact h.zero.le
  | succ D => exact h.start_le hk

theorem onPath_nonneg (h : Furthest cell F) {x : Int} (hx : OnPath F D k x) :
    0 ≤ x ∧ 0 ≤ x - k := by
  have hentry := hx.entry_le
  cases D with
  | zero =>
      obtain rfl := valid_zero.mp hx.valid
      rw [entry] at hentry
      omega
  | succ D =>
      have hstart := h.start_nonneg hx.valid
      rw [entry] at hentry
      omega

/-- Back along the diagonal, from a point that is neither the origin nor next to a label of the row
before. -/
theorem step_back (h : Furthest cell F) {x : Int} (hx : OnPath F D k x)
    (horigin : ¬ (x = 0 ∧ x - k = 0))
    (hleft : ∀ D', D = D' + 1 → Valid D' (k - 1) → F D' (k - 1) ≠ x - 1)
    (hbelow : ∀ D', D = D' + 1 → Valid D' (k + 1) → F D' (k + 1) ≠ x) :
    cell (x - 1) (x - 1 - k) ∧ OnPath F D k (x - 1) := by
  have hentry := hx.entry_le
  have hle := hx.le
  cases D with
  | zero =>
      obtain rfl := valid_zero.mp hx.valid
      rw [entry] at hentry
      exact ⟨h.zero.run (x - 1) (by omega) (by omega), hx.valid, by rw [entry]; omega, by omega⟩
  | succ D =>
      rw [entry] at hentry
      -- the entry itself is next to a label
      have hne : start (F D) D k ≠ x := by
        rcases start_cases (F D) hx.valid with ⟨hk, heq⟩ | ⟨hk, heq⟩
        · have := hleft D rfl hk
          omega
        · have := hbelow D rfl hk
          omega
      have hcell := (h.succ D k hx.valid).run (x - 1) (by omega) (by omega)
      exact ⟨hcell, hx.valid, by rw [entry]; omega, by omega⟩

/-- A label that slid is inside the rectangle. -/
theorem eq_start_of_outside (h : Furthest cell F) (hin : Inside cell U V) (hk : Valid (D + 1) k)
    (hout : U < F (D + 1) k ∨ V < F (D + 1) k - k) : F (D + 1) k = start (F D) D k := by
  have hslide := h.succ D k hk
  by_contra hne
  have hlt : start (F D) D k < F (D + 1) k := lt_of_le_of_ne hslide.le (Ne.symm hne)
  have hlast := hin _ _ (hslide.run (F (D + 1) k - 1) (by omega) (by omega))
  omega

theorem zero_inside (h : Furthest cell F) (hin : Inside cell U V) (hU : 0 ≤ U) (hV : 0 ≤ V) :
    F 0 0 ≤ U ∧ F 0 0 ≤ V := by
  by_cases hzero : F 0 0 = 0
  · omega
  · have hle := h.zero.le
    have hlast := hin _ _ (h.zero.run (F 0 0 - 1) (by omega) (by omega))
    omega

/-- A label above the rectangle was already that far one diagonal to the right. -/
theorem above (h : Furthest cell F) (hin : Inside cell U V) (hU : 0 ≤ U) (hV : 0 ≤ V) :
    ∀ D k, Valid D k → V < F D k - k →
      ∃ D', D = D' + 1 ∧ Valid D' (k + 1) ∧ F D k ≤ F D' (k + 1) := by
  intro D
  induction D with
  | zero =>
      intro k hk hout
      obtain rfl := valid_zero.mp hk
      have := (h.zero_inside hin hU hV).2
      omega
  | succ D ih =>
      intro k hk hout
      have heq := h.eq_start_of_outside hin hk (.inr hout)
      refine ⟨D, rfl, ?_⟩
      rcases start_cases (F D) hk with ⟨hleft, hstart⟩ | ⟨hright, hstart⟩
      · -- it came from the left, where it was above the rectangle too
        obtain ⟨D', rfl, hk', hle⟩ := ih (k - 1) hleft (by omega)
        rw [Int.sub_add_cancel] at hk' hle
        have hnext := h.left_lt hk'
        exact ⟨hk'.up.1, by omega⟩
      · exact ⟨hright, by omega⟩

/-- A label to the right of the rectangle was one edge before that far one diagonal to the left. -/
theorem beyond (h : Furthest cell F) (hin : Inside cell U V) (hU : 0 ≤ U) (hV : 0 ≤ V) :
    ∀ D k, Valid D k → U < F D k →
      ∃ D', D = D' + 1 ∧ Valid D' (k - 1) ∧ F D k ≤ F D' (k - 1) + 1 := by
  intro D
  induction D with
  | zero =>
      intro k hk hout
      obtain rfl := valid_zero.mp hk
      have := (h.zero_inside hin hU hV).1
      omega
  | succ D ih =>
      intro k hk hout
      have heq := h.eq_start_of_outside hin hk (.inl hout)
      refine ⟨D, rfl, ?_⟩
      rcases start_cases (F D) hk with ⟨hleft, hstart⟩ | ⟨hright, hstart⟩
      · exact ⟨hleft, by omega⟩
      · obtain ⟨D', rfl, hk', hle⟩ := ih (k + 1) hright (by omega)
        rw [Int.add_sub_cancel] at hk' hle
        have hnext := h.right_le hk'
        exact ⟨hk'.up.2, by omega⟩

/-- Every edge leads at most one step outside. -/
theorem excess (h : Furthest cell F) (hin : Inside cell U V) (hU : 0 ≤ U) (hV : 0 ≤ V) :
    ∀ D k, Valid D k → F D k ≤ U + D ∧ F D k - k ≤ V + D := by
  intro D
  induction D with
  | zero =>
      intro k hk
      obtain rfl := valid_zero.mp hk
      have := h.zero_inside hin hU hV
      omega
  | succ D ih =>
      intro k hk
      have hstart : start (F D) D k ≤ U + (D + 1) ∧ start (F D) D k - k ≤ V + (D + 1) := by
        rcases start_cases (F D) hk with ⟨hleft, heq⟩ | ⟨hright, heq⟩
        · have := ih (k - 1) hleft
          omega
        · have := ih (k + 1) hright
          omega
      by_cases hout : U < F (D + 1) k ∨ V < F (D + 1) k - k
      · have heq := h.eq_start_of_outside hin hk hout
        push_cast
        omega
      · push_cast
        omega

/-- A label past the corner of the rectangle on its diagonal was there two rows earlier, but for one
step. -/
theorem corner (h : Furthest cell F) (hin : Inside cell U V) (hU : 0 ≤ U) (hV : 0 ≤ V)
    (hk : Valid D (U - V)) (hpast : U < F D (U - V)) :
    ∃ D', D = D' + 2 ∧ Valid D' (U - V) ∧ F D (U - V) ≤ F D' (U - V) + 1 := by
  obtain ⟨D₁, rfl, hk₁, hle₁⟩ := h.beyond hin hU hV D (U - V) hk hpast
  obtain ⟨D₂, rfl, hk₂, hle₂⟩ := h.above hin hU hV D₁ (U - V - 1) hk₁ (by omega)
  rw [Int.sub_add_cancel] at hk₂ hle₂
  exact ⟨D₂, rfl, hk₂, by omega⟩

/-- If a row gets to the corner or past it, then it or an earlier row gets to it exactly. -/
theorem exists_corner (h : Furthest cell F) (hin : Inside cell U V) (hU : 0 ≤ U) (hV : 0 ≤ V) :
    ∀ D, Valid D (U - V) → U ≤ F D (U - V) → ∃ D' ≤ D, Valid D' (U - V) ∧ F D' (U - V) = U := by
  intro D
  induction D using Nat.strong_induction_on with
  | _ D ih =>
      intro hk hreach
      by_cases hpast : U < F D (U - V)
      · obtain ⟨D', rfl, hk', hle⟩ := h.corner hin hU hV hk hpast
        obtain ⟨D'', hle'', hk'', heq⟩ := ih D' (by omega) hk' (by omega)
        exact ⟨D'', by omega, hk'', heq⟩
      · exact ⟨D, le_rfl, hk, by omega⟩

/-- In a smaller rectangle labels get as far as before, up to its borders. -/
theorem restrict {cell' : Int → Int → Prop} {F' : Nat → Int → Int} {u v : Int}
    (h : Furthest cell F) (h' : Furthest cell' F')
    (hcell : ∀ x y, cell x y → x < u → y < v → cell' x y) :
    ∀ D k, Valid D k → min (F D k) (min u (v + k)) ≤ F' D k := by
  -- a slide from at least as far on, unless that is at a border already
  have hslide : ∀ {k s s' x x' : Int}, Slides cell k s x → Slides cell' k s' x' →
      min s (min u (v + k)) ≤ s' → min x (min u (v + k)) ≤ x' := by
    intro k s s' x x' hx hx' hstart
    by_contra hlt
    have hle := hx'.le
    exact hx'.stop (hcell _ _ (hx.run x' (by omega) (by omega)) (by omega) (by omega))
  intro D
  induction D with
  | zero =>
      intro k hk
      obtain rfl := valid_zero.mp hk
      exact hslide h.zero h'.zero (by omega)
  | succ D ih =>
      intro k hk
      refine hslide (h.succ D k hk) (h'.succ D k hk) ?_
      rcases start_cases (F D) hk with ⟨hleft, heq⟩ | ⟨hright, heq⟩
      · have hprev := ih (k - 1) hleft
        have hle := left_le_start (F' D) hleft
        omega
      · have hprev := ih (k + 1) hright
        have hle := right_le_start (F' D) hright
        omega

/-- If every label of a row is outside the rectangle, one of the row before is past its corner. -/
theorem exists_past_corner (h : Furthest cell F) (hin : Inside cell U V) (hU : 0 ≤ U)
    (hV : 0 ≤ V) (hout : ∀ k, Valid D k → U < F D k ∨ V < F D k - k) :
    ∃ D' k, D = D' + 1 ∧ Valid D' k ∧ U ≤ F D' k ∧ V ≤ F D' k - k := by
  -- the leftmost label is above, the rightmost one is not
  have hgo : ∀ n : Nat, n ≤ D → V < F D (-D + 2 * n) - (-D + 2 * n) ∨
      ∃ D' k, D = D' + 1 ∧ Valid D' k ∧ U ≤ F D' k ∧ V ≤ F D' k - k := by
    intro n
    induction n with
    | zero =>
        intro _
        have hk : Valid D (-D + 2 * (0 : Nat)) := by
          unfold Valid
          omega
        rcases hout _ hk with hright | habove
        · obtain ⟨D', rfl, hk', -⟩ := h.beyond hin hU hV _ _ hk hright
          unfold Valid at hk'
          push_cast at hk'
          omega
        · exact .inl habove
    | succ n ih =>
        intro hn
        have hk : Valid D (-D + 2 * (n + 1 : Nat)) := by
          unfold Valid
          push_cast
          omega
        have hk₀ : Valid D (-D + 2 * (n : Nat)) := by
          unfold Valid
          omega
        rcases ih (by omega) with habove₀ | hdone
        · rcases hout _ hk with hright | habove
          · obtain ⟨D', rfl, hk', hle'⟩ := h.beyond hin hU hV _ _ hk hright
            obtain ⟨D'', heq, -, hle''⟩ := h.above hin hU hV _ _ hk₀ habove₀
            obtain rfl : D' = D'' := by omega
            have hmid : -((D' + 1 : Nat) : Int) + 2 * ((n + 1 : Nat) : Int) - 1 =
                -((D' + 1 : Nat) : Int) + 2 * (n : Int) + 1 := by
              push_cast
              omega
            rw [hmid] at hk' hle'
            exact .inr ⟨D', _, rfl, hk', by omega, by omega⟩
          · exact .inl habove
        · exact .inr hdone
  rcases hgo D le_rfl with habove | hdone
  · have hk : Valid D (-D + 2 * (D : Nat)) := by
      unfold Valid
      omega
    obtain ⟨D', rfl, hk', -⟩ := h.above hin hU hV _ _ hk habove
    unfold Valid at hk'
    push_cast at hk'
    omega
  · exact hdone

end Furthest

end EditGrid
