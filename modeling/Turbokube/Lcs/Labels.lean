import Turbokube.Lcs.Alignment

/-!
# The label tables

The tables come from a pool and hold what earlier searches left there.  `Filled p F t K` says that
table `t` has rows of the right length and, in the cells `K`, the labels `F`.  Every lemma is about
all tables that are filled so, hence what a search reads is what it has written itself.
-/

namespace Turbokube

namespace Lcs

open EditGrid

theorem ok_bind {β γ : Type} (b : β) (f : β → Except Fault γ) : (Except.ok b >>= f) = f b := rfl

section Tables

variable {p : Port} {t : Label} {D : Nat} {k x : Int} {F : Nat → Int → Int}
  {K : Nat → Int → Prop}

/-- A row of the Go table is `nil` or has a cell for each diagonal. -/
def Label.Shaped (p : Port) (t : Label) : Prop :=
  match p with
  | .go => ∀ D row, t[D]? = some row → row = [] ∨ row.length = D + 1
  | .zig => t.length = maxDiffs ∧ ∀ row ∈ t, row.length = maxDiffs

theorem Label.shaped_new (p : Port) : (Label.new p).Shaped p := by
  cases p with
  | go =>
      intro D row h
      exact .inl (List.eq_of_mem_replicate (List.mem_of_getElem? h))
  | zig =>
      refine ⟨List.length_replicate, fun row hrow => ?_⟩
      rw [List.eq_of_mem_replicate hrow, List.length_replicate]

theorem index_eq_ok {β : Type} {l : List β} {i : Nat} {b : β} (h : l[i]? = some b) :
    index l i = .ok b := by
  simp only [index, if_neg (show ¬ (i : Int) < 0 by omega), Int.toNat_natCast, h]

theorem index_eq_error {β : Type} {l : List β} {i : Nat} (h : l[i]? = none) :
    index l i = .error .outOfRange := by
  simp only [index, if_neg (show ¬ (i : Int) < 0 by omega), Int.toNat_natCast, h]

theorem tdiv_two_mul (i : Nat) : (2 * (i : Int)).tdiv 2 = i := by
  rw [Int.mul_tdiv_cancel_left _ (by decide)]

theorem Label.get_eq_ok_iff {i : Nat} {v : Int} (hi : (D : Int) + k = 2 * i) :
    t.get D k = .ok v ↔ ∃ row, t[D]? = some row ∧ row[i]? = some (some v) := by
  rw [Label.get, hi, tdiv_two_mul]
  cases hrow : t[D]? with
  | none =>
      rw [index_eq_error hrow]
      exact iff_of_false nofun (by simp)
  | some row =>
      rw [index_eq_ok hrow, ok_bind]
      cases hcell : row[i]? with
      | none =>
          rw [index_eq_error hcell]
          exact iff_of_false nofun (by simp [hcell])
      | some cell =>
          rw [index_eq_ok hcell, ok_bind]
          cases cell with
          | none => exact iff_of_false nofun (by simp [hcell])
          | some v' => simp [hcell]

theorem Label.grow_getElem? (t : Label) (D D' : Nat) :
    (t.grow D)[D']? =
      if D' = D then
        some (if (t[D]?.getD []).isEmpty then List.replicate (D + 1) (some 0) else t[D]?.getD [])
      else if D' < t.length then t[D']? else if D' ≤ D then some [] else none := by
  rw [Label.grow, List.getElem?_modify]
  by_cases heq : D' = D
  · subst heq
    rw [if_pos rfl]
    by_cases hlen : D' < t.length
    · rw [List.getElem?_append_left hlen, List.getElem?_eq_getElem hlen]
      simp
    · rw [List.getElem?_append_right (by omega), List.getElem?_replicate, if_pos (by omega),
        List.getElem?_eq_none (by omega)]
      simp
  · have hne : ¬ D = D' := fun h => heq h.symm
    simp only [if_neg heq, hne, if_false, Option.map_eq_map, Option.map_id']
    by_cases hlen : D' < t.length
    · rw [if_pos hlen, List.getElem?_append_left hlen]
    · rw [if_neg hlen, List.getElem?_append_right (by omega), List.getElem?_replicate]
      split
      · rw [if_pos (by omega)]
      · rw [if_neg (by omega)]

/-- A table that has grown has the row, and still all the labels it had. -/
theorem Label.Shaped.grown (h : t.Shaped p) (hD : D < maxDiffs) :
    (t.grown p D).Shaped p ∧ (∃ row, (t.grown p D)[D]? = some row ∧ D + 1 ≤ row.length) ∧
      ∀ (D' i : Nat) v row, t[D']? = some row → row[i]? = some (some v) →
        ∃ row', (t.grown p D)[D']? = some row' ∧ row'[i]? = some (some v) := by
  cases p with
  | zig =>
      refine ⟨h, ?_, fun D' i v row hrow hcell => ⟨row, hrow, hcell⟩⟩
      have hlen : D < t.length := h.1 ▸ hD
      refine ⟨t[D], List.getElem?_eq_getElem hlen, ?_⟩
      rw [h.2 _ (List.getElem_mem hlen)]
      omega
  | go =>
      simp only [Label.grown, Int.toNat_natCast]
      have hrow : ∀ D, t[D]?.getD [] = [] ∨ (t[D]?.getD []).length = D + 1 := by
        intro D
        cases hrow : t[D]? with
        | none => exact .inl rfl
        | some row => exact h D row hrow
      refine ⟨fun D' row heq => ?_, ?_, fun D' i v row hrow' hcell => ?_⟩
      · rw [Label.grow_getElem?] at heq
        split at heq
        · next heq' =>
          subst heq'
          obtain rfl := Option.some.inj heq
          rcases hrow D' with hnil | hlen
          · rw [hnil]
            exact .inr List.length_replicate
          · right
            split
            · exact List.length_replicate
            · exact hlen
        · split at heq
          · exact h D' row heq
          · split at heq
            · exact .inl (Option.some.inj heq).symm
            · cases heq
      · rw [Label.grow_getElem?, if_pos rfl]
        refine ⟨_, rfl, ?_⟩
        split
        · rw [List.length_replicate]
        · next hne =>
          rcases hrow D with hnil | hlen
          · rw [hnil] at hne
            exact absurd rfl hne
          · omega
      · have hlt : D' < t.length := (List.getElem?_eq_some_iff.mp hrow').1
        rw [Label.grow_getElem?, if_pos hlt]
        split
        · next heq' =>
          subst heq'
          rw [hrow', Option.getD_some]
          refine ⟨_, rfl, ?_⟩
          have hne : row ≠ [] := by
            rintro rfl
            cases hcell
          rw [if_neg (by simpa using hne)]
          exact hcell
        · exact ⟨row, hrow', hcell⟩

/-- A cell can be set, and then the table has this label and all the others it had. -/
theorem Label.Shaped.set (h : t.Shaped p) (hk : Valid D k) (hD : D < maxDiffs) (x : Int) :
    ∃ t', t.set p D k x = .ok t' ∧ t'.Shaped p ∧ t'.get D k = .ok x ∧
      ∀ D' k' v, Valid D' k' → (D' = D → k' = k → v = x) → t.get D' k' = .ok v →
        t'.get D' k' = .ok v := by
  obtain ⟨i, hi, hplace⟩ := hk.exists_place
  obtain ⟨hshaped, ⟨row, hrow, hlen⟩, hkept⟩ := h.grown hD
  have hDlen := (List.getElem?_eq_some_iff.mp hrow).1
  refine ⟨List.set (t.grown p D) D (row.set i (some x)), ?_, ?_, ?_, ?_⟩
  · rw [Label.set, index_eq_ok hrow, ok_bind, hplace, tdiv_two_mul,
      index_eq_ok (List.getElem?_eq_getElem (show i < row.length by omega)), ok_bind,
      Int.toNat_natCast, Int.toNat_natCast]
  · cases p with
    | go =>
        intro D' row' heq
        rw [List.getElem?_set, if_pos hDlen] at heq
        split at heq
        · next heq' =>
          subst heq'
          obtain rfl := Option.some.inj heq
          right
          rw [List.length_set]
          rcases hshaped D row hrow with rfl | hlen'
          · cases hlen
          · exact hlen'
        · exact hshaped D' row' heq
    | zig =>
        refine ⟨by rw [List.length_set]; exact hshaped.1, fun row' hrow' => ?_⟩
        rcases List.mem_or_eq_of_mem_set hrow' with hmem | rfl
        · exact hshaped.2 row' hmem
        · rw [List.length_set]
          exact hshaped.2 row (List.mem_of_getElem? hrow)
  · rw [Label.get_eq_ok_iff hplace]
    refine ⟨row.set i (some x), List.getElem?_set_self hDlen, List.getElem?_set_self (by omega)⟩
  · intro D' k' v hk' hsame hget
    obtain ⟨i', hi', hplace'⟩ := hk'.exists_place
    rw [Label.get_eq_ok_iff hplace'] at hget ⊢
    obtain ⟨row', hrow', hcell'⟩ := hget
    obtain ⟨row'', hrow'', hcell''⟩ := hkept D' i' v row' hrow' hcell'
    by_cases heq : D' = D
    · subst heq
      obtain rfl : row = row'' := Option.some.inj (hrow.symm.trans hrow'')
      refine ⟨row.set i (some x), List.getElem?_set_self hDlen, ?_⟩
      by_cases hii : i' = i
      · subst hii
        rw [hsame rfl (by omega)]
        exact List.getElem?_set_self (by omega)
      · rw [List.getElem?_set_ne (fun h => hii h.symm)]
        exact hcell''
    · refine ⟨row'', ?_, hcell''⟩
      rw [List.getElem?_set_ne (fun h => heq h.symm)]
      exact hrow''

/-- The labels of a table in the cells it has been given. -/
structure Filled (p : Port) (F : Nat → Int → Int) (t : Label) (K : Nat → Int → Prop) : Prop where
  shaped : t.Shaped p
  get : ∀ D k, Valid D k → K D k → t.get D k = .ok (F D k)

theorem Filled.mono {K' : Nat → Int → Prop} (h : Filled p F t K)
    (hK : ∀ D k, Valid D k → K' D k → K D k) : Filled p F t K' :=
  ⟨h.shaped, fun D k hk hk' => h.get D k hk (hK D k hk hk')⟩

theorem Filled.set (h : Filled p F t K) (hk : Valid D k) (hD : D < maxDiffs) (hx : x = F D k) :
    ∃ t', t.set p D k x = .ok t' ∧ Filled p F t' fun D' k' => K D' k' ∨ D' = D ∧ k' = k := by
  subst hx
  obtain ⟨t', hset, hshaped, hget, hkept⟩ := h.shaped.set hk hD (F D k)
  refine ⟨t', hset, hshaped, fun D' k' hk' hor => ?_⟩
  rcases hor with hK | ⟨rfl, rfl⟩
  · exact hkept D' k' _ hk' (fun hD' hk' => by rw [hD', hk']) (h.get D' k' hk' hK)
  · exact hget

end Tables

section Cells

variable {α : Type} {a b : List α} {u v k x y : Int}

/-- The cells of the rectangle up to `(u, v)` in which the strings match. -/
def Cell (a b : List α) (u v x y : Int) : Prop :=
  (0 ≤ x ∧ x < u) ∧ (0 ≤ y ∧ y < v) ∧ a[x.toNat]? = b[y.toNat]?

theorem inside_cell : Inside (Cell a b u v) u v := fun _ _ h => ⟨h.1, h.2.1⟩

variable [DecidableEq α]

theorem commonPrefixLen_spec (s t : List α) :
    commonPrefixLen s t ≤ s.length ∧ commonPrefixLen s t ≤ t.length ∧
      (∀ i < commonPrefixLen s t, s[i]? = t[i]?) ∧
      (commonPrefixLen s t < s.length → commonPrefixLen s t < t.length →
        s[commonPrefixLen s t]? ≠ t[commonPrefixLen s t]?) := by
  induction s generalizing t with
  | nil => simp [commonPrefixLen]
  | cons x s ih =>
      cases t with
      | nil => simp [commonPrefixLen]
      | cons y t =>
          rw [commonPrefixLen]
          split
          · next heq =>
            obtain ⟨hs, ht, hrun, hstop⟩ := ih t
            refine ⟨Nat.succ_le_succ hs, Nat.succ_le_succ ht, fun i hi => ?_, fun hs ht => ?_⟩
            · cases i with
              | zero => simp [heq]
              | succ i => simpa using hrun i (by omega)
            · simpa using hstop (by simpa using hs) (by simpa using ht)
          · next hne => simp [hne]

/-- Along diagonal `k` from `x` as far as the strings match. -/
def slide (a b : List α) (u v k x : Int) : Int :=
  if (0 ≤ x ∧ x < u) ∧ 0 ≤ x - k ∧ x - k < v then
    x + commonPrefixLen ((a.take u.toNat).drop x.toNat) ((b.take v.toNat).drop (x - k).toNat)
  else x

theorem slides_slide (hu : u ≤ a.length) (hv : v ≤ b.length) (k x : Int) :
    Slides (Cell a b u v) k x (slide a b u v k x) := by
  rw [slide]
  split
  · next hrect =>
    obtain ⟨hs, ht, hrun, hstop⟩ := commonPrefixLen_spec
      ((a.take u.toNat).drop x.toNat) ((b.take v.toNat).drop (x - k).toNat)
    generalize commonPrefixLen ((a.take u.toNat).drop x.toNat)
      ((b.take v.toNat).drop (x - k).toNat) = n at *
    simp only [List.length_drop, List.length_take, List.getElem?_drop, List.getElem?_take] at *
    refine ⟨by omega, fun t hle hlt => ?_, fun hcell => ?_⟩
    · have hmatch := hrun (t - x).toNat (by omega)
      rw [if_pos (by omega), if_pos (by omega)] at hmatch
      have hx : x.toNat + (t - x).toNat = t.toNat := by omega
      have hy : (x - k).toNat + (t - x).toNat = (t - k).toNat := by omega
      rw [hx, hy] at hmatch
      exact ⟨⟨by omega, by omega⟩, ⟨by omega, by omega⟩, hmatch⟩
    · obtain ⟨hx, hy, hmatch⟩ := hcell
      have hne := hstop (by omega) (by omega)
      rw [if_pos (by omega), if_pos (by omega)] at hne
      apply hne
      have hx' : x.toNat + n = (x + n).toNat := by omega
      have hy' : (x - k).toNat + n = (x + n - k).toNat := by omega
      rw [hx', hy']
      exact hmatch
  · next hout => exact ⟨le_rfl, fun t hle hlt => by omega, fun hcell => hout ⟨hcell.1, hcell.2.1⟩⟩

/-- Sliding twice, from two points, is sliding once from the further one. -/
theorem slide_max (hu : u ≤ a.length) (hv : v ≤ b.length) :
    slide a b u v k (max (slide a b u v k x) (slide a b u v k y)) =
      slide a b u v k (max x y) := by
  have hmax := (slides_slide hu hv k x).max (slides_slide hu hv k y)
  have hagain := hmax.unique (slides_slide hu hv k _) hmax.le le_rfl
  have honce := hmax.unique (slides_slide hu hv k (max x y)) le_rfl hmax.le
  rw [hagain, honce]

end Cells

end Lcs

end Turbokube
