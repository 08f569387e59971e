import Turbokube.Model.Patch

/-!
# Which patches can be applied

`Apply` bounds every edit by the source and does not compare it with the edit before.  `edits` reads
a patch as a list of edits, up to the first that is cut off or ends beyond the source, and `Orderly`
says what keeps such a list from a panic: no edit starts before the end of the one before it, and
none has a number that is negative as an `int`.
-/

namespace Turbokube

open Encoding

namespace Patch

/-- The part of the source an edit replaces, and by how many bytes. -/
structure Edit where
  start : Int
  stop : Int
  diff : Int
  deriving DecidableEq, Repr

/-- An edit, with the bytes after its numbers. -/
def readEdit (r : Bytes) : Option (Edit × Bytes) :=
  match readInt r with
  | .error _ => none
  | .ok (start, r) =>
      match readInt r with
      | .error _ => none
      | .ok (stop, r) =>
          match readInt r with
          | .error _ => none
          | .ok (diff, r) => some (⟨start, stop, diff⟩, r)

/-- The edits up to the first that cannot be read or is not within the source. -/
def edits (alen : Nat) : Nat → Bytes → List Edit
  | 0, _ => []
  | count + 1, r =>
      match readEdit r with
      | none => []
      | some (e, r) =>
          if e.start ≤ alen ∧ e.stop ≤ alen then e :: edits alen count (r.drop e.diff.toNat) else []

/-- The second edit starts at the end of the first or after it. -/
def Follows (e e' : Edit) : Prop := 0 ≤ e.stop ∧ e.stop ≤ e'.start

instance (e e' : Edit) : Decidable (Follows e e') :=
  inferInstanceAs (Decidable (0 ≤ e.stop ∧ e.stop ≤ e'.start))

/-- The edits follow each other from `e₀` on and none replaces by a negative number of bytes.  If
all the edits announced were read, the last one has an end to go on from. -/
def InOrder (e₀ : Edit) (count : Nat) (es : List Edit) : Prop :=
  (e₀ :: es).IsChain Follows ∧ (∀ e ∈ es, 0 ≤ e.diff) ∧
    (es.length = count → 0 ≤ ((e₀ :: es).getLast (List.cons_ne_nil _ _)).stop)

instance (e₀ : Edit) (count : Nat) (es : List Edit) : Decidable (InOrder e₀ count es) :=
  inferInstanceAs (Decidable ((e₀ :: es).IsChain Follows ∧ (∀ e ∈ es, 0 ≤ e.diff) ∧
    (es.length = count → 0 ≤ ((e₀ :: es).getLast (List.cons_ne_nil _ _)).stop)))

/-- The size and the number of edits of a patch, and what follows them. -/
def header (patch : Bytes) : Option (Int × Int × Bytes) :=
  match readInt patch with
  | .error _ => none
  | .ok (size, r) =>
      match readInt r with
      | .error _ => none
      | .ok (count, r) => some (size, count, r)

/-- The edits of a patch are in order. -/
def Orderly (a patch : Bytes) : Prop :=
  ∀ h ∈ header patch, InOrder ⟨0, 0, 0⟩ h.2.1.toNat (edits a.length h.2.1.toNat h.2.2)

instance (a patch : Bytes) : Decidable (Orderly a patch) :=
  inferInstanceAs (Decidable (∀ h ∈ header patch,
    InOrder ⟨0, 0, 0⟩ h.2.1.toNat (edits a.length h.2.1.toNat h.2.2)))

section Loop

variable {a r b : Bytes} {prev : Int} {n : Nat}

/-- One round, with the numbers read at once. -/
theorem applyLoop_succ :
    applyLoop a (n + 1) r prev b =
      match readEdit r with
      | none => .error (.corrupt b)
      | some (e, r) =>
          if e.start ≤ a.length ∧ e.stop ≤ a.length then
            match slice a prev e.start with
            | none => .error .panic
            | some kept =>
                match next r e.diff with
                | none => .error .panic
                | some (repl, r) => applyLoop a n r e.stop (b ++ kept ++ repl)
          else .error (.corrupt b) := by
  rw [applyLoop, readEdit]
  cases h₁ : readInt r with
  | error _ => rfl
  | ok x₁ =>
      simp only
      cases h₂ : readInt x₁.2 with
      | error _ =>
          simp only
          split <;> rfl
      | ok x₂ =>
          simp only
          cases h₃ : readInt x₂.2 with
          | error _ =>
              simp only
              split
              · rfl
              · split <;> rfl
          | ok x₃ =>
              simp only
              by_cases hstart : (a.length : Int) < x₁.1
              · rw [if_pos hstart, if_neg (by omega)]
              · rw [if_neg hstart]
                by_cases hstop : (a.length : Int) < x₂.1
                · rw [if_pos hstop, if_neg (by omega)]
                · rw [if_neg hstop]
                  exact (if_pos (by omega)).symm

theorem slice_eq_some {i j : Int} (hi : 0 ≤ i) (hij : i ≤ j) (hj : j ≤ a.length) :
    slice a i j = some ((a.take j.toNat).drop i.toNat) := if_pos ⟨hi, hij, hj⟩

theorem slice_eq_none {i j : Int} (h : ¬ (0 ≤ i ∧ i ≤ j)) : slice a i j = none :=
  if_neg (fun hc => h ⟨hc.1, hc.2.1⟩)

theorem inOrder_nil (e₀ : Edit) : InOrder e₀ (n + 1) [] :=
  ⟨.singleton _, by simp, fun h => by cases h⟩

theorem inOrder_cons {e₀ e : Edit} {es : List Edit} :
    InOrder e₀ (n + 1) (e :: es) ↔ (Follows e₀ e ∧ 0 ≤ e.diff) ∧ InOrder e n es := by
  simp only [InOrder, List.isChain_cons_cons, List.forall_mem_cons, List.length_cons,
    Nat.add_right_cancel_iff, List.getLast_cons_cons]
  constructor
  · rintro ⟨⟨hfollows, hchain⟩, ⟨hdiff, hdiffs⟩, hlast⟩
    exact ⟨⟨hfollows, hdiff⟩, hchain, hdiffs, hlast⟩
  · rintro ⟨⟨hfollows, hdiff⟩, hchain, hdiffs, hlast⟩
    exact ⟨⟨hfollows, hchain⟩, ⟨hdiff, hdiffs⟩, hlast⟩

/-- The rounds end without a panic and at a place to go on from, exactly for edits in order. -/
theorem applyLoop_safe_iff {e₀ : Edit} :
    (applyLoop a n r e₀.stop b ≠ .error .panic ∧
      ∀ prev' b', applyLoop a n r e₀.stop b = .ok (prev', b') → 0 ≤ prev') ↔
      InOrder e₀ n (edits a.length n r) := by
  induction n generalizing r b e₀ with
  | zero =>
      rw [applyLoop, edits]
      constructor
      · intro h
        exact ⟨.singleton _, by simp, fun _ => h.2 _ _ rfl⟩
      · intro h
        refine ⟨by simp, fun prev' b' heq => ?_⟩
        obtain ⟨rfl, -⟩ := Prod.mk.inj (Except.ok.inj heq)
        exact h.2.2 rfl
  | succ n ih =>
      rw [applyLoop_succ, edits]
      cases hread : readEdit r with
      | none => exact iff_of_true ⟨by simp, by simp⟩ (inOrder_nil e₀)
      | some x =>
          obtain ⟨e, r'⟩ := x
          simp only
          by_cases hwithin : e.start ≤ a.length ∧ e.stop ≤ a.length
          · rw [if_pos hwithin, if_pos hwithin, inOrder_cons]
            by_cases hfollows : 0 ≤ e₀.stop ∧ e₀.stop ≤ e.start
            · rw [slice_eq_some hfollows.1 hfollows.2 hwithin.1]
              simp only
              by_cases hdiff : e.diff < 0
              · rw [next, if_pos hdiff]
                exact iff_of_false (fun h => h.1 rfl) (fun h => absurd h.1.2 (by omega))
              · rw [next, if_neg hdiff]
                simp only
                rw [ih, and_iff_right ⟨hfollows, by omega⟩]
            · rw [slice_eq_none hfollows]
              exact iff_of_false (fun h => h.1 rfl) (fun h => hfollows h.1.1)
          · rw [if_neg hwithin, if_neg hwithin]
            exact iff_of_true ⟨by simp, by simp⟩ (inOrder_nil e₀)

theorem applyLoop_le {prev' : Int} {b' : Bytes} (hprev : prev ≤ a.length)
    (h : applyLoop a n r prev b = .ok (prev', b')) : prev' ≤ a.length := by
  induction n generalizing r b prev with
  | zero =>
      rw [applyLoop] at h
      obtain ⟨rfl, -⟩ := Prod.mk.inj (Except.ok.inj h)
      exact hprev
  | succ n ih =>
      rw [applyLoop_succ] at h
      cases hread : readEdit r with
      | none =>
          rw [hread] at h
          cases h
      | some x =>
          simp only [hread] at h
          by_cases hwithin : x.1.start ≤ a.length ∧ x.1.stop ≤ a.length
          · rw [if_pos hwithin] at h
            cases hslice : slice a prev x.1.start with
            | none =>
                rw [hslice] at h
                cases h
            | some kept =>
                simp only [hslice] at h
                cases hnext : next x.2 x.1.diff with
                | none =>
                    rw [hnext] at h
                    cases h
                | some y =>
                    simp only [hnext] at h
                    exact ih hwithin.2 h
          · rw [if_neg hwithin] at h
            cases h

end Loop

/-- Applying a patch, with its two first numbers read at once. -/
theorem apply_eq (a patch b : Bytes) :
    apply a patch b =
      match header patch with
      | none => .error (.corrupt b)
      | some (size, count, r) =>
          match applyLoop a count.toNat r 0 [] with
          | .error e => .error e
          | .ok (prev, b) =>
              match slice a prev a.length with
              | none => .error .panic
              | some kept =>
                  if size ≠ (b ++ kept).length then .error (.corrupt (b ++ kept))
                  else .ok (b ++ kept) := by
  rw [apply, header]
  cases h₁ : readInt patch with
  | error _ => rfl
  | ok x₁ =>
      simp only
      cases h₂ : readInt x₁.2 with
      | error _ => rfl
      | ok x₂ => rfl

theorem apply_length {a patch b b' : Bytes} (h : apply a patch b = .ok b') :
    ∀ x ∈ header patch, x.1 = b'.length := by
  intro x hx
  rw [apply_eq, hx] at h
  simp only at h
  cases hloop : applyLoop a x.2.1.toNat x.2.2 0 [] with
  | error e =>
      rw [hloop] at h
      cases h
  | ok y =>
      simp only [hloop] at h
      cases hslice : slice a y.1 a.length with
      | none =>
          rw [hslice] at h
          cases h
      | some kept =>
          simp only [hslice] at h
          by_cases hsize : x.1 ≠ (y.2 ++ kept).length
          · rw [if_pos hsize] at h
            cases h
          · rw [if_neg hsize] at h
            rw [← Except.ok.inj h]
            exact not_not.mp hsize

theorem apply_ne_panic_iff (a patch b : Bytes) :
    apply a patch b ≠ .error .panic ↔ Orderly a patch := by
  rw [apply_eq, Orderly]
  cases hheader : header patch with
  | none => exact iff_of_true nofun nofun
  | some x =>
      have hsafe := @applyLoop_safe_iff a x.2.2 [] x.2.1.toNat ⟨0, 0, 0⟩
      simp only [Option.mem_def, Option.some.injEq, forall_eq']
      rw [← hsafe]
      cases hloop : applyLoop a x.2.1.toNat x.2.2 0 [] with
      | error e =>
          simp only [ne_eq, Except.error.injEq]
          exact ⟨fun h => ⟨h, nofun⟩, fun h => h.1⟩
      | ok y =>
          have hle := applyLoop_le (by simp) hloop
          simp only
          by_cases hprev : 0 ≤ y.1
          · rw [slice_eq_some hprev hle (le_refl _)]
            refine iff_of_true ?_ ⟨nofun, fun prev' b' heq => ?_⟩
            · simp only
              split <;> nofun
            · rw [Except.ok.inj heq] at hprev
              exact hprev
          · rw [slice_eq_none (fun hc => hprev hc.1)]
            exact iff_of_false (fun h => h rfl) (fun h => hprev (h.2 y.1 y.2 rfl))

/-- Whatever the source and the patch, `Apply` fails with its own error or returns as many bytes as
the patch announces, exactly if the edits of the patch are in order. -/
theorem apply_total_iff (a patch b : Bytes) :
    (apply a patch b ≠ .error .panic ∧
      ∀ b', apply a patch b = .ok b' → ∀ x ∈ header patch, x.1 = b'.length) ↔
      Orderly a patch := by
  rw [apply_ne_panic_iff]
  exact and_iff_left (fun b' h => apply_length h)

theorem apply_total_on_ordered_edits :
    Orderly [97, 98] [2, 2, 0, 1, 1, 99, 1, 2, 1, 100] ∧
      apply [97, 98] [2, 2, 0, 1, 1, 99, 1, 2, 1, 100] [] ≠ .error .panic := by
  have hiff := apply_total_iff [97, 98] [2, 2, 0, 1, 1, 99, 1, 2, 1, 100] []
  have horder : Orderly [97, 98] [2, 2, 0, 1, 1, 99, 1, 2, 1, 100] := by decide
  exact ⟨horder, (hiff.mpr horder).1⟩

/-- Two edits of `ab`, the second before the end of the first. -/
theorem apply_panics_on_backward_edit :
    apply [97, 98] [2, 2, 2, 2, 0, 0, 0, 0] [] = .error .panic ∧
      header [2, 2, 2, 2, 0, 0, 0, 0] = some (2, 2, [2, 2, 0, 0, 0, 0]) := by
  decide

end Patch

end Turbokube
