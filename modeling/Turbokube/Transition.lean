import Mathlib.Data.Option.Basic

/-!
# Runs of a transition function

`act s a` is the state after the action `a`, or `none` if it cannot happen in `s`.  A run
takes actions that happen and meet `ok` in the state they are taken in.  What one such action
preserves holds along a run (`Run.invariant`), and a run of given actions is found by
computing (`Run.of_acts`).
-/

namespace Transition

variable {S A : Type} {act : S → A → Option S} {ok : S → A → Prop} {s₀ s s' : S}

inductive Run (act : S → A → Option S) (ok : S → A → Prop) (s₀ : S) : S → Prop where
  | refl : Run act ok s₀ s₀
  | act {s s' : S} {a : A} (h : Run act ok s₀ s) (hok : ok s a) (hact : act s a = some s') :
      Run act ok s₀ s'

/-- The state after a series of actions. -/
def acts (act : S → A → Option S) : List A → S → Option S
  | [], s => some s
  | a :: rest, s => (act s a).bind (acts act rest)

/-- The actions of a series meet `ok` when their turn comes. -/
def Allowed (act : S → A → Option S) (ok : S → A → Prop) : List A → S → Prop
  | [], _ => True
  | a :: rest, s =>
      ok s a ∧
      match act s a with
      | none => True
      | some s' => Allowed act ok rest s'

instance Allowed.decidable [∀ s a, Decidable (ok s a)] :
    (l : List A) → (s : S) → Decidable (Allowed act ok l s)
  | [], _ => .isTrue trivial
  | a :: rest, s => by
      unfold Allowed
      cases act s a with
      | none => exact inferInstanceAs (Decidable (ok s a ∧ True))
      | some s' =>
          have := Allowed.decidable rest s'
          exact inferInstanceAs (Decidable (ok s a ∧ Allowed act ok rest s'))

namespace Run

theorem of_acts {l : List A} (h : Run act ok s₀ s) (hok : Allowed act ok l s)
    (hacts : s' ∈ acts act l s) : Run act ok s₀ s' := by
  induction l generalizing s with
  | nil =>
      obtain rfl := Option.some.inj hacts
      exact h
  | cons a rest ih =>
      rw [Option.mem_def, acts, Option.bind_eq_some_iff] at hacts
      obtain ⟨s₁, hact, hrest⟩ := hacts
      rw [Allowed, hact] at hok
      exact ih (h.act hok.1 hact) hok.2 hrest

/-- What holds at the start and is preserved by every action holds along a run. -/
theorem invariant {I : S → Prop} (h : Run act ok s₀ s) (hinit : I s₀)
    (hstep : ∀ s s' a, I s → ok s a → act s a = some s' → I s') : I s := by
  induction h with
  | refl => exact hinit
  | act _ hok hact ih => exact hstep _ _ _ ih hok hact

end Run

end Transition
