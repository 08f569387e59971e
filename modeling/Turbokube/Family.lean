import Mathlib.Data.List.Basic
import Mathlib.Logic.Function.Basic

/-!
# Families of machines

A machine takes an action in its state and sends something, or fails.  In a family there is one
machine for each index, and an action is for one of them.  The machines do not see each other, so
a run of the family fails only if a machine fails on the actions that are for it, and what the run
sends for an index is what that machine sends.
-/

namespace Family

variable {ι σ α ρ ε : Type}

/-- What is sent first and then, or the first failure. -/
def andThen (r : Except ε (σ × List ρ)) (next : σ → Except ε (σ × List ρ)) :
    Except ε (σ × List ρ) :=
  match r with
  | .error e => .error e
  | .ok (s, out) =>
      match next s with
      | .error e => .error e
      | .ok (s, rest) => .ok (s, out ++ rest)

/-- A run seen through a map of the states. -/
def mapState {σ' : Type} (p : σ → σ') (r : Except ε (σ × List ρ)) : Except ε (σ' × List ρ) :=
  match r with
  | .error e => .error e
  | .ok (s, out) => .ok (p s, out)

/-- The state after some actions and what was sent. -/
def run (step : α → σ → Except ε (σ × List ρ)) : List α → σ → Except ε (σ × List ρ)
  | [], s => .ok (s, [])
  | a :: acts, s => andThen (step a s) (run step acts)

section Run

variable {step : α → σ → Except ε (σ × List ρ)} {s s' : σ} {out : List ρ}

theorem andThen_eq_ok {r : Except ε (σ × List ρ)} {next : σ → Except ε (σ × List ρ)} :
    andThen r next = .ok (s', out) ↔
      ∃ s₁ out₁ out₂, r = .ok (s₁, out₁) ∧ next s₁ = .ok (s', out₂) ∧ out = out₁ ++ out₂ := by
  constructor
  · intro h
    cases r with
    | error e => cases h
    | ok r =>
        rw [andThen] at h
        cases hnext : next r.1 with
        | error e =>
            simp only [hnext] at h
            cases h
        | ok q =>
            simp only [hnext] at h
            obtain ⟨rfl, rfl⟩ := Prod.mk.inj (Except.ok.inj h)
            exact ⟨r.1, r.2, q.2, rfl, hnext, rfl⟩
  · rintro ⟨s₁, out₁, out₂, rfl, hnext, rfl⟩
    rw [andThen]
    simp only [hnext]

theorem andThen_assoc (r : Except ε (σ × List ρ)) (f g : σ → Except ε (σ × List ρ)) :
    andThen (andThen r f) g = andThen r (fun s => andThen (f s) g) := by
  cases r with
  | error e => rfl
  | ok r =>
      simp only [andThen]
      cases f r.1 with
      | error e => rfl
      | ok q =>
          simp only
          cases g q.1 with
          | error e => rfl
          | ok p => simp only [List.append_assoc]

theorem andThen_nil (r : Except ε (σ × List ρ)) : andThen r (fun s => .ok (s, [])) = r := by
  cases r with
  | error e => rfl
  | ok r => simp only [andThen, List.append_nil]

theorem mapState_eq_ok {σ' : Type} {p : σ → σ'} {r : Except ε (σ × List ρ)} {t : σ'} :
    mapState p r = .ok (t, out) ↔ ∃ s, r = .ok (s, out) ∧ p s = t := by
  cases r with
  | error e => simp [mapState]
  | ok r =>
      obtain ⟨s, o⟩ := r
      simp only [mapState, Except.ok.injEq, Prod.mk.injEq]
      constructor
      · rintro ⟨hs, rfl⟩
        exact ⟨s, ⟨rfl, rfl⟩, hs⟩
      · rintro ⟨s', ⟨rfl, rfl⟩, hs⟩
        exact ⟨hs, rfl⟩

theorem mapState_andThen {σ' : Type} {p : σ → σ'} {f : σ → Except ε (σ × List ρ)}
    {g : σ' → Except ε (σ' × List ρ)} (h : ∀ s, mapState p (f s) = g (p s))
    (r : Except ε (σ × List ρ)) : mapState p (andThen r f) = andThen (mapState p r) g := by
  cases r with
  | error e => rfl
  | ok r =>
      simp only [andThen, mapState]
      rw [← h r.1]
      cases f r.1 with
      | error e => rfl
      | ok q => rfl

theorem run_cons_eq_ok {a : α} {acts : List α} :
    run step (a :: acts) s = .ok (s', out) ↔
      ∃ s₁ out₁ out₂, step a s = .ok (s₁, out₁) ∧ run step acts s₁ = .ok (s', out₂) ∧
        out = out₁ ++ out₂ :=
  andThen_eq_ok

theorem run_append (xs ys : List α) (s : σ) :
    run step (xs ++ ys) s = andThen (run step xs s) (run step ys) := by
  induction xs generalizing s with
  | nil =>
      rw [List.nil_append, run, andThen]
      cases run step ys s with
      | error e => rfl
      | ok r => rfl
  | cons x xs ih =>
      rw [List.cons_append, run, run, andThen_assoc]
      exact congrArg _ (funext ih)

theorem run_append_eq_ok {xs ys : List α} :
    run step (xs ++ ys) s = .ok (s', out) ↔
      ∃ s₁ out₁ out₂, run step xs s = .ok (s₁, out₁) ∧ run step ys s₁ = .ok (s', out₂) ∧
        out = out₁ ++ out₂ := by
  rw [run_append, andThen_eq_ok]

end Run

variable [DecidableEq ι]

/-- The step of the family: the machine the action is for takes it. -/
def stepAll (step : ι → α → σ → Except ε (σ × List ρ)) (a : ι × α) (S : ι → σ) :
    Except ε ((ι → σ) × List ρ) :=
  match step a.1 a.2 (S a.1) with
  | .error e => .error e
  | .ok (s, out) => .ok (Function.update S a.1 s, out)

/-- The actions that are for one machine. -/
def actsOf (i : ι) (acts : List (ι × α)) : List α :=
  (acts.filter (fun a => a.1 = i)).map Prod.snd

section Acts

variable {i : ι}

@[simp] theorem actsOf_nil : actsOf i ([] : List (ι × α)) = [] := rfl

theorem actsOf_cons_self (a : α) (acts : List (ι × α)) :
    actsOf i ((i, a) :: acts) = a :: actsOf i acts := by
  simp [actsOf]

theorem actsOf_cons_of_ne {j : ι} (h : j ≠ i) (a : α) (acts : List (ι × α)) :
    actsOf i ((j, a) :: acts) = actsOf i acts := by
  simp [actsOf, h]

@[simp] theorem actsOf_append (xs ys : List (ι × α)) :
    actsOf i (xs ++ ys) = actsOf i xs ++ actsOf i ys := by
  simp [actsOf]

/-- One action for each of some indexes. -/
theorem actsOf_map (l : List ι) (a : α) :
    actsOf i (l.map (fun j => (j, a))) = List.replicate (l.count i) a := by
  induction l with
  | nil => rfl
  | cons j l ih =>
      rw [List.map_cons]
      by_cases h : j = i
      · subst h
        rw [actsOf_cons_self, ih, List.count_cons_self, List.replicate_succ]
      · rw [actsOf_cons_of_ne h, ih, List.count_cons_of_ne h]

end Acts

variable {step : ι → α → σ → Except ε (σ × List ρ)} {acts : List (ι × α)} {S S' : ι → σ}
  {out : List ρ}

/-- What a run sends for an index is what its machine sends. -/
theorem run_actsOf {who : ρ → ι}
    (hwho : ∀ i a s s' out, step i a s = .ok (s', out) → ∀ r ∈ out, who r = i)
    (h : run (stepAll step) acts S = .ok (S', out)) (i : ι) :
    run (step i) (actsOf i acts) (S i) = .ok (S' i, out.filter (fun r => who r = i)) := by
  induction acts generalizing S out with
  | nil =>
      obtain ⟨rfl, rfl⟩ := Prod.mk.inj (Except.ok.inj h)
      rfl
  | cons a acts ih =>
      obtain ⟨j, a⟩ := a
      obtain ⟨S₁, out₁, out₂, hstep, hrun, rfl⟩ := run_cons_eq_ok.mp h
      rw [stepAll] at hstep
      cases hj : step j a (S j) with
      | error e =>
          simp only [hj] at hstep
          cases hstep
      | ok r =>
          simp only [hj] at hstep
          obtain ⟨rfl, rfl⟩ := Prod.mk.inj (Except.ok.inj hstep)
          have hrest := ih hrun
          have hfrom := hwho j a (S j) r.1 r.2 hj
          by_cases hij : j = i
          · subst hij
            rw [Function.update_self] at hrest
            rw [actsOf_cons_self]
            refine run_cons_eq_ok.mpr ⟨r.1, r.2, _, hj, hrest, ?_⟩
            rw [List.filter_append,
              List.filter_eq_self.mpr (fun x hx => decide_eq_true (hfrom x hx))]
          · rw [Function.update_of_ne (Ne.symm hij)] at hrest
            rw [actsOf_cons_of_ne hij, hrest, List.filter_append,
              List.filter_eq_nil_iff.mpr (fun x hx heq =>
                hij ((hfrom x hx).symm.trans (of_decide_eq_true heq))), List.nil_append]

/-- The family runs if each machine does. -/
theorem run_of_actsOf (h : ∀ i, ∃ r, run (step i) (actsOf i acts) (S i) = .ok r) :
    ∃ r, run (stepAll step) acts S = .ok r := by
  induction acts generalizing S with
  | nil => exact ⟨(S, []), rfl⟩
  | cons a acts ih =>
      obtain ⟨j, a⟩ := a
      obtain ⟨⟨s', out⟩, hj⟩ := h j
      rw [actsOf_cons_self] at hj
      obtain ⟨s₁, out₁, out₂, hstep, hrest, -⟩ := run_cons_eq_ok.mp hj
      obtain ⟨⟨S', out'⟩, hrun⟩ := @ih (Function.update S j s₁) (fun i => by
        by_cases hij : j = i
        · subst hij
          rw [Function.update_self]
          exact ⟨_, hrest⟩
        · have hi := h i
          rw [actsOf_cons_of_ne hij] at hi
          rwa [Function.update_of_ne (Ne.symm hij)])
      exact ⟨(S', out₁ ++ out'),
        run_cons_eq_ok.mpr ⟨_, _, _, by rw [stepAll]; simp only [hstep], hrun, rfl⟩⟩

end Family
