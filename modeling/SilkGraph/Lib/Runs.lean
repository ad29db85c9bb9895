import Mathlib.Tactic.TypeStar

/-!
# Runs of a step function

A step takes a state and an event and may fail. A run is the events one after another, and it is
allowed if each event is when it happens. What one allowed step does for a relation to an abstract
state, an allowed run does (`exists_run`); an invariant is the case without one (`exists_run_of_inv`).
-/

namespace Runs

variable {S A E : Type*} {step : S → E → Option S} {Allowed : S → E → Prop} {s s' : S} {e : E}
  {es es' : List E}

/-- The events one after another. -/
def run (step : S → E → Option S) (s : S) : List E → Option S
  | [] => some s
  | e :: es => (step s e).bind fun s' => run step s' es

/-- Every event of the run is allowed when it happens. -/
def AllowedRun (step : S → E → Option S) (Allowed : S → E → Prop) (s : S) : List E → Prop
  | [] => True
  | e :: es => Allowed s e ∧ ∀ s', step s e = some s' → AllowedRun step Allowed s' es

theorem run_cons (h : step s e = some s') : run step s (e :: es) = run step s' es := by
  rw [run, h, Option.bind_some]

theorem run_cons_eq_some : run step s (e :: es) = some s' ↔
    ∃ s₁, step s e = some s₁ ∧ run step s₁ es = some s' := Option.bind_eq_some_iff

theorem AllowedRun.append (h : AllowedRun step Allowed s (es ++ es')) :
    AllowedRun step Allowed s es ∧ ∀ s', run step s es = some s' → AllowedRun step Allowed s' es' := by
  induction es generalizing s with
  | nil =>
    refine ⟨trivial, fun s' hrun => ?_⟩
    obtain rfl := Option.some.inj hrun
    exact h
  | cons e es ih =>
    refine ⟨⟨h.1, fun s₁ h₁ => (ih (h.2 s₁ h₁)).1⟩, fun s' hrun => ?_⟩
    obtain ⟨s₁, h₁, hrest⟩ := run_cons_eq_some.mp hrun
    exact (ih (h.2 s₁ h₁)).2 s' hrest

/-- **Run rule.** If allowed steps succeed and keep the relation to an abstract state that takes
its own steps, so do allowed runs. -/
theorem exists_run {R : S → A → Prop} {abstract : A → E → A}
    (hstep : ∀ s a e, R s a → Allowed s e → ∃ s', step s e = some s' ∧ R s' (abstract a e))
    {a : A} (h : R s a) (ha : AllowedRun step Allowed s es) :
    ∃ s', run step s es = some s' ∧ R s' (es.foldl abstract a) := by
  induction es generalizing s a with
  | nil => exact ⟨s, rfl, h⟩
  | cons e es ih =>
    obtain ⟨s₁, h₁, hR₁⟩ := hstep s a e h ha.1
    obtain ⟨s', hrun, hR'⟩ := ih hR₁ (ha.2 s₁ h₁)
    exact ⟨s', (run_cons h₁).trans hrun, hR'⟩

/-- **Run rule** for an invariant. -/
theorem exists_run_of_inv {R : S → Prop}
    (hstep : ∀ s e, R s → Allowed s e → ∃ s', step s e = some s' ∧ R s') (h : R s)
    (ha : AllowedRun step Allowed s es) : ∃ s', run step s es = some s' ∧ R s' :=
  @exists_run _ Unit _ _ _ _ _ (fun s _ => R s) (fun a _ => a) (fun s _ e => hstep s e) () h ha

instance AllowedRun.decidable [∀ s e, Decidable (Allowed s e)] :
    (s : S) → (es : List E) → Decidable (AllowedRun step Allowed s es)
  | _, [] => inferInstanceAs (Decidable True)
  | s, e :: es =>
    have : Decidable (∀ s', step s e = some s' → AllowedRun step Allowed s' es) :=
      match step s e with
      | none => isTrue fun s' h => by cases h
      | some s₁ =>
        have := AllowedRun.decidable s₁ es
        decidable_of_iff (AllowedRun step Allowed s₁ es)
          ⟨fun ha s' h => Option.some.inj h ▸ ha, fun ha => ha s₁ rfl⟩
    inferInstanceAs (Decidable (_ ∧ _))

end Runs
