import Mathlib.Data.List.Basic

/-!
# Replaying a list in another order

A run folds a list of steps over a state. The module says when the steps may be made in another
order.
-/

namespace Replay

variable {S E : Type*} {step : S → E → S} {a : S}

/-- A list may be replayed in another order if any two of its steps commute, whatever the
steps before them make of the state. -/
theorem foldl_perm {R : S → E → E → Prop} (symm : ∀ s x y, R s x y → R s y x)
    (keep : ∀ s x y z, R s x y → R (step s z) x y)
    (swap : ∀ s x y, R s x y → step (step s x) y = step (step s y) x) {l l' : List E}
    (hp : l.Perm l') (hl : l.Pairwise (R a)) : l.foldl step a = l'.foldl step a := by
  induction hp generalizing a with
  | nil => rfl
  | cons x _ ih => exact ih ((List.pairwise_cons.mp hl).2.imp fun h => keep a _ _ x h)
  | swap x y l =>
    have hxy := (List.pairwise_cons.mp hl).1 x List.mem_cons_self
    rw [List.foldl_cons, List.foldl_cons, List.foldl_cons, List.foldl_cons, swap a y x hxy]
  | trans h₁ _ ih₁ ih₂ =>
    exact (ih₁ hl).trans (ih₂ ((h₁.pairwise_iff fun {x y} h => symm a x y h).mp hl))

end Replay
