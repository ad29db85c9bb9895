import Mathlib.Data.List.Chain
import Mathlib.Data.List.Nodup
import Mathlib.Logic.Relation

/-!
# Walks along a partial function

A partial function `next : α → Option α` leads from each point to at most one other. `walk`
follows it for a bounded number of steps, and `Stops` says that it comes to an end within
them. Where it does the walk is the whole way: no point comes twice, and everything that can
be reached is on it.
-/

namespace Chain

variable {α : Type*} (next : α → Option α)

/-- One step. -/
def Step (a b : α) : Prop := next a = some b

/-- The points after the first, at most so many. -/
def walk : ℕ → α → List α
  | 0, _ => []
  | n + 1, a =>
    match next a with
    | some b => b :: walk n b
    | none => []

/-- The way from a point ends within so many steps. -/
def Stops : ℕ → α → Prop
  | 0, a => next a = none
  | n + 1, a => ∀ b, next a = some b → Stops n b

variable {next} {n : ℕ} {a b : α}

theorem walk_of_none (h : next a = none) : walk next n a = [] := by
  cases n with
  | zero => rfl
  | succ n => rw [walk, h]

theorem walk_succ (h : next a = some b) : walk next (n + 1) a = b :: walk next n b := by
  rw [walk, h]

/-- On points that stay where two functions agree, so do the walks. -/
theorem walk_congr {next' : α → Option α} {P : α → Prop} (hnext : ∀ a, P a → next' a = next a)
    (hstays : ∀ a b, P a → next a = some b → P b) (n : ℕ) (ha : P a) : walk next' n a = walk next n a := by
  induction n generalizing a with
  | zero => rfl
  | succ n ih =>
    cases h : next a with
    | none => rw [walk_of_none h, walk_of_none ((hnext a ha).trans h)]
    | some b => rw [walk_succ h, walk_succ ((hnext a ha).trans h), ih (hstays a b ha h)]

/-- With more steps to take, the walk goes on from where it came to. -/
theorem walk_isPrefix {next' : α → Option α} (hnext : ∀ a b, next a = some b → next' a = some b) (n : ℕ)
    (a : α) : walk next n a <+: walk next' n a := by
  induction n generalizing a with
  | zero => exact List.nil_prefix
  | succ n ih =>
    cases h : next a with
    | none =>
      rw [walk_of_none h]
      exact List.nil_prefix
    | some b =>
      rw [walk_succ h, walk_succ (hnext a b h)]
      exact List.cons_prefix_cons.mpr ⟨rfl, ih b⟩

/-- What is not last on a walk has a step. -/
theorem exists_step_of_isChain {l r : List α} (h : List.IsChain (Step next) (l ++ b :: r)) (ha : a ∈ l) :
    ∃ c, next a = some c := by
  induction l with
  | nil => cases ha
  | cons c l ih =>
    obtain rfl | ha := List.mem_cons.mp ha
    · cases l with
      | nil => exact ⟨b, (List.isChain_cons_cons.mp h).1⟩
      | cons d l => exact ⟨d, (List.isChain_cons_cons.mp h).1⟩
    · exact ih (List.IsChain.of_cons h) ha

theorem isChain_walk (n : ℕ) (a : α) : List.IsChain (Step next) (a :: walk next n a) := by
  induction n generalizing a with
  | zero => exact .singleton a
  | succ n ih =>
    cases h : next a with
    | none =>
      rw [walk_of_none h]
      exact .singleton a
    | some b =>
      rw [walk_succ h]
      exact .cons_cons h (ih b)

/-- A way of no more steps than the walk has ends where the walk ends. -/
theorem stops_iff_getLast (n : ℕ) (a : α) :
    Stops next n a ↔ next ((a :: walk next n a).getLast (List.cons_ne_nil _ _)) = none := by
  induction n generalizing a with
  | zero => exact Iff.rfl
  | succ n ih =>
    cases h : next a with
    | none => simp [Stops, walk_of_none h, h]
    | some b =>
      have hlast : (a :: walk next (n + 1) a).getLast (List.cons_ne_nil _ _) =
          (b :: walk next n b).getLast (List.cons_ne_nil _ _) := by simp [walk_succ h]
      rw [hlast, ← ih]
      simp [Stops, h]

theorem transGen_of_mem_walk (h : b ∈ walk next n a) : Relation.TransGen (Step next) a b := by
  induction n generalizing a with
  | zero => cases h
  | succ n ih =>
    cases hn : next a with
    | none =>
      rw [walk_of_none hn] at h
      cases h
    | some c =>
      rw [walk_succ hn] at h
      obtain rfl | h := List.mem_cons.mp h
      · exact .single hn
      · exact .head hn (ih h)

/-- From a point on a cycle there is no end. -/
theorem not_stops_of_cycle (h : Relation.TransGen (Step next) a a) (n : ℕ) : ¬ Stops next n a := by
  induction n generalizing a with
  | zero =>
    intro hs
    obtain ⟨b, hab, -⟩ := Relation.TransGen.head'_iff.mp h
    rw [Step, show next a = none from hs] at hab
    cases hab
  | succ n ih =>
    intro hs
    obtain ⟨b, hab, hba⟩ := Relation.TransGen.head'_iff.mp h
    exact ih (.tail' hba hab) (hs b hab)

theorem Stops.nodup (h : Stops next n a) : (a :: walk next n a).Nodup := by
  induction n generalizing a with
  | zero => exact List.nodup_singleton a
  | succ n ih =>
    cases hn : next a with
    | none =>
      rw [walk_of_none hn]
      exact List.nodup_singleton a
    | some b =>
      have hcycle : a ∉ walk next (n + 1) a := fun hmem =>
        not_stops_of_cycle (transGen_of_mem_walk hmem) _ h
      refine List.nodup_cons.mpr ⟨hcycle, ?_⟩
      rw [walk_succ hn]
      exact ih (h b hn)

/-- What can be reached is on the way. -/
theorem Stops.mem_walk_iff (h : Stops next n a) :
    b ∈ walk next n a ↔ Relation.TransGen (Step next) a b := by
  refine ⟨transGen_of_mem_walk, fun hab => ?_⟩
  induction n generalizing a with
  | zero =>
    obtain ⟨c, hac, -⟩ := Relation.TransGen.head'_iff.mp hab
    rw [Step, show next a = none from h] at hac
    cases hac
  | succ n ih =>
    obtain ⟨c, hac, hcb⟩ := Relation.TransGen.head'_iff.mp hab
    rw [walk_succ hac]
    obtain rfl | hcb := Relation.reflTransGen_iff_eq_or_transGen.mp hcb
    · exact List.mem_cons_self
    · exact List.mem_cons_of_mem c (ih (h c hac) hcb)

end Chain
