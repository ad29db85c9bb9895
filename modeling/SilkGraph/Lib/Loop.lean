import Mathlib.Data.Nat.Notation

/-!
# Loops

A loop is given by its turn, which goes on with a new state or leaves with a result. `run`
takes a number of turns at most. The rule for total correctness (`exists_run`) works with an
invariant that is indexed by a bound on the turns that are left, and `exists_run_of_le` with one
that counts the turns taken.
-/

namespace Loop

universe u v

variable {S : Type u} {R : Type v}

/-- Take turns until one of them leaves with a result; `none` if the turns are used up. -/
def run (turn : S → S ⊕ R) : ℕ → S → Option R
  | 0, _ => none
  | n + 1, s =>
    match turn s with
    | .inl s' => run turn n s'
    | .inr r => some r

variable {turn : S → S ⊕ R} {I : ℕ → S → Prop} {Q : R → Prop}

/-- A loop that has left stays with its result, however many more turns it may take. -/
theorem run_mono {m n : ℕ} {s : S} {r : R} (h : run turn m s = some r) (hmn : m ≤ n) :
    run turn n s = some r := by
  induction m generalizing n s with
  | zero => cases h
  | succ m ih =>
    obtain ⟨n, rfl⟩ := Nat.exists_eq_add_of_le' hmn
    rw [← Nat.add_assoc, run]
    rw [run] at h
    split
    · rename_i s' hs'
      rw [hs'] at h
      exact ih h (Nat.le_add_left m n)
    · rename_i r' hr
      rw [hr] at h
      exact h

/-- **Total correctness.** If a turn that goes on keeps the invariant with fewer turns left, and
one that leaves has a good result, the loop comes to a good result. -/
theorem exists_run (go : ∀ n s s', I n s → turn s = .inl s' → ∃ m < n, I m s')
    (leave : ∀ n s r, I n s → turn s = .inr r → Q r) {fuel n : ℕ} {s : S} (h : I n s)
    (hn : n < fuel) : ∃ r, run turn fuel s = some r ∧ Q r := by
  induction fuel generalizing n s with
  | zero => exact absurd hn (Nat.not_lt_zero n)
  | succ fuel ih =>
    rw [run]
    split
    · rename_i s' hs'
      obtain ⟨m, hm, h'⟩ := go n s s' h hs'
      exact ih h' (by omega)
    · rename_i r hr
      exact ⟨r, rfl, leave n s r h hr⟩

/-- Total correctness with an invariant that counts the turns taken, of which there are only so
many. -/
theorem exists_run_of_le {N : ℕ} {s : S} (start : I 0 s)
    (go : ∀ k s s', I k s → turn s = .inl s' → I (k + 1) s')
    (leave : ∀ k s r, I k s → turn s = .inr r → Q r) (bound : ∀ k s, I k s → k ≤ N) :
    ∃ r, run turn (N + 1) s = some r ∧ Q r := by
  refine exists_run (I := fun n s => ∃ k, I k s ∧ k + n = N) ?_ ?_ ⟨0, start, Nat.zero_add N⟩
    (Nat.lt_succ_self N)
  · rintro n s s' ⟨k, h, hk⟩ hturn
    have hgo : I (k + 1) s' := go k s s' h hturn
    have hle : k + 1 ≤ N := bound (k + 1) s' hgo
    exact ⟨N - (k + 1), by omega, k + 1, hgo, by omega⟩
  · rintro n s r ⟨k, h, -⟩ hturn
    exact leave k s r h hturn

end Loop
