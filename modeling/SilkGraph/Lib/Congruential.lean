import Mathlib.Algebra.Ring.GeomSum
import Mathlib.Data.ZMod.Basic
import Mathlib.NumberTheory.Multiplicity
import Mathlib.RingTheory.Int.Basic

/-!
# Linear congruential generators

A generator that replaces its state `x` with `a * x + c` in a ring. Modulo a power of two it
has full period if `a` leaves the remainder one on division by four and `c` is odd: from every
state it reaches every state (`exists_iterate_eq`).

After `m` steps the state has moved by the geometric sum of `a` times an odd number
(`iterate_step`), and that sum is divisible by exactly those powers of two that divide `m`
(`two_pow_dvd_geom_sum`), so the first `2 ^ k` states are distinct.
-/

namespace Congruential

open Finset Function

section Ring

variable {R : Type} [CommRing R]

/-- One step of the generator with multiplier `a` and increment `c`. -/
def step (a c x : R) : R := a * x + c

/-- How far the state moves in `m` steps. -/
theorem iterate_step (a c x : R) (m : ℕ) :
    (step a c)^[m] x = x + (∑ i ∈ range m, a ^ i) * ((a - 1) * x + c) := by
  induction m with
  | zero => simp
  | succ m ih =>
    rw [iterate_succ_apply', ih, step, geom_sum_succ]
    ring

end Ring

/-! ### Full period modulo a power of two -/

variable {a c : ℤ} {k : ℕ}

/-- A geometric sum of `m` terms has the factors two that `m` has. -/
theorem two_pow_dvd_geom_sum (ha : a % 4 = 1) (k m : ℕ) :
    2 ^ k ∣ ∑ i ∈ range m, a ^ i ↔ 2 ^ k ∣ m := by
  rcases eq_or_ne a 1 with rfl | hne
  · simp only [one_pow, sum_const, card_range, nsmul_eq_mul, mul_one]
    exact_mod_cast Iff.rfl
  have hodd : ¬ (2 : ℤ) ∣ a := by omega
  have hfour : (4 : ℤ) ∣ a - 1 := by omega
  have hpow : emultiplicity 2 (a ^ m - 1 ^ m) =
      emultiplicity 2 (a - 1) + emultiplicity (2 : ℤ) m :=
    Int.two_pow_sub_pow' m hfour hodd
  have hfin : emultiplicity 2 (a - 1) ≠ ⊤ := by
    rw [← finiteMultiplicity_iff_emultiplicity_ne_top, Int.finiteMultiplicity_iff]
    exact ⟨by decide, by omega⟩
  have hsum : emultiplicity 2 (∑ i ∈ range m, a ^ i) = emultiplicity (2 : ℤ) m := by
    rw [one_pow, ← mul_geom_sum, emultiplicity_mul Int.prime_two] at hpow
    exact ENat.add_right_injective_of_ne_top hfin hpow
  rw [pow_dvd_iff_le_emultiplicity, hsum, ← pow_dvd_iff_le_emultiplicity]
  exact_mod_cast Iff.rfl

/-- The generator comes back to a state only after a multiple of `2 ^ k` steps. -/
theorem two_pow_dvd_of_iterate_eq (ha : a % 4 = 1) (hc : Odd c) {x : ZMod (2 ^ k)} {m : ℕ}
    (h : (step (a : ZMod (2 ^ k)) c)^[m] x = x) : 2 ^ k ∣ m := by
  obtain ⟨y, rfl⟩ := ZMod.intCast_surjective x
  rw [iterate_step, add_eq_left] at h
  have hdvd : (2 : ℤ) ^ k ∣ (∑ i ∈ range m, a ^ i) * ((a - 1) * y + c) := by
    have h0 : (((∑ i ∈ range m, a ^ i) * ((a - 1) * y + c) : ℤ) : ZMod (2 ^ k)) = 0 := by
      push_cast
      exact h
    exact_mod_cast (ZMod.intCast_zmod_eq_zero_iff_dvd _ _).mp h0
  -- `a - 1` is even and `c` is odd, so the second factor takes no part in it
  have hodd : Odd ((a - 1) * y + c) := by
    have heven : Even (a - 1) := by
      rw [Int.even_iff]
      omega
    exact (heven.mul_right y).add_odd hc
  have hcop : IsCoprime ((2 : ℤ) ^ k) ((a - 1) * y + c) :=
    (Int.isCoprime_two_left.mpr hodd).pow_left
  exact (two_pow_dvd_geom_sum ha k m).mp (hcop.dvd_of_dvd_mul_right hdvd)

/-- The first `2 ^ k` states are distinct. -/
theorem iterate_inj (ha : a % 4 = 1) (hc : Odd c) {x : ZMod (2 ^ k)} {i j : ℕ} (hj : j < 2 ^ k)
    (hij : i ≤ j) (h : (step (a : ZMod (2 ^ k)) c)^[i] x = (step (a : ZMod (2 ^ k)) c)^[j] x) :
    i = j := by
  have hback : (step (a : ZMod (2 ^ k)) c)^[j - i] ((step (a : ZMod (2 ^ k)) c)^[i] x) =
      (step (a : ZMod (2 ^ k)) c)^[i] x := by
    rw [← iterate_add_apply, Nat.sub_add_cancel hij, ← h]
  have hdvd : 2 ^ k ∣ j - i := two_pow_dvd_of_iterate_eq ha hc hback
  have hzero : j - i = 0 := Nat.eq_zero_of_dvd_of_lt hdvd (by omega)
  omega

/-- **Full period.** From every state the generator reaches every state in fewer than `2 ^ k`
steps. -/
theorem exists_iterate_eq (ha : a % 4 = 1) (hc : Odd c) (x y : ZMod (2 ^ k)) :
    ∃ i < 2 ^ k, (step (a : ZMod (2 ^ k)) c)^[i] x = y := by
  let visit : Fin (2 ^ k) → ZMod (2 ^ k) := fun i => (step (a : ZMod (2 ^ k)) c)^[i] x
  have hinj : Injective visit := by
    intro i j h
    rcases Nat.le_total i j with hij | hij
    · exact Fin.ext (iterate_inj ha hc j.isLt hij h)
    · exact Fin.ext (iterate_inj ha hc i.isLt hij h.symm).symm
  have hbij : Bijective visit := by
    rw [Fintype.bijective_iff_injective_and_card]
    exact ⟨hinj, by rw [Fintype.card_fin, ZMod.card]⟩
  obtain ⟨i, hi⟩ := hbij.surjective y
  exact ⟨i, i.isLt, hi⟩

end Congruential
