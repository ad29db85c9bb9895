import Mathlib.Data.Prod.Lex
import Mathlib.Data.String.Basic
import SilkGraph.Data.Clock

/-!
# Clocks are totally ordered

`cmp_order` compares clocks as triples in lexicographic order, the author reversed, so it is
a linear order and `clock_wins` is its strict part. Everything last-writer-wins about the
graph is stated over this order.
-/

namespace SilkGraph

namespace HybridClock

/-- The triple a clock is compared by. -/
def key (c : HybridClock) : ℕ ×ₗ (ℕ ×ₗ Stringᵒᵈ) :=
  toLex (c.physicalMs, toLex (c.logical, OrderDual.toDual c.id))

theorem key_injective : Function.Injective key := by
  rintro ⟨ai, ap, al⟩ ⟨bi, bp, bl⟩ h
  simp only [key, EmbeddingLike.apply_eq_iff_eq, Prod.mk.injEq] at h
  obtain ⟨rfl, rfl, rfl⟩ := h
  rfl

instance : LinearOrder HybridClock := LinearOrder.lift' key key_injective

theorem lt_iff (a b : HybridClock) : a < b ↔ a.physicalMs < b.physicalMs ∨
    a.physicalMs = b.physicalMs ∧ (a.logical < b.logical ∨
      a.logical = b.logical ∧ b.id < a.id) := by
  change key a < key b ↔ _
  rw [key, key, Prod.Lex.toLex_lt_toLex, Prod.Lex.toLex_lt_toLex]
  rfl

/-! ### Time stamps -/

/-- The counter fits its type, `u32`. -/
def Fits (c : HybridClock) : Prop := c.logical < 2 ^ 32

/-- What is left of a clock without its author: physical time, then the counter. -/
def stamp (c : HybridClock) : ℕ ×ₗ ℕ := toLex c.asTuple

theorem stamp_le_iff {a b : HybridClock} : a.stamp ≤ b.stamp ↔
    a.physicalMs < b.physicalMs ∨ a.physicalMs = b.physicalMs ∧ a.logical ≤ b.logical := by
  rw [stamp, stamp, Prod.Lex.toLex_le_toLex]
  rfl

theorem stamp_lt_iff {a b : HybridClock} : a.stamp < b.stamp ↔
    a.physicalMs < b.physicalMs ∨ a.physicalMs = b.physicalMs ∧ a.logical < b.logical := by
  rw [stamp, stamp, Prod.Lex.toLex_lt_toLex]
  rfl

theorem lt_of_stamp_lt {a b : HybridClock} (h : a.stamp < b.stamp) : a < b := by
  rw [stamp_lt_iff] at h
  rw [lt_iff]
  omega

theorem Fits.tick {c : HybridClock} (h : c.Fits) (wall : ℕ) : (c.tick wall).Fits := by
  unfold Fits at *
  rw [HybridClock.tick]
  split
  · exact Nat.two_pow_pos 32
  · change min _ _ < _
    omega

/-- A tick never goes back: the counter saturates, it does not wrap. -/
theorem stamp_le_tick {c : HybridClock} (h : c.Fits) (wall : ℕ) :
    c.stamp ≤ (c.tick wall).stamp := by
  unfold Fits at h
  rw [stamp_le_iff, HybridClock.tick]
  split
  · left
    assumption
  · right
    refine ⟨rfl, ?_⟩
    change _ ≤ min _ _
    omega

theorem Fits.merge {c remote : HybridClock} (wall : ℕ) : (c.merge remote wall).Fits := by
  have hsat : ∀ n, saturatingSucc n < 2 ^ 32 := fun n => by
    unfold saturatingSucc
    omega
  unfold Fits
  rw [HybridClock.merge]
  dsimp only
  repeat' split
  · exact Nat.two_pow_pos 32
  all_goals exact hsat _

/-- A merged clock is no earlier than either side. -/
theorem stamp_le_merge {c remote : HybridClock} (hc : c.Fits) (hr : remote.Fits) (wall : ℕ) :
    c.stamp ≤ (c.merge remote wall).stamp ∧ remote.stamp ≤ (c.merge remote wall).stamp := by
  have hsat : ∀ n < 2 ^ 32, n ≤ saturatingSucc n := fun n hn => by
    unfold saturatingSucc
    omega
  unfold Fits at hc hr
  have h₁ := hsat _ hc
  have h₂ := hsat _ hr
  have h₃ := hsat (max c.logical remote.logical) (by omega)
  rw [stamp_le_iff, stamp_le_iff, HybridClock.merge]
  dsimp only
  repeat' split
  all_goals omega

end HybridClock

theorem clockWins_iff {new old : HybridClock} : clockWins new old = true ↔ old < new := by
  rw [clockWins, beq_iff_eq, HybridClock.cmpOrder, HybridClock.lt_iff]
  simp only [Ordering.then_eq_gt, compare_gt_iff_gt, compare_eq_iff_eq]
  constructor
  · rintro (h | ⟨h, h' | ⟨h', h''⟩⟩)
    · exact .inl h
    · exact .inr ⟨h.symm, .inl h'⟩
    · exact .inr ⟨h.symm, .inr ⟨h'.symm, h''⟩⟩
  · rintro (h | ⟨h, h' | ⟨h', h''⟩⟩)
    · exact .inl h
    · exact .inr ⟨h.symm, .inl h'⟩
    · exact .inr ⟨h.symm, .inr ⟨h'.symm, h''⟩⟩

@[simp]
theorem clockWins_eq (new old : HybridClock) : clockWins new old = decide (old < new) := by
  rw [Bool.eq_iff_iff, clockWins_iff, decide_eq_true_iff]

end SilkGraph
