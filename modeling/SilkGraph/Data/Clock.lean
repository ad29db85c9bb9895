import Mathlib.Order.Basic
import SilkGraph.Data.Collections

/-!
# The hybrid logical clock

`clock.rs`. A clock orders by physical time, then by logical counter, then by author, the
*smaller* author id being the later one. The wall-clock reading that `tick` and `merge`
take is an argument here: it is whatever the host says, and it may go backwards.
-/

namespace SilkGraph

/-- Hybrid logical clock: `physicalMs` is a `u64`, `logical` a `u32`. -/
structure HybridClock where
  /-- The instance that owns the clock. -/
  id : String
  physicalMs : ℕ
  logical : ℕ
  deriving DecidableEq, Repr

/-- `u32::saturating_add(1)`. -/
def saturatingSucc (n : ℕ) : ℕ := min (n + 1) (2 ^ 32 - 1)

namespace HybridClock

/-- A new clock at the current wall-clock time. -/
def new (id : String) (wall : ℕ) : HybridClock := ⟨id, wall, 0⟩

/-- A clock with explicit values. -/
def withValues (id : String) (physicalMs logical : ℕ) : HybridClock := ⟨id, physicalMs, logical⟩

/-- Increment the clock for a local event. -/
def tick (self : HybridClock) (wall : ℕ) : HybridClock :=
  if self.physicalMs < wall then { self with physicalMs := wall, logical := 0 }
  else { self with logical := saturatingSucc self.logical }

/-- Merge with a remote clock. -/
def merge (self remote : HybridClock) (wall : ℕ) : HybridClock :=
  let newPhysical := max (max self.physicalMs remote.physicalMs) wall
  let logical :=
    if self.physicalMs < newPhysical ∧ remote.physicalMs < newPhysical then 0
    else if newPhysical = self.physicalMs ∧ newPhysical = remote.physicalMs then
      saturatingSucc (max self.logical remote.logical)
    else if newPhysical = self.physicalMs then saturatingSucc self.logical
    else saturatingSucc remote.logical
  { self with physicalMs := newPhysical, logical := logical }

/-- Total order of clocks; the comparison of the ids is reversed. -/
def cmpOrder (self other : HybridClock) : Ordering :=
  (compare self.physicalMs other.physicalMs).then
    ((compare self.logical other.logical).then (compare other.id self.id))

/-- Compact representation for sorting. -/
def asTuple (self : HybridClock) : ℕ × ℕ := (self.physicalMs, self.logical)

@[simp]
theorem tick_id (c : HybridClock) (wall : ℕ) : (c.tick wall).id = c.id := by
  unfold tick
  split <;> rfl

@[simp]
theorem merge_id (c remote : HybridClock) (wall : ℕ) : (c.merge remote wall).id = c.id := rfl

end HybridClock

/-- LWW comparison: the new clock wins over the existing one. -/
def clockWins (newClock existingClock : HybridClock) : Bool :=
  newClock.cmpOrder existingClock == .gt

end SilkGraph
