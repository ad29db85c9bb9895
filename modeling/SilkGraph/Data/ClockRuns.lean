import SilkGraph.Data.ClockOrder

/-!
# Runs of a clock

A clock is moved by local events and by merges with remote clocks, in any order and with any
wall-clock readings. It never goes back and its fields stay within their types. It moves past
its sides, itself and the remote clock, except when a side stands at the new physical time with
its counter at the maximum, where `saturating_add` stops (`run_strict_iff`).
-/

namespace SilkGraph

/-- What moves a clock: a local event or a merge, with the reading of the wall clock. -/
inductive ClockEvent where
  | tick (wall : ℕ)
  | merge (remote : HybridClock) (wall : ℕ)

namespace HybridClock

/-- The fields fit their types, `u64` and `u32`. -/
structure InRange (c : HybridClock) : Prop where
  physical : c.physicalMs < 2 ^ 64
  logical : c.Fits

theorem InRange.of_lt {id : String} {p l : ℕ} (hp : p < 2 ^ 64) (hl : l < 2 ^ 32) :
    InRange ⟨id, p, l⟩ := ⟨hp, hl⟩

/-- The clock stands at that physical time and its counter cannot go further. -/
def Exhausted (c : HybridClock) (physical : ℕ) : Prop :=
  c.physicalMs = physical ∧ c.logical = 2 ^ 32 - 1

end HybridClock

namespace ClockEvent

/-- The clock after the event. -/
def run (c : HybridClock) : ClockEvent → HybridClock
  | .tick wall => c.tick wall
  | .merge remote wall => c.merge remote wall

/-- The clocks that the new one has to come after. -/
def sides (c : HybridClock) : ClockEvent → List HybridClock
  | .tick _ => [c]
  | .merge remote _ => [c, remote]

/-- The latest physical time in sight. -/
def horizon (c : HybridClock) : ClockEvent → ℕ
  | .tick wall => max c.physicalMs wall
  | .merge remote wall => max (max c.physicalMs remote.physicalMs) wall

/-- What comes from outside fits its types. -/
def InRange : ClockEvent → Prop
  | .tick wall => wall < 2 ^ 64
  | .merge remote wall => remote.InRange ∧ wall < 2 ^ 64

variable {c : HybridClock} {ev : ClockEvent}

theorem physicalMs_run : (ev.run c).physicalMs = ev.horizon c := by
  cases ev with
  | tick wall =>
    rw [run, horizon, HybridClock.tick]
    split
    · dsimp only
      omega
    · dsimp only
      omega
  | merge remote wall => rfl

/-- **Step.** Nothing overflows. -/
theorem inRange_run (hc : c.InRange) (hev : ev.InRange) : (ev.run c).InRange := by
  refine ⟨?_, ?_⟩
  · have := hc.physical
    rw [physicalMs_run]
    cases ev with
    | tick wall =>
      have hwall : wall < 2 ^ 64 := hev
      rw [horizon]
      omega
    | merge remote wall =>
      have hremote := hev.1.physical
      have hwall := hev.2
      rw [horizon]
      omega
  · cases ev with
    | tick wall => exact hc.logical.tick wall
    | merge remote wall => exact .merge wall

/-- **Step.** The clock does not go back, and moves past its sides unless one is exhausted. -/
theorem strict_iff (hc : c.InRange) (hev : ev.InRange) :
    (∀ side ∈ ev.sides c, side.stamp ≤ (ev.run c).stamp) ∧
      ((∀ side ∈ ev.sides c, side.stamp < (ev.run c).stamp) ↔
        ∀ side ∈ ev.sides c, ¬ side.Exhausted (ev.horizon c)) := by
  have hl : c.logical < 2 ^ 32 := hc.logical
  cases ev with
  | tick wall =>
    refine ⟨by simpa [sides, run] using HybridClock.stamp_le_tick hc.logical wall, ?_⟩
    simp only [sides, List.mem_singleton, forall_eq, run, horizon, HybridClock.Exhausted,
      HybridClock.stamp_lt_iff, HybridClock.tick]
    split
    · dsimp only
      omega
    · dsimp only [saturatingSucc]
      omega
  | merge remote wall =>
    have hr : remote.logical < 2 ^ 32 := hev.1.logical
    refine ⟨by simpa [sides, run] using HybridClock.stamp_le_merge hc.logical hev.1.logical wall, ?_⟩
    simp only [sides, List.mem_cons, List.not_mem_nil, or_false, forall_eq_or_imp, forall_eq, run,
      horizon, HybridClock.Exhausted, HybridClock.stamp_lt_iff, HybridClock.merge, saturatingSucc]
    repeat' split
    all_goals omega

/-- The clocks of a run fit their types. -/
theorem inRange_foldl {evs : List ClockEvent} (hc : c.InRange) (hevs : ∀ ev ∈ evs, ev.InRange) :
    (evs.foldl run c).InRange := by
  induction evs generalizing c with
  | nil => exact hc
  | cons ev evs ih =>
    exact ih (inRange_run hc (hevs ev List.mem_cons_self)) fun e he => hevs e (List.mem_cons_of_mem ev he)

/-- **Runs of a clock.** In any run of local events and merges, no step overflows or goes back,
and a step moves the clock past itself and the remote clock if and only if neither of them
stands at the latest physical time in sight with an exhausted counter. -/
theorem run_strict_iff (c : HybridClock) (hc : c.InRange) (before : List ClockEvent) (ev : ClockEvent)
    (after : List ClockEvent) (hevs : ∀ e ∈ before ++ ev :: after, e.InRange) :
    let old := before.foldl run c
    let new := ev.run old
    new.InRange ∧ (∀ side ∈ ev.sides old, side.stamp ≤ new.stamp) ∧
      ((∀ side ∈ ev.sides old, side.stamp < new.stamp) ↔
        ∀ side ∈ ev.sides old, ¬ side.Exhausted (ev.horizon old)) := by
  intro old new
  have hold : old.InRange := inRange_foldl hc fun e he => hevs e (List.mem_append_left _ he)
  have hev : ev.InRange := hevs ev (List.mem_append_right _ List.mem_cons_self)
  exact ⟨inRange_run hold hev, strict_iff hold hev⟩

/-- An event at a reading of two, then a merge with the clock of a peer. -/
theorem run_strict_merge :
    let old := [ClockEvent.tick 2].foldl run ⟨"a", 1, 0⟩
    let new := (ClockEvent.merge ⟨"b", 2, 5⟩ 1).run old
    old.stamp < new.stamp ∧ new.stamp = toLex (2, 6) := by
  have hevs : ∀ e ∈ [ClockEvent.tick 2] ++ ClockEvent.merge ⟨"b", 2, 5⟩ 1 :: [], e.InRange := by
    simp only [List.cons_append, List.nil_append, List.mem_cons, List.not_mem_nil, or_false,
      forall_eq_or_imp, forall_eq]
    exact ⟨(by decide : 2 < 2 ^ 64), .of_lt (by decide) (by decide), (by decide : 1 < 2 ^ 64)⟩
  have hsides : ∀ side ∈ (ClockEvent.merge ⟨"b", 2, 5⟩ 1).sides ([ClockEvent.tick 2].foldl run ⟨"a", 1, 0⟩),
      ¬ side.Exhausted ((ClockEvent.merge ⟨"b", 2, 5⟩ 1).horizon
        ([ClockEvent.tick 2].foldl run ⟨"a", 1, 0⟩)) := by
    simp only [sides, List.mem_cons, List.not_mem_nil, or_false, forall_eq_or_imp, forall_eq]
    exact ⟨fun h => absurd h.2 (by decide), fun h => absurd h.2 (by decide)⟩
  have hstrict := (run_strict_iff ⟨"a", 1, 0⟩ (.of_lt (by decide) (by decide)) [.tick 2]
    (.merge ⟨"b", 2, 5⟩ 1) [] hevs).2.2.mpr hsides
  exact ⟨hstrict _ (.head _), rfl⟩

/-- A peer brings the counter to its maximum, and the clock stalls while the wall clock does. -/
theorem exhausted_stalls : ¬ ∀ (c : HybridClock) (before : List ClockEvent) (ev : ClockEvent),
    c.InRange → (∀ e ∈ before ++ [ev], e.InRange) →
    ∀ side ∈ ev.sides (before.foldl run c), side.stamp < (ev.run (before.foldl run c)).stamp := by
  intro h
  have hevs : ∀ e ∈ [ClockEvent.merge ⟨"b", 1, 2 ^ 32 - 1⟩ 1] ++ [ClockEvent.tick 1], e.InRange := by
    simp only [List.cons_append, List.nil_append, List.mem_cons, List.not_mem_nil, or_false,
      forall_eq_or_imp, forall_eq]
    exact ⟨⟨.of_lt (by decide) (by decide), (by decide : 1 < 2 ^ 64)⟩, (by decide : 1 < 2 ^ 64)⟩
  have hstrict := h ⟨"a", 1, 0⟩ [.merge ⟨"b", 1, 2 ^ 32 - 1⟩ 1] (.tick 1)
    (.of_lt (by decide) (by decide)) hevs _ (.head _)
  rw [HybridClock.stamp_lt_iff] at hstrict
  revert hstrict
  decide

end ClockEvent

end SilkGraph
