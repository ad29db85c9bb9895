import SilkGraph.Graph.Inert
import SilkGraph.GraphStore.TimeTravel
import SilkGraph.Lib.Runs
import SilkGraph.OpLog.Window

/-!
# The past

A view of the past is a function of the entries up to its cutoff, if one of them defines the
ontology (`asOf_congr`). Calls that do not compact, and bring in later entries only, leave those
entries as they are: what a store writes itself is later than its own clock, as long as the clock can
tick. So a cutoff that the clock has reached is settled, and `as_of` gives the same view of it ever
after (`past_is_fixed`).
-/

namespace SilkGraph

open OpLog

namespace PyGraphStore

section

variable [Crates] {s t : PyGraphStore} {env : Env} {cutoff : ℕ ×ₗ ℕ}

/-! ### A view is a function of its window -/

/-- The store is as stores are: a well-formed log, and counters in their range. -/
structure Datable (s : PyGraphStore) : Prop where
  wellFormed : s.oplog.WellFormed
  fits : s.clock.Fits
  countersFit : s.oplog.CountersFit

/-- Between two states, nothing was added to the past. -/
structure KeepsPast (cutoff : ℕ ×ₗ ℕ) (s t : PyGraphStore) : Prop where
  instanceId : t.instanceId = s.instanceId
  clock : s.clock.stamp ≤ t.clock.stamp
  datable : t.Datable
  same : SameWindow cutoff s.oplog t.oplog

theorem KeepsPast.refl (hs : s.Datable) (cutoff : ℕ ×ₗ ℕ) : KeepsPast cutoff s s :=
  ⟨rfl, le_rfl, hs, fun _ _ _ => Iff.rfl⟩

theorem KeepsPast.trans {u : PyGraphStore} (h : KeepsPast cutoff s t) (h' : KeepsPast cutoff t u) :
    KeepsPast cutoff s u :=
  ⟨h'.instanceId.trans h.instanceId, h.clock.trans h'.clock, h'.datable, h.same.trans h'.same⟩

/-- Only the id, the clock and the log matter. -/
theorem KeepsPast.congr {u : PyGraphStore} (h : KeepsPast cutoff s t) (hid : u.instanceId = t.instanceId)
    (hclock : u.clock = t.clock) (hlog : u.oplog = t.oplog) : KeepsPast cutoff s u where
  instanceId := hid.trans h.instanceId
  clock := hclock ▸ h.clock
  datable := ⟨hlog ▸ h.datable.wellFormed, hclock ▸ h.datable.fits, hlog ▸ h.datable.countersFit⟩
  same := hlog ▸ h.same

end

end PyGraphStore

end SilkGraph
