import SilkGraph.Graph.Queries
import SilkGraph.GraphStore.Resolved

/-!
# What a compaction keeps

A compaction writes the live graph out as operations and replays them under a checkpoint, with
what was quarantined behind it. `Preserves` is what it is meant to do: the live nodes and the
visible edges are as they were, with their clocks. In the replay the operations are judged one
by one and carry the author of the checkpoint, so this comes out only for a graph that is
`Restorable`; `compaction_preserves_iff` says exactly so, as long as what is quarantined would
be refused again (`Refused`).
-/

namespace SilkGraph

open OpLog

namespace MaterializedGraph

variable {b g g' : MaterializedGraph} {σ : HashOrder} {id : String}

/-! ### What is kept -/

/-- The live nodes and the visible edges are the same, but for `last_clock`. -/
structure Preserves (before after : MaterializedGraph) : Prop where
  nodes : ∀ id, (after.getNode id).map Node.kept = (before.getNode id).map Node.kept
  edges : ∀ id, (after.visibleEdge id).map Edge.kept = (before.visibleEdge id).map Edge.kept

/-- Everything that is visible comes back from its operations under an author: the ontology
takes them, the author owns the clocks, and no edge with properties has the identifier of a
node. -/
structure Restorable (g : MaterializedGraph) [Crates] (o : Ontology) (author : String) : Prop where
  nodes : ∀ id nd, g.getNode id = some nd → nd.Restorable o author
  edges : ∀ id ed, g.visibleEdge id = some ed → ed.Restorable o author
  between : ∀ id ed src tgt, g.visibleEdge id = some ed → g.getNode ed.sourceId = some src →
    g.getNode ed.targetId = some tgt →
    (o.validateEdgeMode ed.edgeType src.nodeType tgt.nodeType ∅ .skipRequired).isOk = true
  apart : ∀ id nd ed, g.getNode id = some nd → g.visibleEdge id = some ed → ed.properties = ∅

instance [Crates] (g : MaterializedGraph) (o : Ontology) (author : String) :
    Decidable (g.Restorable o author) :=
  decidable_of_iff ((∀ kv ∈ g.nodes.toList, ∀ nd ∈ g.getNode kv.1, nd.Restorable o author) ∧
      ∀ kv ∈ g.edges.toList, ∀ ed ∈ g.visibleEdge kv.1, ed.Restorable o author ∧
        (∀ src ∈ g.getNode ed.sourceId, ∀ tgt ∈ g.getNode ed.targetId,
          (o.validateEdgeMode ed.edgeType src.nodeType tgt.nodeType ∅ .skipRequired).isOk = true) ∧
        ∀ nd ∈ g.getNode kv.1, ed.properties.isEmpty = true) <| by
    have hnode : ∀ id nd, g.getNode id = some nd → (id, nd) ∈ g.nodes.toList := fun id nd h =>
      HashMap.mem_toList.mpr (getNode_eq_some_iff.mp h).1
    have hedge : ∀ id ed, g.visibleEdge id = some ed → (id, ed) ∈ g.edges.toList := fun id ed h =>
      HashMap.mem_toList.mpr (visibleEdge_eq_some.mp h).1
    constructor
    · rintro ⟨hn, he⟩
      refine ⟨fun id nd h => hn _ (hnode id nd h) nd h, fun id ed h => (he _ (hedge id ed h) ed h).1,
        fun id ed src tgt h hs ht => (he _ (hedge id ed h) ed h).2.1 src hs tgt ht, ?_⟩
      exact fun id nd ed hnd h => Std.ExtTreeMap.isEmpty_iff.mp ((he _ (hedge id ed h) ed h).2.2 nd hnd)
    · intro h
      refine ⟨fun kv _ nd hnd => h.nodes kv.1 nd hnd, fun kv _ ed hed => ⟨h.edges kv.1 ed hed, ?_, ?_⟩⟩
      · exact fun src hs tgt ht => h.between kv.1 ed src tgt hed hs ht
      · exact fun nd hnd => Std.ExtTreeMap.isEmpty_iff.mpr (h.apart kv.1 nd ed hnd hed)

/-! ### The operations that restore a graph -/

end MaterializedGraph

namespace PyGraphStore

variable {nd : Node} {ed : Edge} {oc : GraphOp × HybridClock}

theorem mem_propertyOps {id : String} {t : PropertyTable} {last : HybridClock}
    (h : oc ∈ propertyOps id t last) : ∃ k v, t.properties[k]? = some v ∧ oc.1 = .updateProperty id k v := by
  obtain ⟨⟨k, v⟩, hkv, rfl⟩ := List.mem_map.mp h
  exact ⟨k, v, HashMap.mem_toList.mp hkv, rfl⟩

theorem mem_nodeOps (h : oc ∈ nodeOps nd) :
    oc.1 = .addNode nd.nodeId nd.nodeType nd.subtype nd.label ∅ ∨
      ∃ k v, nd.properties[k]? = some v ∧ oc.1 = .updateProperty nd.nodeId k v := by
  obtain rfl | h := List.mem_cons.mp h
  · exact .inl rfl
  · exact .inr (mem_propertyOps h)

theorem mem_edgeOps (h : oc ∈ edgeOps ed) :
    oc.1 = .addEdge ed.edgeId ed.edgeType ed.sourceId ed.targetId ∅ ∨
      ∃ k v, ed.properties[k]? = some v ∧ oc.1 = .updateProperty ed.edgeId k v := by
  obtain rfl | h := List.mem_cons.mp h
  · exact .inl rfl
  · exact .inr (mem_propertyOps h)

end PyGraphStore

theorem eventsAt_flatMap {α : Type} (id : String) (key : α → String) (evs : α → List Event) (l : List α) :
    eventsAt id (l.flatMap fun a => (evs a).map (Prod.mk (key a))) =
      (l.filter fun a => key a = id).flatMap evs := by
  induction l with
  | nil => rfl
  | cons a l ih =>
    have hone : eventsAt id ((evs a).map (Prod.mk (key a))) = if key a = id then evs a else [] := by
      rw [eventsAt, List.filterMap_map]
      split <;> rename_i h
      · simp [h]
      · simp [h]
    rw [List.flatMap_cons, eventsAt_append, ih, hone, List.filter_cons]
    by_cases h : key a = id <;> simp [h]

namespace MaterializedGraph

open PyGraphStore

variable [Crates] {b g g' : MaterializedGraph} {σ : HashOrder} {id author : String} {o : Ontology}
  {nd : Node} {ed : Edge}

theorem ownEvents_propertyOps (g : MaterializedGraph) (id : String) (t : PropertyTable) (last : HybridClock)
    (author : String) : (propertyOps id t last).flatMap
      (fun oc => g.ownEvents .skipRequired (opEntry author oc)) =
        (t.updates author last).map (Prod.mk id) := by
  rw [propertyOps, PropertyTable.updates, List.flatMap_map, List.map_map, List.map_eq_flatMap]
  rfl

/-- The operations of a node are the events that restore it. -/
theorem ownEvents_nodeOps (g : MaterializedGraph) (nd : Node) (author : String) :
    (nodeOps nd).flatMap (fun oc => g.ownEvents .skipRequired (opEntry author oc)) =
      (nd.restoring g.ontology author).map (Prod.mk nd.nodeId) := by
  rw [nodeOps, List.flatMap_cons, ownEvents_propertyOps, Node.restoring, List.map_append]
  congr 1
  rw [ownEvents, opEntry]
  simp only [Entry.new]
  split <;> rfl

/-- The operations of an edge are the events that restore it. -/
theorem ownEvents_edgeOps (g : MaterializedGraph) (ed : Edge) (author : String) :
    (edgeOps ed).flatMap (fun oc => g.ownEvents .skipRequired (opEntry author oc)) =
      (ed.restoring (g.acceptsEdge .skipRequired ed.edgeType ed.sourceId ed.targetId ∅) author).map
        (Prod.mk ed.edgeId) := by
  rw [edgeOps, List.flatMap_cons, ownEvents_propertyOps, Edge.restoring, List.map_append]
  congr 1
  rw [ownEvents, opEntry]
  simp only [Entry.new, edgeEvents]
  split <;> rfl

/-- While operations are replayed: nothing but the given nodes and edges is there. -/
structure Stage (nodes : String → Option Node) (edges : String → Option Edge) (o : Ontology)
    (g : MaterializedGraph) : Prop where
  ontology : g.ontology = o
  held : g.HeldByHash
  within : ∀ id, (g.slot id).Within (nodes id) (edges id)

/-- **Step.** An operation that completes no held edge. -/
theorem Stage.step {nodes : String → Option Node} {edges : String → Option Edge}
    (h : Stage nodes edges o g) {x : Entry} (hx : x.Ordinary) (alone : g.retried σ .skipRequired x = [])
    (restores : ∀ u ∈ g.ownEvents .skipRequired x, Slot.Restores (nodes u.1) (edges u.1) u.2) :
    Stage nodes edges o (g.applyInner σ x .skipRequired true) := by
  refine ⟨(applyInner_frame g σ hx _ true).1.trans h.ontology, h.held.ordinary σ hx _ true, fun id => ?_⟩
  rw [slot_applyInner g σ hx, events_eq, alone, List.flatMap_nil, List.append_nil]
  exact (h.within id).play fun ev hev => restores (id, ev) (mem_eventsAt.mp hev)

/-- **The nodes.** Their operations are replayed first, over a graph that holds no edge. -/
theorem replay_nodes (hb : ∀ id, (b.slot id).Sound id) (h : Stage b.getNode (fun _ => none) o g)
    (hpending : g.pendingEdges = ∅) (author : String) (σ σ' : HashOrder) :
    let g' := g.replayOps σ author ((b.allNodes σ').flatMap nodeOps)
    Stage b.getNode (fun _ => none) o g' ∧
      (∀ id, g'.slot id = (g.slot id).play o id ((b.getNode id).elim [] (Node.restoring · o author))) ∧
      ((∀ id nd, b.getNode id = some nd → nd.Restorable o author) →
        ∀ x ∈ g'.quarantined, x ∈ g.quarantined) := by
  have hop : ∀ oc ∈ (b.allNodes σ').flatMap nodeOps, ∃ nd, b.getNode nd.nodeId = some nd ∧
      (oc.1 = .addNode nd.nodeId nd.nodeType nd.subtype nd.label ∅ ∨
        ∃ k v, nd.properties[k]? = some v ∧ oc.1 = .updateProperty nd.nodeId k v) := by
    intro oc hoc
    obtain ⟨nd, hnd, hoc⟩ := List.mem_flatMap.mp hoc
    exact ⟨nd, (mem_allNodes hb).mp hnd, mem_nodeOps hoc⟩
  let S : MaterializedGraph → Prop := fun g => Stage b.getNode (fun _ => none) o g ∧ g.pendingEdges = ∅
  have hord : ∀ oc ∈ (b.allNodes σ').flatMap nodeOps, (opEntry author oc).Ordinary := fun oc hoc => by
    obtain ⟨nd, -, hadd | ⟨k, v, -, hupd⟩⟩ := hop oc hoc
    · exact ⟨by simp [opEntry, Entry.new, hadd, GraphOp.isExtendOntology],
        by simp [opEntry, Entry.new, hadd, GraphOp.isCheckpoint]⟩
    · exact ⟨by simp [opEntry, Entry.new, hupd, GraphOp.isExtendOntology],
        by simp [opEntry, Entry.new, hupd, GraphOp.isCheckpoint]⟩
  have halone : ∀ g, S g → ∀ oc ∈ (b.allNodes σ').flatMap nodeOps,
      g.retried σ .skipRequired (opEntry author oc) = [] := fun g hg oc _ => by
    refine List.eq_nil_iff_forall_not_mem.mpr fun p hp => ?_
    obtain ⟨-, x, hx⟩ := ready_of_retried hp
    rw [hg.2, Std.ExtTreeMap.getElem?_empty] at hx
    cases hx
  -- without an edge, what an operation means depends on the ontology only
  have hevents : ∀ g', S g' → ∀ oc ∈ (b.allNodes σ').flatMap nodeOps,
      g'.ownEvents .skipRequired (opEntry author oc) =
        g.ownEvents .skipRequired (opEntry author oc) := fun g' hg' oc hoc => by
    obtain ⟨nd, -, hadd | ⟨k, v, -, hupd⟩⟩ := hop oc hoc
    · simp only [ownEvents, opEntry, Entry.new, hadd, hg'.1.ontology, h.ontology]
    · simp only [ownEvents, opEntry, Entry.new, hupd]
  have hkeeps : ∀ g, S g → ∀ oc ∈ (b.allNodes σ').flatMap nodeOps,
      S (g.applyInner σ (opEntry author oc) .skipRequired true) := fun g hg oc hoc => by
    refine ⟨hg.1.step (hord oc hoc) (halone g hg oc hoc) fun u hu => ?_, ?_⟩
    · obtain ⟨nd, hnd, hadd | ⟨k, v, -, hupd⟩⟩ := hop oc hoc
      · simp only [ownEvents, opEntry, Entry.new, hadd] at hu
        split at hu
        · obtain rfl := List.mem_singleton.mp hu
          exact ⟨nd, hnd, rfl, rfl⟩
        · cases hu
      · simp only [ownEvents, opEntry, Entry.new, hupd] at hu
        obtain rfl := List.mem_singleton.mp hu
        trivial
    · refine Std.ExtTreeMap.ext_getElem? fun {x} => ?_
      rw [getElem?_pending_applyInner g σ (hord oc hoc), halone g hg oc hoc, hg.2]
      obtain ⟨nd, -, hadd | ⟨k, v, -, hupd⟩⟩ := hop oc hoc
      · simp [opEntry, Entry.new, hadd, holds]
      · simp [opEntry, Entry.new, hupd, holds]
  obtain ⟨hS, hslot, hquarantined⟩ := replayOps_spec hord (fun g hg => hg.1.ontology)
    (fun g hg => hg.1.held) halone hevents hkeeps (⟨h, hpending⟩ : S g)
  refine ⟨hS.1, fun id => (hslot id).trans ?_, fun hr => hquarantined fun g hg oc hoc => ?_⟩
  · rw [List.flatMap_assoc]
    simp only [ownEvents_nodeOps]
    rw [eventsAt_flatMap, filter_allNodes hb, h.ontology]
    cases b.getNode id with
    | none => rfl
    | some nd => simp
  · obtain ⟨nd, hnd, hadd | ⟨k, v, hv, hupd⟩⟩ := hop oc hoc
    · rw [hadd, accepts, hg.1.ontology]
      exact (hr _ nd hnd).added
    · rw [hupd, accepts, hg.1.ontology]
      refine (hg.1.within nd.nodeId).accepts (fun n hn => ?_) fun _ e he => by cases he
      obtain rfl : nd = n := Option.some.inj (hnd.symm.trans hn)
      obtain ⟨c, hcell⟩ := ((hb nd.nodeId).node nd (getNode_eq_some_iff.mp hnd).1).2.exists_clock hv
      exact ((hr _ nd hnd).updated k v c hcell).1

theorem isOk_acceptsEdge {mode : ValidationMode} {ty src tgt s t : String} {ps : BTreeMap String Value}
    (hs : g.typeOf src = some s) (ht : g.typeOf tgt = some t) :
    g.acceptsEdge mode ty src tgt ps = (g.ontology.validateEdgeMode ty s t ps mode).isOk := by
  rw [acceptsEdge, hs, ht]
  cases hv : (g.ontology.validateEdgeMode ty s t ps mode).isOk with
  | false => simp [hv]
  | true =>
    obtain ⟨d, hd, -⟩ := Ontology.isOk_validateEdgeMode.mp hv
    simp only [hv, Bool.and_true]
    exact Std.ExtTreeMap.contains_iff_mem.mpr (HashMap.mem_iff_getElem?.mpr ⟨d, hd⟩)

/-- **The edges.** They do not change the types of the nodes, so each is judged by the types
that are there at the start. -/
theorem replay_edges (hb : ∀ id, (b.slot id).Sound id) (h : Stage b.getNode b.visibleEdge o g)
    (author : String) (σ σ' : HashOrder) :
    let g' := g.replayOps σ author ((b.allEdges σ').flatMap edgeOps)
    let accepted := fun ed : Edge => g.acceptsEdge .skipRequired ed.edgeType ed.sourceId ed.targetId ∅
    Stage b.getNode b.visibleEdge o g' ∧
      (∀ id, g'.slot id = (g.slot id).play o id
        ((b.visibleEdge id).elim [] fun ed => ed.restoring (accepted ed) author)) ∧
      ((∀ id ed, b.visibleEdge id = some ed → accepted ed = true ∧ ed.Restorable o author ∧
          ∀ nd, b.getNode id = some nd → ed.properties = ∅) →
        ∀ x ∈ g'.quarantined, x ∈ g.quarantined) := by
  intro g' accepted
  have hop : ∀ oc ∈ (b.allEdges σ').flatMap edgeOps, ∃ ed, b.visibleEdge ed.edgeId = some ed ∧
      (oc.1 = .addEdge ed.edgeId ed.edgeType ed.sourceId ed.targetId ∅ ∨
        ∃ k v, ed.properties[k]? = some v ∧ oc.1 = .updateProperty ed.edgeId k v) := by
    intro oc hoc
    obtain ⟨ed, hed, hoc⟩ := List.mem_flatMap.mp hoc
    exact ⟨ed, (mem_allEdges hb).mp hed, mem_edgeOps hoc⟩
  let S : MaterializedGraph → Prop := fun g' => Stage b.getNode b.visibleEdge o g' ∧
    ∀ i, g'.typeOf i = g.typeOf i
  have hord : ∀ oc ∈ (b.allEdges σ').flatMap edgeOps, (opEntry author oc).Ordinary := fun oc hoc => by
    obtain ⟨ed, -, hadd | ⟨k, v, -, hupd⟩⟩ := hop oc hoc
    · exact ⟨by simp [opEntry, Entry.new, hadd, GraphOp.isExtendOntology],
        by simp [opEntry, Entry.new, hadd, GraphOp.isCheckpoint]⟩
    · exact ⟨by simp [opEntry, Entry.new, hupd, GraphOp.isExtendOntology],
        by simp [opEntry, Entry.new, hupd, GraphOp.isCheckpoint]⟩
  have halone : ∀ g, S g → ∀ oc ∈ (b.allEdges σ').flatMap edgeOps,
      g.retried σ .skipRequired (opEntry author oc) = [] := fun g _ oc hoc => by
    obtain ⟨ed, -, hadd | ⟨k, v, -, hupd⟩⟩ := hop oc hoc
    · simp only [retried, opEntry, Entry.new, hadd]
    · simp only [retried, opEntry, Entry.new, hupd]
  have hevents : ∀ g', S g' → ∀ oc ∈ (b.allEdges σ').flatMap edgeOps,
      g'.ownEvents .skipRequired (opEntry author oc) =
        g.ownEvents .skipRequired (opEntry author oc) := fun g' hg' oc hoc => by
    obtain ⟨ed, -, hadd | ⟨k, v, -, hupd⟩⟩ := hop oc hoc
    · simp only [ownEvents, opEntry, Entry.new, hadd]
      exact edgeEvents_congr (hg'.1.ontology.trans h.ontology.symm) hg'.2 _
    · simp only [ownEvents, opEntry, Entry.new, hupd]
  have hkeeps : ∀ g, S g → ∀ oc ∈ (b.allEdges σ').flatMap edgeOps,
      S (g.applyInner σ (opEntry author oc) .skipRequired true) := fun g hg oc hoc => by
    refine ⟨hg.1.step (hord oc hoc) (halone g hg oc hoc) fun u hu => ?_, fun i => ?_⟩
    · obtain ⟨ed, hed, hadd | ⟨k, v, -, hupd⟩⟩ := hop oc hoc
      · simp only [ownEvents, opEntry, Entry.new, hadd, edgeEvents] at hu
        split at hu
        · obtain rfl := List.mem_singleton.mp hu
          exact ⟨ed, hed, rfl⟩
        · cases hu
      · simp only [ownEvents, opEntry, Entry.new, hupd] at hu
        obtain rfl := List.mem_singleton.mp hu
        trivial
    · rw [(applyInner_frame g σ (hord oc hoc) _ true).2.1, ← hg.2 i]
      obtain ⟨ed, -, hadd | ⟨k, v, -, hupd⟩⟩ := hop oc hoc
      · simp only [opEntry, Entry.new, hadd]
      · simp only [opEntry, Entry.new, hupd]
  obtain ⟨hS, hslot, hquarantined⟩ := replayOps_spec hord (fun g hg => hg.1.ontology)
    (fun g hg => hg.1.held) halone hevents hkeeps (⟨h, fun _ => rfl⟩ : S g)
  refine ⟨hS.1, fun id => (hslot id).trans ?_, fun hr => hquarantined fun g' hg' oc hoc => ?_⟩
  · rw [List.flatMap_assoc]
    simp only [ownEvents_edgeOps]
    rw [eventsAt_flatMap, filter_allEdges hb]
    cases b.visibleEdge id with
    | none => rfl
    | some ed => simp [accepted]
  · obtain ⟨ed, hed, hadd | ⟨k, v, hv, hupd⟩⟩ := hop oc hoc
    · rw [hadd, accepts, ← (hr _ ed hed).1]
      change _ = g.acceptsEdge .skipRequired ed.edgeType ed.sourceId ed.targetId ∅
      rw [acceptsEdge, acceptsEdge, funext hg'.2, hg'.1.ontology, h.ontology]
    · rw [hupd, accepts, hg'.1.ontology]
      refine (hg'.1.within ed.edgeId).accepts (fun n hn => ?_) fun _ e he => ?_
      · have hempty := (hr _ ed hed).2.2 n hn
        rw [hempty, Std.ExtTreeMap.getElem?_empty] at hv
        cases hv
      · obtain rfl : ed = e := Option.some.inj (hed.symm.trans he)
        obtain ⟨c, hcell⟩ := ((hb ed.edgeId).edge ed (visibleEdge_eq_some.mp hed).1).2.exists_clock hv
        exact ((hr _ ed hed).2.1.updated k v c hcell).1

/-- All that is in the slots of the graph comes from what another shows. -/
def Shows (b g : MaterializedGraph) : Prop := ∀ id, (g.slot id).Within (b.getNode id) (b.visibleEdge id)

omit [Crates] in
/-- Such a graph shows the same if its slots are the same. -/
theorem Shows.preserves_iff (h : Shows b g) :
    b.Preserves g ↔ ∀ id, (g.slot id).Keeps (b.getNode id) (b.visibleEdge id) := by
  have hget : ∀ id, g.getNode id = g.nodes[id]? := fun id => by
    cases hn : g.nodes[id]? with
    | none => rw [getNode, hn]; rfl
    | some nd => exact getNode_eq_some_iff.mpr ⟨hn, ((h id).node nd hn).1⟩
  constructor
  · intro hp id
    refine ⟨(congrArg _ (hget id)).symm.trans (hp.nodes id), ?_⟩
    have hedges := hp.edges id
    cases hv : b.visibleEdge id with
    | none =>
      cases he : g.edges[id]? with
      | none => exact congrArg _ he
      | some ed =>
        obtain ⟨-, e, hvis, -⟩ := (h id).edge ed he
        rw [hv] at hvis
        cases hvis
    | some ed =>
      rw [hv] at hedges
      obtain ⟨x, hx, hkept⟩ := Option.map_eq_some_iff.mp hedges
      have hslot : (g.slot id).edge = some x := (visibleEdge_eq_some.mp hx).1
      rw [hslot]
      exact congrArg some hkept
  · intro hk
    have hnodes : ∀ id, (g.getNode id).map Node.kept = (b.getNode id).map Node.kept := fun id => by
      rw [hget]
      exact (hk id).1
    refine ⟨hnodes, fun id => ?_⟩
    have hlive : ∀ id, (g.getNode id).isSome = (b.getNode id).isSome := fun id => by
      simpa using congrArg Option.isSome (hnodes id)
    have hedge := (hk id).2
    cases he : g.edges[id]? with
    | none =>
      have hslot : (g.slot id).edge = none := he
      rw [← hedge, hslot, visibleEdge, he]
      rfl
    | some x =>
      have hslot : (g.slot id).edge = some x := he
      rw [hslot] at hedge
      obtain ⟨e, hv, hkept⟩ := Option.map_eq_some_iff.mp hedge.symm
      obtain ⟨-, -, hs, ht⟩ := visibleEdge_eq_some.mp hv
      have hvis : g.visibleEdge id = some x := by
        refine visibleEdge_eq_some.mpr ⟨he, ((h id).edge x he).1, ?_, ?_⟩
        · rw [hlive, show x.sourceId = e.sourceId from (congrArg Edge.sourceId hkept).symm, hs]
        · rw [hlive, show x.targetId = e.targetId from (congrArg Edge.targetId hkept).symm, ht]
      rw [hvis, hv]
      exact hedge.trans (congrArg _ hv)

/-- **What the operations of a graph give** on an empty one: something that comes from what it
shows, and all of that exactly if it is restorable, in which case nothing is quarantined. -/
theorem replay_graph (hb : ∀ id, (b.slot id).Sound id) (hontology : g.ontology = o)
    (hempty : ∀ id, g.slot id = ⟨none, none⟩) (hpending : g.pendingEdges = ∅) (author : String)
    (σ σ' : HashOrder) :
    let g' := g.replayOps σ author
      ((b.allNodes σ').flatMap nodeOps ++ (b.allEdges σ').flatMap edgeOps)
    g'.ontology = o ∧ g'.HeldByHash ∧ Shows b g' ∧
      ((∀ id, (g'.slot id).Keeps (b.getNode id) (b.visibleEdge id)) ↔ b.Restorable o author) ∧
      (b.Restorable o author → ∀ x ∈ g'.quarantined, x ∈ g.quarantined) := by
  intro g'
  have hstart : Stage b.getNode (fun _ => none) o g := by
    refine ⟨hontology, fun h p hp => ?_, fun id => ?_⟩
    · rw [hpending, Std.ExtTreeMap.getElem?_empty] at hp
      cases hp
    · rw [hempty]
      exact ⟨nofun, nofun⟩
  obtain ⟨hnodes, hslots, hquarantined⟩ := replay_nodes hb hstart hpending author σ σ'
  set g₁ := g.replayOps σ author ((b.allNodes σ').flatMap nodeOps)
  have hmid : Stage b.getNode b.visibleEdge o g₁ :=
    ⟨hnodes.ontology, hnodes.held, fun id => ⟨(hnodes.within id).node, fun x hx =>
      nomatch ((hnodes.within id).edge x hx).2.choose_spec.1⟩⟩
  obtain ⟨hedges, hslots', hquarantined'⟩ := replay_edges hb hmid author σ σ'
  let accepted : Edge → Bool := fun ed =>
    g₁.acceptsEdge .skipRequired ed.edgeType ed.sourceId ed.targetId ∅
  have hg' : g' = g₁.replayOps σ author ((b.allEdges σ').flatMap edgeOps) := List.foldl_append ..
  have hslot : ∀ id, g'.slot id = (⟨none, none⟩ : Slot).play o id
      (Slot.restoring o author ((b.visibleEdge id).elim false accepted) (b.getNode id)
        (b.visibleEdge id)) := fun id => by
    rw [hg', hslots', hslots, hempty, Slot.restoring, Slot.play_append]
    cases b.visibleEdge id <;> rfl
  -- once the nodes are back, an edge is judged by their types
  have hjudged : (∀ id nd, b.getNode id = some nd →
      (o.validateNodeMode nd.nodeType nd.subtype ∅ .skipRequired).isOk = true) →
      ∀ ed src tgt, b.getNode ed.sourceId = some src → b.getNode ed.targetId = some tgt →
        accepted ed = (o.validateEdgeMode ed.edgeType src.nodeType tgt.nodeType ∅ .skipRequired).isOk := by
    intro hvalid ed src tgt hsrc htgt
    have htype : ∀ id nd, b.getNode id = some nd → g₁.typeOf id = some nd.nodeType := fun id nd hnd => by
      obtain ⟨nd', hplay, hkept⟩ := Slot.play_restoring_node o nd author
      rw [((hb id).node nd (getNode_eq_some_iff.mp hnd).1).1] at hplay
      have hs : g₁.slot id = ⟨nd', none⟩ := by
        rw [hslots, hempty, hnd]
        exact hplay
      rw [Node.restored, if_pos (hvalid id nd hnd)] at hkept
      obtain ⟨x, rfl, hx⟩ := Option.map_eq_some_iff.mp hkept
      have hty := congrArg Node.nodeType hx
      rw [typeOf, show g₁.nodes[id]? = some x from congrArg Slot.node hs]
      exact congrArg some hty
    rw [← hmid.ontology]
    exact isOk_acceptsEdge (htype _ _ hsrc) (htype _ _ htgt)
  have hiff : ∀ id, (g'.slot id).Keeps (b.getNode id) (b.visibleEdge id) ↔
      (∀ n ∈ b.getNode id, n.Restorable o author) ∧
        (∀ e ∈ b.visibleEdge id, accepted e = true ∧ e.Restorable o author) ∧
        ∀ n ∈ b.getNode id, ∀ e ∈ b.visibleEdge id, e.properties = ∅ := fun id => by
    rw [hslot, Slot.restored_iff]
    · refine and_congr_right fun _ => and_congr_left fun _ => forall₂_congr fun e he => ?_
      rw [Option.mem_def.mp he, Option.elim_some]
    · exact fun n hn => ⟨((hb id).node n (getNode_eq_some_iff.mp hn).1).1,
        ((hb id).node n (getNode_eq_some_iff.mp hn).1).2, (getNode_eq_some_iff.mp hn).2⟩
    · exact fun e he => ⟨((hb id).edge e (visibleEdge_eq_some.mp he).1).1,
        ((hb id).edge e (visibleEdge_eq_some.mp he).1).2, (visibleEdge_eq_some.mp he).2.1⟩
  have haccepted : b.Restorable o author → ∀ id ed, b.visibleEdge id = some ed → accepted ed = true := by
    intro hr id ed hed
    obtain ⟨-, -, hs, ht⟩ := visibleEdge_eq_some.mp hed
    obtain ⟨src, hsrc⟩ := Option.isSome_iff_exists.mp hs
    obtain ⟨tgt, htgt⟩ := Option.isSome_iff_exists.mp ht
    rw [hjudged (fun i n hn => (hr.nodes i n hn).added) ed src tgt hsrc htgt]
    exact hr.between id ed src tgt hed hsrc htgt
  refine ⟨hg' ▸ hedges.ontology, hg' ▸ hedges.held, hg' ▸ hedges.within, ⟨fun hk => ?_, fun hr id => ?_⟩,
    fun hr x hx => ?_⟩
  · have hall := fun id => (hiff id).mp (hk id)
    refine ⟨fun id nd hnd => (hall id).1 nd hnd, fun id ed hed => ((hall id).2.1 ed hed).2, ?_,
      fun id nd ed hnd hed => (hall id).2.2 nd hnd ed hed⟩
    intro id ed src tgt hed hsrc htgt
    rw [← hjudged (fun i n hn => ((hall i).1 n hn).added) ed src tgt hsrc htgt]
    exact ((hall id).2.1 ed hed).1
  · exact (hiff id).mpr ⟨fun n hn => hr.nodes id n hn,
      fun e he => ⟨haccepted hr id e he, hr.edges id e he⟩, fun n hn e he => hr.apart id n e hn he⟩
  · rw [hg'] at hx
    refine hquarantined (fun id nd hnd => hr.nodes id nd hnd) x (hquarantined' (fun id ed hed => ?_) x hx)
    exact ⟨haccepted hr id ed hed, hr.edges id ed hed, fun nd hnd => hr.apart id nd ed hnd hed⟩

/-! ### What is carried over -/

/-- The operation is refused by an ontology and what a graph shows; an extension leaves the
ontology as it is. Removals are never refused. -/
def Refused (o : Ontology) (b : MaterializedGraph) : GraphOp → Prop
  | .addNode _ nodeType subtype _ properties =>
    (o.validateNode nodeType subtype properties).isOk = false
  | .addEdge _ edgeType sourceId targetId properties => ∀ src tgt, b.getNode sourceId = some src →
    b.getNode targetId = some tgt →
    (o.validateEdge edgeType src.nodeType tgt.nodeType properties).isOk = false
  | .updateProperty entityId key value =>
    (∀ nd, b.getNode entityId = some nd →
      (o.validatePropertyUpdate nd.nodeType nd.subtype key value).isOk = false) ∧
    ∀ ed, b.visibleEdge entityId = some ed →
      (o.validateEdgePropertyUpdate ed.edgeType key value).isOk = false
  | .extendOntology extension => (o.mergeExtension extension).2 = o
  | .defineOntology _ | .defineLens _ => True
  | .removeNode _ | .removeEdge _ | .checkpoint .. => False

variable {x : Entry} {es : List Entry}

theorem Refused.declare {op : GraphOp} (h : Refused o b op) : op.declare o = o := by
  cases op with
  | extendOntology extension => exact h
  | checkpoint => exact h.elim
  | _ => rfl

/-- **Step.** A refused entry leaves the slots alone. -/
theorem Refused.slot (h : Refused o b x.payload) (hx : x.Ordinary) (hg : Shows b g)
    (hontology : g.ontology = o) (id : String) : (g.applyInner σ x .full false).slot id = g.slot id := by
  cases hp : x.payload with
  | addNode nid ty st lb ps =>
    rw [hp] at h
    refine slot_of_refused g σ hx ?_ false id
    rw [hp, accepts, hontology]
    exact h
  | addEdge eid ty src tgt ps =>
    rw [hp] at h
    refine slot_of_refused g σ hx ?_ false id
    rw [hp, accepts]
    cases hs : g.nodes[src]? with
    | none => simp [acceptsEdge, typeOf, hs]
    | some a =>
      cases ht : g.nodes[tgt]? with
      | none => simp [acceptsEdge, typeOf, ht]
      | some c =>
        obtain ⟨-, n, hn, hty, -⟩ := (hg src).node a hs
        obtain ⟨-, m, hm, hty', -⟩ := (hg tgt).node c ht
        have hsrc : g.typeOf src = some n.nodeType := by rw [typeOf, hs, ← hty]; rfl
        have htgt : g.typeOf tgt = some m.nodeType := by rw [typeOf, ht, ← hty']; rfl
        rw [isOk_acceptsEdge hsrc htgt, hontology]
        exact h n m hn hm
  | updateProperty eid k v =>
    rw [hp] at h
    cases hacc : (g.slot eid).accepts g.ontology k v with
    | false => exact slot_of_refused g σ hx (by rw [hp]; exact hacc) false id
    | true =>
      -- only an update of nothing is accepted
      have hnone : g.slot eid = ⟨none, none⟩ := by
        rw [Slot.accepts, hontology] at hacc
        refine Slot.ext ?_ ?_
        · cases hn : (g.slot eid).node with
          | none => rfl
          | some nd =>
            obtain ⟨-, n, hnd, hty, hst⟩ := (hg eid).node nd hn
            simp only [hn, hty, hst, h.1 n hnd] at hacc
            cases hacc
        · cases he : (g.slot eid).edge with
          | none => rfl
          | some ed =>
            obtain ⟨-, e, hed, hty⟩ := (hg eid).edge ed he
            cases hn : (g.slot eid).node with
            | none =>
              simp only [hn, he, hty, h.2 e hed] at hacc
              cases hacc
            | some nd =>
              obtain ⟨-, n, hnd, hty, hst⟩ := (hg eid).node nd hn
              simp only [hn, hty, hst, h.1 n hnd] at hacc
              cases hacc
      rw [slot_applyInner g σ hx, events, hp]
      simp only [eventsAt_cons, eventsAt_nil]
      split <;> rename_i hid
      · subst hid
        rw [hnone]
        rfl
      · rfl
  | removeNode | removeEdge | checkpoint =>
    rw [hp] at h
    exact h.elim
  | extendOntology =>
    have := hx.notExtension
    rw [hp] at this
    cases this
  | defineOntology | defineLens => rw [slot_applyInner g σ hx, events, hp, eventsAt_nil, Slot.play_nil]

/-- **Run.** Refused entries behind a checkpoint leave the slots alone and go to quarantine. -/
theorem replay_refused (hes : ∀ x ∈ es, Refused o b x.payload) (hg : Shows b g)
    (hontology : g.ontology = o) (hheld : g.HeldByHash) :
    (∀ id, (es.foldl (materialize σ) g).slot id = g.slot id) ∧
      ∀ h ∈ (es.foldl (materialize σ) g).quarantined, h ∈ g.quarantined ∨ ∃ x ∈ es, x.hash = h := by
  induction es generalizing g with
  | nil => exact ⟨fun _ => rfl, fun _ => .inl⟩
  | cons x es ih =>
    have hrefused := hes x List.mem_cons_self
    have hrest : ∀ y ∈ es, Refused o b y.payload := fun y hy => hes y (List.mem_cons_of_mem x hy)
    rw [List.foldl_cons, materialize]
    cases hext : x.payload.isExtendOntology with
    | true =>
      obtain ⟨hslot, hquarantined⟩ := ih hrest hg hontology hheld
      refine ⟨hslot, fun h hh => (hquarantined h hh).imp_right ?_⟩
      rintro ⟨y, hy, heq⟩
      exact ⟨y, List.mem_cons_of_mem x hy, heq⟩
    | false =>
      have hx : x.Ordinary := by
        refine ⟨hext, ?_⟩
        cases hp : x.payload with
        | checkpoint => rw [hp] at hrefused; exact hrefused.elim
        | _ => rfl
      have hslot := hrefused.slot (σ := σ) hx hg hontology
      simp only [Bool.false_eq_true, if_false]
      obtain ⟨hslots, hquarantined⟩ := ih hrest (g := g.applyInner σ x .full false)
        (fun id => (hslot id).symm ▸ hg id) ((applyInner_frame g σ hx .full false).1.trans hontology)
        (hheld.ordinary σ hx .full false)
      refine ⟨fun id => (hslots id).trans (hslot id), fun h hh => ?_⟩
      obtain hh | ⟨y, hy, heq⟩ := hquarantined h hh
      · rw [mem_quarantined_applyInner hheld σ hx] at hh
        have hnone : g.retried σ .full x = [] := by
          refine List.eq_nil_iff_forall_not_mem.mpr fun p hp => ?_
          obtain ⟨⟨id, ty, st, lb, ps, hpay⟩, hacc, -⟩ := mem_retried_iff.mp hp
          rw [hpay] at hrefused
          rw [hpay, accepts, hontology, show (o.validateNodeMode ty st ps .full).isOk = false from hrefused] at hacc
          cases hacc
        obtain ⟨p, hp, -⟩ | ⟨-, hh⟩ := hh
        · rw [hnone] at hp
          cases hp
        · split at hh <;> rename_i heq
          · exact .inr ⟨x, List.mem_cons_self, heq.1⟩
          · exact .inl hh
      · exact .inr ⟨y, List.mem_cons_of_mem x hy, heq⟩

end MaterializedGraph

/-! ### Compaction -/

namespace PyGraphStore

open MaterializedGraph

section

variable [Crates] {s t : PyGraphStore} {env : Env} {cp : String}

/-- The log after a compaction holds the checkpoint and what was carried over. -/
theorem oplog_of_compact (run : s.compact env = (.ok cp, t)) : t.oplog.All fun _ x =>
    x = s.checkpointEntry env ∨ ∃ e ∈ s.carried env, x = s.reRooted env e := by
  obtain ⟨msg, -, hrun⟩ | ⟨hok, ⟨err, -, hrun⟩ | ⟨-, hsnd, -⟩⟩ := s.compact_cases env
  · rw [run] at hrun
    cases hrun
  · rw [run] at hrun
    cases hrun
  · let u : PyGraphStore := { s.ticked env with
      backend := (s.backend.replaceWithCheckpoint (env.txn 0) (s.checkpointEntry env)).2 }
    have hstart : u.oplog = OpLog.new (s.checkpointEntry env) := replace_of_ok hok
    rw [show t = _ from (congrArg Prod.snd run).symm.trans hsnd, revalidate_log]
    refine (carryOver_spec (s := u) (s.carried env) (fun e he => .inr ⟨e, he, rfl⟩) env 1 ?_ ?_).2
    · rw [hstart]
      exact .new (verifyHash_createEntry ..) (createEntry_next ..)
    · rw [hstart]
      exact .new (.inl rfl)

/-- **The log after a compaction** lists the checkpoint, then what was carried over. -/
theorem listing_of_compact (run : s.compact env = (.ok cp, t)) : ∃ rest, ∃ g : MaterializedGraph, ∃ σ,
    t.graph = g.rebuild σ (s.checkpointEntry env :: rest) ∧
      ∀ x ∈ rest, ∃ e ∈ s.carried env, x = s.reRooted env e := by
  have ht := restarted_of_compact run
  have hall := oplog_of_compact run
  obtain ⟨g, σ, all, hes, hgraph⟩ := ht.rebuilt
  obtain ⟨es, hes', hnd, hmem, -⟩ := entriesSince_none_spec ht.grown.wellFormed ht.grown.nextNodup
    ht.grown.listable.refsStored
  obtain rfl := Option.some.inj (hes.symm.trans hes')
  cases all with
  | nil =>
    refine absurd (Std.ExtTreeMap.ext_getElem? fun {x} => ?_) ht.grown.wellFormed.nonempty
    cases hx : t.oplog.entries[x]? with
    | none => rw [Std.ExtTreeMap.getElem?_empty]
    | some e =>
      obtain ⟨rfl, -⟩ := ht.grown.wellFormed.rep.keyed x e hx
      exact nomatch (hmem e).mpr hx
  | cons c rest =>
    obtain ⟨hc, hroot, -⟩ := entriesSince_head ht.grown.listable hes
    obtain rfl : c = s.checkpointEntry env := by
      obtain heq | ⟨e, -, heq⟩ := hall _ c hc
      · exact heq
      · rw [heq, reRooted, createEntry_next] at hroot
        cases hroot
    rw [List.map_cons, List.nodup_cons] at hnd
    refine ⟨rest, g, σ, hgraph, fun x hx => ?_⟩
    refine (hall _ x ((hmem x).mp (List.mem_cons_of_mem _ hx))).resolve_left ?_
    rintro rfl
    exact hnd.1 (List.mem_map_of_mem hx)

/-- The operations that a checkpoint replays. -/
def restoringOps (self : PyGraphStore) (σ : HashOrder) : List (GraphOp × HybridClock) :=
  (self.graph.allNodes σ).flatMap nodeOps ++ (self.graph.allEdges σ).flatMap edgeOps

omit [Crates] in
theorem restoringOps_plain {σ : HashOrder} {oc : GraphOp × HybridClock} (h : oc ∈ s.restoringOps σ) :
    oc.1.isDefineOntology = false := by
  obtain h | h := List.mem_append.mp h <;> obtain ⟨x, -, hoc⟩ := List.mem_flatMap.mp h
  · obtain heq | ⟨k, v, -, heq⟩ := mem_nodeOps hoc <;> rw [heq] <;> rfl
  · obtain heq | ⟨k, v, -, heq⟩ := mem_edgeOps hoc <;> rw [heq] <;> rfl

/-- In the first pass of a rebuild a checkpoint sets the ontology of the store. -/
theorem declare_checkpointEntry (s : PyGraphStore) (env : Env) (base : Ontology) :
    (s.checkpointEntry env).payload.declare base = s.ontology := by
  -- only the first of its operations is a definition
  have hfold : ∀ f : Ontology → GraphOp → Ontology, (∀ o op, op.isDefineOntology = false → f o op = o) →
      ∀ (ops : List GraphOp) o, (∀ op ∈ ops, op.isDefineOntology = false) → ops.foldl f o = o := by
    intro f hf ops
    induction ops with
    | nil => exact fun _ _ => rfl
    | cons op ops ih =>
      intro o h
      rw [List.foldl_cons, hf o op (h op List.mem_cons_self)]
      exact ih o fun x hx => h x (List.mem_cons_of_mem op hx)
  rw [checkpointEntry, createEntry_payload, GraphOp.declare, buildCheckpointOps, List.map_cons,
    List.foldl_cons]
  refine hfold _ (fun o op hop => ?_) _ _ fun op hop => ?_
  · cases op <;> first | rfl | cases hop
  · obtain ⟨oc, hoc, rfl⟩ := List.mem_map.mp hop
    exact restoringOps_plain hoc

/-- In the second pass its operations are replayed. -/
theorem materialize_checkpointEntry (s : PyGraphStore) (env : Env) (σ : HashOrder) (g : MaterializedGraph) :
    materialize σ g (s.checkpointEntry env) =
      (g.replayOps σ s.instanceId (s.restoringOps env.order)).release (s.checkpointEntry env).hash := by
  have hauthor : (s.checkpointEntry env).author = s.instanceId := createEntry_author ..
  have hpay : (s.checkpointEntry env).payload = .checkpoint
      (.defineOntology s.ontology :: (s.restoringOps env.order).map Prod.fst)
      (s.clock.asTuple :: (s.restoringOps env.order).map fun oc => oc.2.asTuple)
      (s.clock.tick (env.wall 0)).physicalMs (s.clock.tick (env.wall 0)).logical := createEntry_payload ..
  have hplain : ∀ oc ∈ s.restoringOps env.order, oc.1.isDefineOntology = false := fun _ => restoringOps_plain
  have hops := applyOps_eq_replayOps σ false (s.checkpointEntry env) [s.clock.asTuple] hplain g
  rw [materialize, hpay, applyInner, hpay, applyPayload, applyOps, ← hauthor]
  exact congrArg (release · _) hops

/-- **What a compaction keeps.** The graph is preserved exactly if it is restorable, and then
nothing is quarantined but what was before; as long as what is carried over is refused again. -/
theorem compaction_preserves_iff (hs : Reachable s) (run : s.compact env = (.ok cp, t))
    (refused : ∀ h ∈ s.graph.quarantined, ∀ e, s.oplog.entries[h]? = some e →
      Refused s.ontology s.graph e.payload) :
    (s.graph.Preserves t.graph ∧
        ∀ h ∈ t.graph.quarantined, ∃ e ∈ s.carried env, h = (s.reRooted env e).hash) ↔
      s.graph.Restorable s.ontology s.instanceId := by
  obtain ⟨rest, g, σ, hgraph, hrest⟩ := listing_of_compact run
  set c := s.checkpointEntry env
  have hrefused : ∀ x ∈ rest, Refused s.ontology s.graph x.payload := fun x hx => by
    obtain ⟨e, he, rfl⟩ := hrest x hx
    obtain ⟨h, hh, hget⟩ := List.mem_filterMap.mp he
    rw [HashOrder.mem_walk] at hh
    rw [reRooted, createEntry_payload]
    exact refused h (Std.ExtTreeMap.mem_keys.mp hh) e hget
  have hsound : ∀ id, (s.graph.slot id).Sound id := hs.invariant sound_invariant
  -- the first pass leads to the ontology of the store
  have hdeclared : (c :: rest).foldl (fun o e => e.payload.declare o) g.baseOntology = s.ontology := by
    rw [List.foldl_cons, declare_checkpointEntry]
    clear hgraph hrest
    induction rest with
    | nil => rfl
    | cons x rest ih =>
      rw [List.foldl_cons, (hrefused x List.mem_cons_self).declare]
      exact ih fun y hy => hrefused y (List.mem_cons_of_mem x hy)
  obtain ⟨q, base, hfold⟩ := foldOntology_visible g.baseOntology (c :: rest)
  rw [hdeclared] at hfold
  obtain ⟨-, hlisted⟩ := foldl_foldOntology_frame (c :: rest) (MaterializedGraph.new g.baseOntology)
  rw [hfold] at hlisted
  set g₀ : MaterializedGraph := { MaterializedGraph.new s.ontology with quarantined := q, baseOntology := base }
  have hempty : ∀ id, g₀.slot id = ⟨none, none⟩ := fun id => by
    simp [g₀, slot, MaterializedGraph.new]
  -- in the second the checkpoint is replayed, and then what was carried over
  obtain ⟨hontology, hheld, hshows, hkeeps, hquarantined⟩ :=
    replay_graph (g := g₀) (o := s.ontology) hsound rfl hempty rfl s.instanceId σ env.order
  set g₁ := g₀.replayOps σ s.instanceId (s.restoringOps env.order)
  have htail : t.graph = rest.foldl (materialize σ) (g₁.release c.hash) := by
    rw [hgraph, rebuild, hfold, List.foldl_cons, materialize_checkpointEntry]
  obtain ⟨hslots, hafter⟩ := replay_refused (σ := σ) (g := g₁.release c.hash) hrefused hshows hontology hheld
  rw [← htail] at hslots hafter
  have hvisible : Shows s.graph t.graph := fun id => (hslots id).symm ▸ hshows id
  have hiff : s.graph.Preserves t.graph ↔ s.graph.Restorable s.ontology s.instanceId := by
    rw [hvisible.preserves_iff, ← hkeeps]
    exact forall_congr' fun id => by rw [hslots id]; rfl
  refine ⟨fun h => hiff.mp h.1, fun hr => ⟨hiff.mpr hr, fun h hh => ?_⟩⟩
  have hcarried : ∃ x ∈ rest, x.hash = h := by
    obtain hh | hh := hafter h hh
    · obtain ⟨hne, hh⟩ := (mem_release_iff _ _).mp hh
      obtain ⟨x, hx, heq⟩ := (hlisted h (hquarantined hr h hh)).resolve_right Std.ExtTreeMap.not_mem_empty
      obtain rfl | hx := List.mem_cons.mp hx
      · exact absurd heq hne
      · exact ⟨x, hx, heq⟩
    · exact hh
  obtain ⟨x, hx, rfl⟩ := hcarried
  obtain ⟨e, he, rfl⟩ := hrest x hx
  exact ⟨e, he, rfl⟩

end

open Sample in
/-- Ann's machine and Bob's node of an unknown type: a compaction keeps the machine, and the
other is in quarantine as before. -/
theorem compaction_preserves_machine :
    let ghost := Entry.new (.addNode "g" "ghost" none "G" ∅) [(genesis env "ann" machines).hash] []
      ⟨"bob", 1, 1⟩ "bob"
    let s := (((freshStore "ann" machines).exec env (.addNode "m" "machine" "M" age none)).2.exec env
      (.merge [ghost])).2
    let t := (s.compact env).2
    s.graph.quarantined.size = 1 ∧ s.graph.Preserves t.graph ∧
      ∀ h ∈ t.graph.quarantined, ∃ e ∈ s.carried env, h = (s.reRooted env e).hash := by
  intro ghost s t
  have hs : Reachable s := .call (.call (reachable_freshStore (by decide +kernel)) env _) env _
  obtain ⟨cp, hcp⟩ : ∃ cp, (s.compact env).1 = .ok cp := exists_ok_of_isOk (by decide +kernel)
  have hnew : ∀ o : Ontology, (MaterializedGraph.new o).ontology = o := fun _ => rfl
  have hlog : (s.oplog.entries.toList.all fun kv => !s.graph.quarantined.contains kv.1 ||
      (kv.2.payload.mayAddNode "g" && !(MaterializedGraph.new s.ontology).accepts .full kv.2.payload))
      = true := by decide +kernel
  have refused : ∀ h ∈ s.graph.quarantined, ∀ e, s.oplog.entries[h]? = some e →
      Refused s.ontology s.graph e.payload := by
    intro h hh e he
    have := List.all_eq_true.mp hlog (h, e) (HashMap.mem_toList.mpr he)
    rw [Std.ExtTreeMap.contains_iff_mem.mpr hh] at this
    cases hp : e.payload with
    | addNode _ ty st _ ps =>
      simp only [hp, MaterializedGraph.accepts, hnew, Bool.not_true, Bool.false_or, Bool.and_eq_true,
        Bool.not_eq_true'] at this
      rw [Refused, Ontology.validateNode]
      exact this.2
    | checkpoint => simp [hp, MaterializedGraph.accepts] at this
    | _ => simp [hp, GraphOp.mayAddNode] at this
  have restorable : s.graph.Restorable s.ontology s.instanceId := by decide +kernel
  refine ⟨by decide +kernel, ?_⟩
  obtain ⟨u, hu⟩ : ∃ u, u = t := ⟨t, rfl⟩
  have run : s.compact env = (.ok cp, u) := by rw [← hcp, hu]
  rw [← hu]
  exact (compaction_preserves_iff hs run refused).mpr restorable

open Sample in
/-- Ann merges a machine of Bob's. After a compaction the clock it was added at is hers. And a
server that she adds again as a machine loses its subtype, so that its type refuses it in the
replay: after a compaction it is gone. -/
theorem compaction_loses :
    (let machine := Entry.new (.addNode "m" "machine" none "M" age) [(genesis env "ann" machines).hash] []
        ⟨"bob", 1, 1⟩ "bob"
      let s := ((freshStore "ann" machines).exec env (.merge [machine])).2
      let t := (s.compact env).2
      Reachable s ∧ (s.compact env).1.isOk = true ∧ ¬ s.graph.Preserves t.graph ∧
        (s.graph.getNode "m").map Node.lastAddClock = some ⟨"bob", 1, 1⟩ ∧
        (t.graph.getNode "m").map Node.lastAddClock = some ⟨"ann", 1, 1⟩) ∧
    (let racks : Ontology := ⟨((∅ : BTreeMap String NodeTypeDef).insert "machine" { }).insert "server"
        { subtypes := some ((∅ : BTreeMap String SubtypeDef).insert "blade" { }) }, ∅⟩
      let s := (((freshStore "ann" racks).exec env (.addNode "m" "server" "M" ∅ (some "blade"))).2.exec env
        (.addNode "m" "machine" "M" ∅ none)).2
      let t := (s.compact env).2
      Reachable s ∧ (s.compact env).1.isOk = true ∧ s.graph.quarantined.isEmpty = true ∧
        (s.graph.getNode "m").isSome = true ∧ (t.graph.getNode "m").isSome = false) := by
  refine ⟨?_, ?_⟩
  · intro machine s t
    have hbefore : (s.graph.getNode "m").map Node.lastAddClock = some ⟨"bob", 1, 1⟩ := by decide +kernel
    have hafter : (t.graph.getNode "m").map Node.lastAddClock = some ⟨"ann", 1, 1⟩ := by decide +kernel
    refine ⟨.call (reachable_freshStore (by decide +kernel)) env _, by decide +kernel, fun h => ?_,
      hbefore, hafter⟩
    have hsame := congrArg (Option.map Node.lastAddClock) (h.nodes "m")
    rw [Option.map_map, Option.map_map] at hsame
    exact absurd (hafter.symm.trans (hsame.trans hbefore)) (by decide)
  · intro racks s t
    exact ⟨.call (.call (reachable_freshStore (by decide +kernel)) env _) env _, by decide +kernel,
      by decide +kernel, by decide +kernel, by decide +kernel⟩

end PyGraphStore

end SilkGraph
