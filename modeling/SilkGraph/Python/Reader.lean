import Mathlib.Data.Set.Basic
import SilkGraph.Graph.Queries
import SilkGraph.Python.Objects

/-!
# What the Python layer reads

`Query` and `GraphView` take anything with the read methods of a store: a `GraphStore`, a
`GraphSnapshot` or another view. `Reader` is such an object by its methods, and `Shown` a plain
graph: a set of nodes, those of each type, and a set of edges between them. `Reader.Shows` says that
the methods list that graph. For what no reader promises they say nothing: a store's
`outgoing_edges` also answers for a removed node, and its `get_edge` also finds an edge that has
lost an end.

`MaterializedGraph.shows` is about stores and snapshots. It needs every property value to be one
that can be read: a listing raises as soon as one cannot, and `get_node` panics.
-/

namespace SilkGraph

/-- What a read method raises. -/
inductive ReadErr where
  | conversion (err : ConversionErr)
  | runtimeError (msg : String)
  /-- A Rust panic, raised as `PanicException`. -/
  | panic
  deriving DecidableEq

/-- The read methods. -/
structure Reader where
  allNodes : Except ReadErr (List NodeDict)
  allEdges : Except ReadErr (List EdgeDict)
  getNode : String → Except ReadErr (Option NodeDict)
  getEdge : String → Except ReadErr (Option EdgeDict)
  queryNodesByType : String → Except ReadErr (List NodeDict)
  outgoingEdges : String → Except ReadErr (List EdgeDict)
  incomingEdges : String → Except ReadErr (List EdgeDict)

namespace Python

/-- A list of dictionaries, or the first error. -/
def dictsOf {α β : Type} (convert : α → Except ConversionErr β) (l : List α) : Except ReadErr (List β) :=
  (l.mapM convert).mapError .conversion

/-- `.map(|x| convert(x).unwrap())`. -/
def unwrapDict {α β : Type} (convert : α → Except ConversionErr β) : Option α → Except ReadErr (Option β)
  | none => .ok none
  | some a =>
    match convert a with
    | .ok dict => .ok (some dict)
    | .error _ => .error .panic

end Python

namespace MaterializedGraph

open Python

/-- A store or a snapshot. -/
def reader (self : MaterializedGraph) (σ : HashOrder) : Reader where
  allNodes := dictsOf nodeToPydict (self.allNodes σ)
  allEdges := dictsOf edgeToPydict (self.allEdges σ)
  getNode id := unwrapDict nodeToPydict (self.getNode id)
  getEdge id := unwrapDict edgeToPydict (self.getEdge id)
  queryNodesByType ty := dictsOf nodeToPydict (self.nodesByType σ ty)
  outgoingEdges id := dictsOf edgeToPydict (self.outgoingEdges σ id)
  incomingEdges id := dictsOf edgeToPydict (self.incomingEdges σ id)

end MaterializedGraph

/-! ### Listings -/

/-- A list has the members of a set, each key once. -/
structure Lists {α : Type} (l : List α) (key : α → String) (S : Set α) : Prop where
  mem : ∀ a, a ∈ l ↔ a ∈ S
  nodup : (l.map key).Nodup

/-- A call lists a set. -/
def Fetches {α : Type} (call : Except ReadErr (List α)) (key : α → String) (S : Set α) : Prop :=
  ∃ l, call = .ok l ∧ Lists l key S

section

variable {α β : Type} {l : List α} {key : α → String} {S : Set α}

theorem Lists.filter (h : Lists l key S) (p : α → Bool) : Lists (l.filter p) key {a ∈ S | p a = true} where
  mem a := by rw [List.mem_filter, h.mem, Set.mem_ofPred_eq]
  nodup := h.nodup.sublist (List.filter_sublist.map key)

theorem Lists.congr {T : Set α} (h : Lists l key S) (heq : ∀ a, a ∈ S ↔ a ∈ T) : Lists l key T :=
  ⟨fun a => (h.mem a).trans (heq a), h.nodup⟩

theorem Fetches.congr {T : Set α} {call : Except ReadErr (List α)} (h : Fetches call key S)
    (heq : ∀ a, a ∈ S ↔ a ∈ T) : Fetches call key T :=
  h.imp fun _ h => ⟨h.1, h.2.congr heq⟩

/-- Dictionaries of a list without an error. -/
theorem Python.dictsOf_of_ok {convert : α → Except ConversionErr β} {toDict : α → β}
    (h : ∀ a ∈ l, convert a = .ok (toDict a)) : Python.dictsOf convert l = .ok (l.map toDict) := by
  have hmap : l.mapM convert = .ok (l.map toDict) := by
    induction l with
    | nil => rfl
    | cons a l ih =>
      obtain ⟨ha, hl⟩ := List.forall_mem_cons.mp h
      rw [List.mapM_cons, ha, ih hl]
      rfl
  rw [dictsOf, hmap]
  rfl

/-- Dictionaries of a list with an error. -/
theorem Python.exists_of_dictsOf {convert : α → Except ConversionErr β} {dicts : List β}
    (h : Python.dictsOf convert l = .ok dicts) : ∀ a ∈ l, ∃ d, convert a = .ok d := by
  have hmap : ∃ ds, l.mapM convert = .ok ds := by
    rw [dictsOf] at h
    cases hl : l.mapM convert with
    | error err => rw [hl] at h; cases h
    | ok ds => exact ⟨ds, rfl⟩
  clear h
  induction l with
  | nil => simp
  | cons a l ih =>
    obtain ⟨ds, hds⟩ := hmap
    rw [List.mapM_cons] at hds
    cases ha : convert a with
    | error err => rw [ha] at hds; cases hds
    | ok d =>
      cases hl : l.mapM convert with
      | error err => rw [ha, hl] at hds; cases hds
      | ok ds => exact List.forall_mem_cons.mpr ⟨⟨d, ha⟩, ih ⟨ds, hl⟩⟩

end

/-! ### What is shown -/

/-- A graph as a reader shows it. -/
@[ext]
structure Shown where
  nodes : Set NodeDict
  /-- The nodes that a query for a type gives. -/
  ofType : String → Set NodeDict
  edges : Set EdgeDict

namespace Shown

/-- A node has this identifier. -/
def HasNode (self : Shown) (id : String) : Prop := ∃ n ∈ self.nodes, n.nodeId = id

end Shown

/-- The methods of a reader list a graph. -/
structure Reader.Shows (r : Reader) (G : Shown) : Prop where
  allNodes : Fetches r.allNodes NodeDict.nodeId G.nodes
  ofType : ∀ ty, Fetches (r.queryNodesByType ty) NodeDict.nodeId (G.ofType ty)
  ofType_subset : ∀ ty, G.ofType ty ⊆ G.nodes
  allEdges : Fetches r.allEdges EdgeDict.edgeId G.edges
  ends : ∀ e ∈ G.edges, G.HasNode e.sourceId ∧ G.HasNode e.targetId
  getNode : ∀ id, ∃ found, r.getNode id = .ok found ∧
    ∀ n, found = some n ↔ n ∈ G.nodes ∧ n.nodeId = id
  getEdge : ∀ id, ∃ found, r.getEdge id = .ok found ∧
    (∀ e ∈ G.edges, e.edgeId = id → found = some e) ∧
    ∀ e, found = some e → e.edgeId = id ∧ (G.HasNode e.sourceId → G.HasNode e.targetId → e ∈ G.edges)
  outgoing : ∀ id, G.HasNode id →
    Fetches (r.outgoingEdges id) EdgeDict.edgeId {e ∈ G.edges | e.sourceId = id}
  incoming : ∀ id, G.HasNode id →
    Fetches (r.incomingEdges id) EdgeDict.edgeId {e ∈ G.edges | e.targetId = id}

namespace MaterializedGraph

open Python

variable {g : MaterializedGraph} {σ : HashOrder}

/-- The live part of a graph. -/
def shown (self : MaterializedGraph) : Shown where
  nodes := {d | ∃ nd, self.getNode nd.nodeId = some nd ∧ nd.toDict = d}
  ofType ty := {d | ∃ nd, self.getNode nd.nodeId = some nd ∧
    (nd.nodeType = ty ∨ ty ∈ self.ontology.ancestors nd.nodeType) ∧ nd.toDict = d}
  edges := {d | ∃ ed, self.visibleEdge ed.edgeId = some ed ∧ ed.toDict = d}

/-- Every value of a node or an edge that is not tombstoned can be read. -/
structure AllReadable (g : MaterializedGraph) : Prop where
  node : ∀ id nd, g.getNode id = some nd → Readable nd.properties
  edge : ∀ id ed, g.getEdge id = some ed → Readable ed.properties

theorem readable_of_all {map : BTreeMap String Value}
    (h : map.toList.all (fun kv => decide (kv.2.height ≤ maxValueDepth)) = true) : Readable map := fun k v hv =>
  of_decide_eq_true (List.all_eq_true.mp h (k, v) (HashMap.mem_toList.mpr hv))

theorem AllReadable.of_all
    (hn : (g.nodes.toList.all fun kv => kv.2.properties.toList.all
      fun kv => decide (kv.2.height ≤ maxValueDepth)) = true)
    (he : (g.edges.toList.all fun kv => kv.2.properties.toList.all
      fun kv => decide (kv.2.height ≤ maxValueDepth)) = true) : g.AllReadable where
  node id nd hnd := readable_of_all (List.all_eq_true.mp hn (id, nd)
    (HashMap.mem_toList.mpr (getNode_eq_some_iff.mp hnd).1))
  edge id ed hed := readable_of_all (List.all_eq_true.mp he (id, ed)
    (HashMap.mem_toList.mpr (getEdge_eq_some_iff.mp hed).1))

theorem hasNode_shown (hg : g.Coherent) {id : String} : g.shown.HasNode id ↔ g.isNodeLive id = true := by
  rw [isNodeLive_iff, Option.isSome_iff_exists]
  constructor
  · rintro ⟨_, ⟨nd, hnd, rfl⟩, rfl⟩
    exact ⟨nd, hnd⟩
  · rintro ⟨nd, hnd⟩
    obtain rfl := hg.nodeId_of_getNode hnd
    exact ⟨_, ⟨nd, hnd, rfl⟩, rfl⟩

theorem visibleEdge_iff {ed : Edge} : g.visibleEdge ed.edgeId = some ed ↔
    g.getEdge ed.edgeId = some ed ∧ g.isNodeLive ed.sourceId = true ∧ g.isNodeLive ed.targetId = true := by
  rw [visibleEdge_eq_some, getEdge_eq_some_iff, isNodeLive_iff, isNodeLive_iff, and_assoc]

/-- A listing of readable nodes gives their dictionaries. -/
theorem reads_nodes (hr : g.AllReadable) {l : List Node} {P : Node → Prop}
    (hl : ∀ nd, nd ∈ l ↔ g.getNode nd.nodeId = some nd ∧ P nd) (hnd : (l.map Node.nodeId).Nodup) :
    Fetches (dictsOf nodeToPydict l) NodeDict.nodeId
      {d | ∃ nd, g.getNode nd.nodeId = some nd ∧ P nd ∧ nd.toDict = d} := by
  refine ⟨_, dictsOf_of_ok fun nd h => nodeToPydict_of_readable (hr.node _ nd ((hl nd).mp h).1), ?_, ?_⟩
  · intro d
    simp only [List.mem_map, hl, Set.mem_ofPred_eq, and_assoc]
  · rw [List.map_map]
    exact hnd

/-- A listing of readable edges gives their dictionaries. -/
theorem reads_edges (hr : g.AllReadable) {l : List Edge} {P : Edge → Prop}
    (hl : ∀ ed, ed ∈ l ↔ g.visibleEdge ed.edgeId = some ed ∧ P ed) (hnd : (l.map Edge.edgeId).Nodup) :
    Fetches (dictsOf edgeToPydict l) EdgeDict.edgeId
      {d | ∃ ed, g.visibleEdge ed.edgeId = some ed ∧ P ed ∧ ed.toDict = d} := by
  refine ⟨_, dictsOf_of_ok fun ed h => edgeToPydict_of_readable
    (hr.edge _ ed (visibleEdge_iff.mp ((hl ed).mp h).1).1), ?_, ?_⟩
  · intro d
    simp only [List.mem_map, hl, Set.mem_ofPred_eq, and_assoc]
  · rw [List.map_map]
    exact hnd

theorem reader_getNode (id : String) : (g.reader σ).getNode id = unwrapDict nodeToPydict (g.getNode id) := rfl

theorem reader_getEdge (id : String) : (g.reader σ).getEdge id = unwrapDict edgeToPydict (g.getEdge id) := rfl

/-- **A store shows its live part**, where every value can be read. -/
theorem shows (hg : g.Coherent) (hr : g.AllReadable) (σ : HashOrder) : (g.reader σ).Shows g.shown where
  allNodes := by
    refine (reads_nodes (P := fun _ => True) hr (fun nd => ?_) (hg.nodup_allNodes σ)).congr fun d => ?_
    · rw [mem_allNodes hg.sound, and_true]
    · simp [shown]
  ofType ty := by
    refine reads_nodes hr (fun nd => ?_) (hg.nodup_nodesByType σ ty)
    rw [hg.mem_nodesByType, mem_allNodes hg.sound]
  ofType_subset ty := by
    rintro _ ⟨nd, hnd, -, rfl⟩
    exact ⟨nd, hnd, rfl⟩
  allEdges := by
    refine (reads_edges (P := fun _ => True) hr (fun ed => ?_) (hg.nodup_allEdges σ)).congr fun d => ?_
    · rw [mem_allEdges hg.sound, and_true]
    · simp [shown]
  ends := by
    rintro _ ⟨ed, hed, rfl⟩
    obtain ⟨-, hsrc, htgt⟩ := visibleEdge_iff.mp hed
    exact ⟨(hasNode_shown hg).mpr hsrc, (hasNode_shown hg).mpr htgt⟩
  getNode id := by
    cases hnd : g.getNode id with
    | none =>
      refine ⟨none, by rw [reader_getNode, hnd]; rfl, fun n => ⟨fun h => (by cases h), ?_⟩⟩
      rintro ⟨⟨nd, hn, rfl⟩, rfl⟩
      rw [show nd.toDict.nodeId = nd.nodeId from rfl, hn] at hnd
      cases hnd
    | some nd =>
      refine ⟨some nd.toDict, ?_, fun n => ?_⟩
      · rw [reader_getNode, hnd, unwrapDict, nodeToPydict_of_readable (hr.node id nd hnd)]
      · obtain rfl := hg.nodeId_of_getNode hnd
        constructor
        · rintro ⟨⟩
          exact ⟨⟨nd, hnd, rfl⟩, rfl⟩
        · rintro ⟨⟨nd', hn, rfl⟩, hid⟩
          rw [show nd'.nodeId = nd.nodeId from hid, hnd] at hn
          rw [Option.some.inj hn]
  getEdge id := by
    cases hed : g.getEdge id with
    | none =>
      refine ⟨none, by rw [reader_getEdge, hed]; rfl, ?_, fun e h => by cases h⟩
      rintro _ ⟨ed, he, rfl⟩ rfl
      rw [show ed.toDict.edgeId = ed.edgeId from rfl, (visibleEdge_iff.mp he).1] at hed
      cases hed
    | some ed =>
      obtain rfl := hg.edgeId_of_getEdge hed
      refine ⟨some ed.toDict, ?_, ?_, ?_⟩
      · rw [reader_getEdge, hed, unwrapDict, edgeToPydict_of_readable (hr.edge _ ed hed)]
      · rintro _ ⟨ed', he, rfl⟩ hid
        rw [visibleEdge_iff, show ed'.edgeId = ed.edgeId from hid, hed] at he
        rw [Option.some.inj he.1]
      · rintro _ ⟨⟩
        exact ⟨rfl, fun hsrc htgt => ⟨ed, visibleEdge_iff.mpr
          ⟨hed, (hasNode_shown hg).mp hsrc, (hasNode_shown hg).mp htgt⟩, rfl⟩⟩
  outgoing id hid := by
    have hlive := (hasNode_shown hg).mp hid
    refine (reads_edges (P := fun ed => ed.sourceId = id) hr (fun ed => ?_) (hg.nodup_outgoingEdges σ id)).congr
      fun d => ?_
    · rw [hg.mem_outgoingEdges, visibleEdge_iff]
      constructor
      · rintro ⟨hed, rfl, htgt⟩
        exact ⟨⟨hed, hlive, htgt⟩, rfl⟩
      · rintro ⟨⟨hed, -, htgt⟩, hsrc⟩
        exact ⟨hed, hsrc, htgt⟩
    · constructor
      · rintro ⟨ed, hed, hsrc, rfl⟩
        exact ⟨⟨ed, hed, rfl⟩, hsrc⟩
      · rintro ⟨⟨ed, hed, rfl⟩, hsrc⟩
        exact ⟨ed, hed, hsrc, rfl⟩
  incoming id hid := by
    have hlive := (hasNode_shown hg).mp hid
    refine (reads_edges (P := fun ed => ed.targetId = id) hr (fun ed => ?_) (hg.nodup_incomingEdges σ id)).congr
      fun d => ?_
    · rw [hg.mem_incomingEdges, visibleEdge_iff]
      constructor
      · rintro ⟨hed, rfl, hsrc⟩
        exact ⟨⟨hed, hsrc, hlive⟩, rfl⟩
      · rintro ⟨⟨hed, hsrc, -⟩, htgt⟩
        exact ⟨hed, htgt, hsrc⟩
    · constructor
      · rintro ⟨ed, hed, htgt, rfl⟩
        exact ⟨⟨ed, hed, rfl⟩, htgt⟩
      · rintro ⟨⟨ed, hed, rfl⟩, htgt⟩
        exact ⟨ed, hed, htgt, rfl⟩

end MaterializedGraph

end SilkGraph
