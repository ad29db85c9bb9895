import SilkGraph.Graph.Entities

/-!
# The graph, one identifier at a time

What the graph knows under one identifier is a `Slot`: a node, an edge, or both. An entry
that is neither a checkpoint nor an ontology extension comes down to a list of `Event`s, each
on the slot of one identifier (`events`), and the slots after it are the slots before it with
these events played (`slot_applyInner`). Entries influence each other across slots only
through the types of nodes and through the edges that are held pending: an edge is accepted
or not by the types of its endpoints, and an `AddNode` brings the events of the edges that
were waiting for it.

So the order of entries on different identifiers does not matter, and questions about the
graph become questions about one slot and a list of events.
-/

namespace SilkGraph

/-- What the graph holds under one identifier. -/
@[ext]
structure Slot where
  node : Option Node
  edge : Option Edge

/-- What an entry does to the slot of one identifier. -/
inductive Event where
  | addNode (nodeType : String) (subtype : Option String) (label : String)
      (properties : BTreeMap String Value) (clock : HybridClock)
  | addEdge (edgeType sourceId targetId : String) (properties : BTreeMap String Value)
      (clock : HybridClock)
  | update (key : String) (value : Value) (clock : HybridClock)
  | removeNode (clock : HybridClock)
  | removeEdge (clock : HybridClock)

/-- The events that concern one identifier. -/
def eventsAt (id : String) (evs : List (String × Event)) : List Event :=
  evs.filterMap fun ev => if ev.1 = id then some ev.2 else none

@[simp] theorem eventsAt_nil (id : String) : eventsAt id [] = [] := rfl

theorem eventsAt_cons (id : String) (ev : String × Event) (evs : List (String × Event)) :
    eventsAt id (ev :: evs) = if ev.1 = id then ev.2 :: eventsAt id evs else eventsAt id evs := by
  rw [eventsAt, List.filterMap_cons]
  split <;> rename_i h <;> split at h <;> simp_all [eventsAt]

@[simp]
theorem eventsAt_append (id : String) (evs evs' : List (String × Event)) :
    eventsAt id (evs ++ evs') = eventsAt id evs ++ eventsAt id evs' :=
  List.filterMap_append

theorem mem_eventsAt {id : String} {ev : Event} {evs : List (String × Event)} :
    ev ∈ eventsAt id evs ↔ (id, ev) ∈ evs := by
  simp only [eventsAt, List.mem_filterMap, Option.ite_none_right_eq_some, Option.some.injEq,
    Prod.exists]
  constructor
  · rintro ⟨_, _, h, rfl, rfl⟩
    exact h
  · exact fun h => ⟨id, ev, h, rfl, rfl⟩

namespace Slot

variable [Crates]

/-- Whether an update is accepted: by the type of the node, else of the edge, else always. -/
def accepts (ontology : Ontology) (self : Slot) (key : String) (value : Value) : Bool :=
  match self.node, self.edge with
  | some nd, _ => (ontology.validatePropertyUpdate nd.nodeType nd.subtype key value).isOk
  | none, some ed => (ontology.validateEdgePropertyUpdate ed.edgeType key value).isOk
  | none, none => true

/-- One event on the slot of an identifier. -/
def step (ontology : Ontology) (id : String) (self : Slot) : Event → Slot
  | .addNode nodeType subtype label properties clock =>
    { self with node := some (match self.node with
        | some nd => nd.readd subtype label properties clock
        | none => Node.create id nodeType subtype label properties clock) }
  | .addEdge edgeType sourceId targetId properties clock =>
    { self with edge := some (match self.edge with
        | some ed => ed.readd properties clock
        | none => Edge.create id edgeType sourceId targetId properties clock) }
  | .update key value clock =>
    if self.accepts ontology key value then
      match self.node with
      | some nd => { self with node := some (nd.update key value clock) }
      | none => { self with edge := self.edge.map fun ed => ed.update key value clock }
    else self
  | .removeNode clock => { self with node := self.node.map fun nd => nd.remove clock }
  | .removeEdge clock => { self with edge := self.edge.map fun ed => ed.remove clock }

/-- Events on one slot, one after the other. -/
def play (ontology : Ontology) (id : String) (self : Slot) (evs : List Event) : Slot :=
  evs.foldl (step ontology id) self

@[simp]
theorem play_nil (o : Ontology) (id : String) (sl : Slot) : sl.play o id [] = sl := rfl

@[simp]
theorem play_cons (o : Ontology) (id : String) (sl : Slot) (ev : Event) (evs : List Event) :
    sl.play o id (ev :: evs) = (sl.step o id ev).play o id evs := rfl

@[simp]
theorem play_append (o : Ontology) (id : String) (sl : Slot) (evs evs' : List Event) :
    sl.play o id (evs ++ evs') = (sl.play o id evs).play o id evs' := List.foldl_append ..

end Slot

/-- An entry that is applied to the graph as it comes: neither a checkpoint nor an extension
of the ontology. -/
structure Entry.Ordinary (e : Entry) : Prop where
  notExtension : e.payload.isExtendOntology = false
  notCheckpoint : e.payload.isCheckpoint = false

namespace MaterializedGraph

/-- The slot of an identifier. -/
def slot (self : MaterializedGraph) (id : String) : Slot := ⟨self.nodes[id]?, self.edges[id]?⟩

/-- The type of the node of an identifier, removed or not. -/
def typeOf (self : MaterializedGraph) (id : String) : Option String :=
  self.nodes[id]?.map Node.nodeType

theorem getNode_eq_some_iff {g : MaterializedGraph} {id : String} {nd : Node} :
    g.getNode id = some nd ↔ g.nodes[id]? = some nd ∧ nd.tombstoned = false := by
  rw [getNode, Option.filter_eq_some_iff, Bool.not_eq_true']

theorem getEdge_eq_some_iff {g : MaterializedGraph} {id : String} {ed : Edge} :
    g.getEdge id = some ed ↔ g.edges[id]? = some ed ∧ ed.tombstoned = false := by
  rw [getEdge, Option.filter_eq_some_iff, Bool.not_eq_true']

variable [Crates] {g : MaterializedGraph} {σ : HashOrder} {e : Entry} {mode : ValidationMode}

/-- Whether an edge between two identifiers is accepted: its type exists, and so do the
nodes, with types that fit. -/
def acceptsEdge (self : MaterializedGraph) (mode : ValidationMode)
    (edgeType sourceId targetId : String) (properties : BTreeMap String Value) : Bool :=
  self.ontology.edgeTypes.contains edgeType &&
    match self.typeOf sourceId, self.typeOf targetId with
    | some src, some tgt => (self.ontology.validateEdgeMode edgeType src tgt properties mode).isOk
    | _, _ => false

/-- The event of an `AddEdge` entry that is accepted. -/
def edgeEvents (self : MaterializedGraph) (mode : ValidationMode) (e : Entry) :
    List (String × Event) :=
  match e.payload with
  | .addEdge edgeId edgeType sourceId targetId properties =>
    if self.acceptsEdge mode edgeType sourceId targetId properties then
      [(edgeId, .addEdge edgeType sourceId targetId properties e.clock)]
    else []
  | _ => []

omit [Crates] in
/-- The held edges whose endpoints are there by now, in the order they are retried. -/
def readyEdges (self : MaterializedGraph) (σ : HashOrder) : List Entry :=
  ((σ.walk self.pendingEdges.toList).map Prod.snd).filter fun e => self.isReady e

/-- What an entry does, event by event. An `AddNode` is followed by the edges it completes. -/
def events (self : MaterializedGraph) (σ : HashOrder) (mode : ValidationMode) (e : Entry) :
    List (String × Event) :=
  match e.payload with
  | .addNode nodeId nodeType subtype label properties =>
    if (self.ontology.validateNodeMode nodeType subtype properties mode).isOk then
      let self := self.applyAddNode nodeId nodeType subtype label properties e.clock
      (nodeId, .addNode nodeType subtype label properties e.clock) ::
        (self.readyEdges σ).flatMap (self.edgeEvents .full)
    else []
  | .addEdge .. => self.edgeEvents mode e
  | .updateProperty entityId key value => [(entityId, .update key value e.clock)]
  | .removeNode nodeId => [(nodeId, .removeNode e.clock)]
  | .removeEdge edgeId => [(edgeId, .removeEdge e.clock)]
  | _ => []

/-! ### Slots of an updated graph -/

theorem slot_applyAddNode (o : Ontology) (g : MaterializedGraph) (id ty : String)
    (st : Option String) (lb : String) (ps : BTreeMap String Value) (c : HybridClock)
    (id' : String) :
    (g.applyAddNode id ty st lb ps c).slot id' =
      if id = id' then (g.slot id').step o id' (.addNode ty st lb ps c) else g.slot id' := by
  unfold applyAddNode slot
  cases hn : g.nodes[id]? <;> simp only [HashMap.getElem?_insert] <;> split <;> try rfl
  all_goals
    rename_i heq
    subst heq
    simp [Slot.step, hn]

theorem slot_applyAddEdge (o : Ontology) (g : MaterializedGraph) (id ty src tgt : String)
    (ps : BTreeMap String Value) (c : HybridClock) (id' : String) :
    (g.applyAddEdge id ty src tgt ps c).slot id' =
      if id = id' then (g.slot id').step o id' (.addEdge ty src tgt ps c) else g.slot id' := by
  unfold applyAddEdge slot
  cases he : g.edges[id]? <;> simp only [HashMap.getElem?_insert] <;> split <;> try rfl
  all_goals
    rename_i heq
    subst heq
    simp [Slot.step, he]

theorem slot_applyRemoveNode (o : Ontology) (g : MaterializedGraph) (id : String)
    (c : HybridClock) (id' : String) :
    (g.applyRemoveNode id c).slot id' =
      if id = id' then (g.slot id').step o id' (.removeNode c) else g.slot id' := by
  unfold applyRemoveNode slot
  cases hn : g.nodes[id]? <;> simp only [HashMap.getElem?_insert] <;> split <;> try rfl
  all_goals
    rename_i heq
    subst heq
    simp [Slot.step, hn]

theorem slot_applyRemoveEdge (o : Ontology) (g : MaterializedGraph) (id : String)
    (c : HybridClock) (id' : String) :
    (g.applyRemoveEdge id c).slot id' =
      if id = id' then (g.slot id').step o id' (.removeEdge c) else g.slot id' := by
  unfold applyRemoveEdge slot
  cases he : g.edges[id]? <;> simp only [HashMap.getElem?_insert] <;> split <;> try rfl
  all_goals
    rename_i heq
    subst heq
    simp [Slot.step, he]

theorem isOk_updateVerdict (g : MaterializedGraph) (id k : String) (v : Value) :
    (g.updateVerdict id k v).isOk = (g.slot id).accepts g.ontology k v := by
  unfold updateVerdict Slot.accepts slot
  cases g.nodes[id]? with
  | some nd => rfl
  | none => cases g.edges[id]? <;> rfl

theorem slot_applyUpdateProperty (g : MaterializedGraph) (id k : String) (v : Value)
    (c : HybridClock) (ok : (g.slot id).accepts g.ontology k v) (id' : String) :
    (g.applyUpdateProperty id k v c).slot id' =
      if id = id' then (g.slot id').step g.ontology id' (.update k v c) else g.slot id' := by
  have hstep : (g.slot id).step g.ontology id (.update k v c) =
      (match g.nodes[id]? with
        | some nd => ⟨some (nd.update k v c), g.edges[id]?⟩
        | none => ⟨none, g.edges[id]?.map fun ed => ed.update k v c⟩ : Slot) := by
    rw [Slot.step, if_pos ok, slot]
    cases g.nodes[id]? <;> rfl
  by_cases heq : id = id'
  · subst heq
    rw [if_pos rfl, hstep]
    unfold applyUpdateProperty slot
    cases hn : g.nodes[id]? with
    | some nd => simp
    | none => cases he : g.edges[id]? <;> simp [hn, he]
  · rw [if_neg heq]
    unfold applyUpdateProperty slot
    cases g.nodes[id]? with
    | some nd => simp [HashMap.getElem?_insert, heq]
    | none => cases g.edges[id]? <;> simp [HashMap.getElem?_insert, heq]

/-- An update arm is its event, accepted or refused. -/
theorem slot_updatePropertyArm (g : MaterializedGraph) (e : Entry) (id k : String) (v : Value)
    (id' : String) :
    (g.updatePropertyArm e id k v).slot id' =
      if id = id' then (g.slot id').step g.ontology id' (.update k v e.clock) else g.slot id' := by
  have hverdict := isOk_updateVerdict g id k v
  rw [updatePropertyArm]
  split <;> rename_i h <;> rw [h] at hverdict
  · split
    · rename_i heq
      subst heq
      rw [Slot.step, ← hverdict]
      rfl
    · rfl
  · exact slot_applyUpdateProperty (g.release e.hash) id k v e.clock hverdict.symm id'

/-! ### Held edges

Only `AddNode` changes types, and only types decide whether an edge is accepted, refused or
held. -/

/-- Whether an edge is held: its type exists, but an endpoint does not. -/
def holdsEdge (self : MaterializedGraph) (edgeType sourceId targetId : String) : Bool :=
  self.ontology.edgeTypes.contains edgeType &&
    ((self.typeOf sourceId).isNone || (self.typeOf targetId).isNone)

/-- The three outcomes of an `AddEdge`. -/
theorem addEdgeArm_cases (g : MaterializedGraph) (e : Entry) (mode : ValidationMode)
    (id ty src tgt : String) (ps : BTreeMap String Value) :
    (g.acceptsEdge mode ty src tgt ps = true ∧ g.holdsEdge ty src tgt = false ∧
      g.addEdgeArm e mode id ty src tgt ps =
        (g.release e.hash).applyAddEdge id ty src tgt ps e.clock) ∨
    (g.acceptsEdge mode ty src tgt ps = false ∧ g.holdsEdge ty src tgt = true ∧ ∃ reason,
      g.addEdgeArm e mode id ty src tgt ps =
        { g with pendingEdges := g.pendingEdges.insert e.hash e }.quarantine e.hash "add_edge"
          reason) ∨
    g.acceptsEdge mode ty src tgt ps = false ∧ g.holdsEdge ty src tgt = false ∧ ∃ reason,
      g.addEdgeArm e mode id ty src tgt ps = g.quarantine e.hash "add_edge" reason := by
  unfold acceptsEdge holdsEdge typeOf addEdgeArm
  cases hty : g.ontology.edgeTypes.contains ty
  · exact .inr (.inr ⟨by simp, by simp, _, rfl⟩)
  · cases hs : g.nodes[src]? with
    | none => exact .inr (.inl ⟨by simp, by simp, _, rfl⟩)
    | some a =>
      cases ht : g.nodes[tgt]? with
      | none => exact .inr (.inl ⟨by simp, by simp, _, rfl⟩)
      | some b =>
        cases hv : g.ontology.validateEdgeMode ty a.nodeType b.nodeType ps mode with
        | error err => exact .inr (.inr ⟨by simp [hv]; rfl, by simp, _, by simp [hv]; rfl⟩)
        | ok u => exact .inl ⟨by simp [hv]; rfl, by simp, by simp [hv]⟩

omit [Crates] in
theorem isReady_iff {p : Entry} : g.isReady p = true ↔ ∃ id ty src tgt ps,
    p.payload = .addEdge id ty src tgt ps ∧ (g.typeOf src).isSome ∧ (g.typeOf tgt).isSome := by
  rw [isReady]
  split
  · rename_i id ty src tgt ps hp
    simp [hp, typeOf]
  · rename_i hp
    simp only [Bool.false_eq_true, false_iff]
    rintro ⟨id, ty, src, tgt, ps, heq, -⟩
    exact hp id ty src tgt ps heq

theorem edgeEvents_congr {g' : MaterializedGraph} (ho : g.ontology = g'.ontology)
    (ht : ∀ id, g.typeOf id = g'.typeOf id) (p : Entry) :
    g.edgeEvents mode p = g'.edgeEvents mode p := by
  unfold edgeEvents acceptsEdge
  rw [ho, funext ht]

omit [Crates] in
theorem isReady_congr {g' : MaterializedGraph} (ht : ∀ id, g.typeOf id = g'.typeOf id)
    (p : Entry) : g.isReady p = g'.isReady p := by
  rw [Bool.eq_iff_iff, isReady_iff, isReady_iff, funext ht]

/-- An `AddEdge` arm is its event, if it has one. -/
theorem slot_addEdgeArm (g : MaterializedGraph) (e : Entry) (mode : ValidationMode)
    (id ty src tgt : String) (ps : BTreeMap String Value) (hp : e.payload = .addEdge id ty src tgt ps)
    (id' : String) : (g.addEdgeArm e mode id ty src tgt ps).slot id' =
      (g.slot id').play g.ontology id' (eventsAt id' (g.edgeEvents mode e)) := by
  simp only [edgeEvents, hp]
  rcases addEdgeArm_cases g e mode id ty src tgt ps with ⟨ha, -, h⟩ | ⟨ha, -, r, h⟩ | ⟨ha, -, r, h⟩ <;>
    rw [h, ha]
  · rw [slot_applyAddEdge g.ontology, if_pos rfl, eventsAt_cons]
    split <;> rfl
  · rfl
  · rfl

omit [Crates] in
theorem nodes_applyAddEdge (g : MaterializedGraph) (id ty src tgt : String)
    (ps : BTreeMap String Value) (c : HybridClock) :
    (g.applyAddEdge id ty src tgt ps c).nodes = g.nodes ∧
      (g.applyAddEdge id ty src tgt ps c).ontology = g.ontology ∧
      (g.applyAddEdge id ty src tgt ps c).pendingEdges = g.pendingEdges := by
  unfold applyAddEdge
  split <;> exact ⟨rfl, rfl, rfl⟩

theorem nodes_addEdgeArm (g : MaterializedGraph) (e : Entry) (mode : ValidationMode)
    (id ty src tgt : String) (ps : BTreeMap String Value) :
    (g.addEdgeArm e mode id ty src tgt ps).nodes = g.nodes ∧
      (g.addEdgeArm e mode id ty src tgt ps).ontology = g.ontology ∧
      (g.addEdgeArm e mode id ty src tgt ps).pendingEdges =
        if g.holdsEdge ty src tgt then g.pendingEdges.insert e.hash e else g.pendingEdges := by
  rcases addEdgeArm_cases g e mode id ty src tgt ps with ⟨-, hh, h⟩ | ⟨-, hh, r, h⟩ | ⟨-, hh, r, h⟩ <;>
    rw [h, hh]
  · exact nodes_applyAddEdge (g.release e.hash) id ty src tgt ps e.clock
  · exact ⟨rfl, rfl, rfl⟩
  · exact ⟨rfl, rfl, rfl⟩

/-- The retry of an edge that is ready: it leaves the held ones, and what it does to the slots
is its event. -/
theorem retryEdge_spec {p : Entry} (hr : g.isReady p = true) :
    (g.retryEdge p).nodes = g.nodes ∧ (g.retryEdge p).ontology = g.ontology ∧
      (g.retryEdge p).pendingEdges = g.pendingEdges.erase p.hash ∧
      ∀ id, (g.retryEdge p).slot id =
        (g.slot id).play g.ontology id (eventsAt id (g.edgeEvents .full p)) := by
  obtain ⟨id, ty, src, tgt, ps, hp, hs, ht⟩ := isReady_iff.mp hr
  let g₁ : MaterializedGraph := { g with pendingEdges := g.pendingEdges.erase p.hash }
  have hretry : g.retryEdge p = g₁.addEdgeArm p .full id ty src tgt ps := by
    simp only [retryEdge, hp]
    rfl
  have hholds : g₁.holdsEdge ty src tgt = false := by
    have hs' : (g₁.typeOf src).isSome := hs
    have ht' : (g₁.typeOf tgt).isSome := ht
    simp [holdsEdge, Option.isNone_eq_false_iff.mpr hs', Option.isNone_eq_false_iff.mpr ht']
  obtain ⟨h1, h2, h3⟩ := nodes_addEdgeArm g₁ p .full id ty src tgt ps
  rw [hholds] at h3
  rw [hretry]
  exact ⟨h1, h2, h3, slot_addEdgeArm g₁ p .full id ty src tgt ps hp⟩

/-- A round of retries. -/
theorem foldl_retryEdge_spec (l : List Entry) (g : MaterializedGraph)
    (hr : ∀ p ∈ l, g.isReady p = true) :
    (l.foldl retryEdge g).nodes = g.nodes ∧ (l.foldl retryEdge g).ontology = g.ontology ∧
      (l.foldl retryEdge g).pendingEdges = l.foldl (fun m p => m.erase p.hash) g.pendingEdges ∧
      ∀ id, (l.foldl retryEdge g).slot id =
        (g.slot id).play g.ontology id (eventsAt id (l.flatMap (g.edgeEvents .full))) := by
  induction l generalizing g with
  | nil => exact ⟨rfl, rfl, rfl, fun id => rfl⟩
  | cons p l ih =>
    obtain ⟨h1, h2, h3, h4⟩ := retryEdge_spec (hr p List.mem_cons_self)
    -- one retry changes no type, so the rest stays ready and keeps its events
    have ht : ∀ id, (g.retryEdge p).typeOf id = g.typeOf id := fun id => by rw [typeOf, h1, typeOf]
    obtain ⟨i1, i2, i3, i4⟩ := ih (g.retryEdge p) fun q hq => by
      rw [isReady_congr ht]
      exact hr q (List.mem_cons_of_mem _ hq)
    refine ⟨i1.trans h1, i2.trans h2, ?_, fun id => ?_⟩
    · rw [List.foldl_cons, i3, h3, List.foldl_cons]
    · rw [List.foldl_cons, i4, h4, h2, List.flatMap_cons, eventsAt_append, Slot.play_append,
        funext (edgeEvents_congr h2 ht)]

theorem retryPendingEdges_eq (g : MaterializedGraph) (σ : HashOrder) :
    g.retryPendingEdges σ = (g.readyEdges σ).foldl retryEdge g := rfl

omit [Crates] in
theorem mem_readyEdges {p : Entry} : p ∈ g.readyEdges σ ↔
    (∃ h : Hash, g.pendingEdges[h]? = some p) ∧ g.isReady p = true := by
  simp only [readyEdges, List.mem_filter, List.mem_map, HashOrder.mem_walk, Prod.exists,
    HashMap.mem_toList, exists_eq_right]

/-! ### One entry -/

omit [Crates] in
theorem typeOf_applyAddNode (g : MaterializedGraph) (id ty : String) (st : Option String)
    (lb : String) (ps : BTreeMap String Value) (c : HybridClock) (id' : String) :
    (g.applyAddNode id ty st lb ps c).typeOf id' =
      if id = id' then some ((g.typeOf id').getD ty) else g.typeOf id' := by
  unfold applyAddNode typeOf
  cases hn : g.nodes[id]? <;> simp only [HashMap.getElem?_insert] <;> split <;> try rfl
  all_goals
    rename_i heq
    subst heq
    simp [hn, Node.create]

omit [Crates] in
theorem applyAddNode_rest (g : MaterializedGraph) (id ty : String) (st : Option String)
    (lb : String) (ps : BTreeMap String Value) (c : HybridClock) :
    (g.applyAddNode id ty st lb ps c).ontology = g.ontology ∧
      (g.applyAddNode id ty st lb ps c).pendingEdges = g.pendingEdges := by
  unfold applyAddNode
  split <;> exact ⟨rfl, rfl⟩

/-- An accepted `AddNode`: the node, then the edges that were waiting for it. -/
theorem addNodeArm_spec (g : MaterializedGraph) (σ : HashOrder) (e : Entry)
    (mode : ValidationMode) (id ty : String) (st : Option String) (lb : String)
    (ps : BTreeMap String Value) :
    ((g.ontology.validateNodeMode ty st ps mode).isOk = false ∧
      ∃ reason, g.addNodeArm σ e mode id ty st lb ps = g.quarantine e.hash "add_node" reason) ∨
    ((g.ontology.validateNodeMode ty st ps mode).isOk = true ∧
      g.addNodeArm σ e mode id ty st lb ps =
        (((g.release e.hash).applyAddNode id ty st lb ps e.clock).readyEdges σ).foldl retryEdge
          ((g.release e.hash).applyAddNode id ty st lb ps e.clock)) := by
  rw [addNodeArm]
  cases g.ontology.validateNodeMode ty st ps mode with
  | error err => exact .inl ⟨rfl, _, rfl⟩
  | ok u => exact .inr ⟨rfl, rfl⟩

/-- **The slots after an entry** are the slots before it with its events played. -/
theorem slot_applyInner (g : MaterializedGraph) (σ : HashOrder) (he : e.Ordinary)
    (mode : ValidationMode) (adopt : Bool) (id : String) :
    (g.applyInner σ e mode adopt).slot id =
      (g.slot id).play g.ontology id (eventsAt id (g.events σ mode e)) := by
  obtain ⟨hext, hchk⟩ := he
  rw [applyInner, events]
  cases hp : e.payload with
  | checkpoint => simp [hp, GraphOp.isCheckpoint] at hchk
  | extendOntology => simp [hp, GraphOp.isExtendOntology] at hext
  | defineOntology o => rfl
  | defineLens t => rfl
  | addNode nid ty st lb ps =>
    rcases addNodeArm_spec g σ e mode nid ty st lb ps with ⟨hv, r, h⟩ | ⟨hv, h⟩
    · simp only [applyPayload, h, hv]
      rfl
    · obtain ⟨hr1, hr2⟩ := applyAddNode_rest (g.release e.hash) nid ty st lb ps e.clock
      obtain ⟨-, -, -, h4⟩ := foldl_retryEdge_spec
        (((g.release e.hash).applyAddNode nid ty st lb ps e.clock).readyEdges σ)
        ((g.release e.hash).applyAddNode nid ty st lb ps e.clock)
        fun p hp => (mem_readyEdges.mp hp).2
      simp only [applyPayload, h, hv, if_true]
      rw [h4, slot_applyAddNode g.ontology, hr1, eventsAt_cons]
      -- releasing the entry from quarantine changes neither the node nor what is ready
      have hsame : ∀ q, ((g.release e.hash).applyAddNode nid ty st lb ps e.clock).edgeEvents .full q =
          (g.applyAddNode nid ty st lb ps e.clock).edgeEvents .full q := fun q =>
        edgeEvents_congr (by rw [hr1, (applyAddNode_rest g nid ty st lb ps e.clock).1]; rfl)
          (fun i => by rw [typeOf_applyAddNode, typeOf_applyAddNode]; rfl) q
      have hready : ((g.release e.hash).applyAddNode nid ty st lb ps e.clock).readyEdges σ =
          (g.applyAddNode nid ty st lb ps e.clock).readyEdges σ := by
        unfold readyEdges
        rw [hr2, (applyAddNode_rest g nid ty st lb ps e.clock).2]
        refine congrArg₂ List.filter (funext fun q => isReady_congr (fun i => ?_) q) rfl
        rw [typeOf_applyAddNode, typeOf_applyAddNode]
        rfl
      rw [funext hsame, hready]
      split <;> rfl
  | addEdge eid ty src tgt ps =>
    simp only [applyPayload]
    exact slot_addEdgeArm g e mode eid ty src tgt ps hp id
  | updateProperty eid k v =>
    simp only [applyPayload]
    rw [slot_updatePropertyArm, eventsAt_cons]
    split <;> rfl
  | removeNode nid =>
    simp only [applyPayload]
    rw [slot_applyRemoveNode g.ontology, eventsAt_cons]
    split <;> rfl
  | removeEdge eid =>
    simp only [applyPayload]
    rw [slot_applyRemoveEdge g.ontology, eventsAt_cons]
    split <;> rfl

/-! ### Graphs that judge alike -/

/-- Two graphs with the same ontology, the same held edges and the same types of nodes: an
entry means the same events in both. -/
structure Twin (g g' : MaterializedGraph) : Prop where
  ontology : g.ontology = g'.ontology
  pending : g.pendingEdges = g'.pendingEdges
  types : ∀ id, g.typeOf id = g'.typeOf id

namespace Twin

variable {g' : MaterializedGraph}

omit [Crates] in
theorem refl (g : MaterializedGraph) : Twin g g := ⟨rfl, rfl, fun _ => rfl⟩

omit [Crates] in
theorem readyEdges (h : Twin g g') (σ : HashOrder) : g.readyEdges σ = g'.readyEdges σ := by
  unfold MaterializedGraph.readyEdges
  rw [h.pending, funext fun q => isReady_congr h.types q]

omit [Crates] in
theorem applyAddNode (h : Twin g g') (id ty : String) (st : Option String) (lb : String)
    (ps : BTreeMap String Value) (c : HybridClock) :
    Twin (g.applyAddNode id ty st lb ps c) (g'.applyAddNode id ty st lb ps c) := by
  obtain ⟨h1, h2⟩ := applyAddNode_rest g id ty st lb ps c
  obtain ⟨h1', h2'⟩ := applyAddNode_rest g' id ty st lb ps c
  exact ⟨by rw [h1, h1', h.ontology], by rw [h2, h2', h.pending],
    fun i => by rw [typeOf_applyAddNode, typeOf_applyAddNode, h.types]⟩

omit [Crates] in
theorem release (g : MaterializedGraph) (hash : Hash) : Twin (g.release hash) g :=
  ⟨rfl, rfl, fun _ => rfl⟩

theorem events (h : Twin g g') (σ : HashOrder) (mode : ValidationMode) (e : Entry) :
    g.events σ mode e = g'.events σ mode e := by
  unfold MaterializedGraph.events
  split
  · rename_i nid ty st lb ps _
    have h' := h.applyAddNode nid ty st lb ps e.clock
    simp only [h.ontology, h'.readyEdges, funext (edgeEvents_congr h'.ontology h'.types)]
  · exact edgeEvents_congr h.ontology h.types e
  all_goals rfl

end Twin

/-- What an entry does besides: the types it adds and the edges it holds or lets go. -/
theorem applyInner_frame (g : MaterializedGraph) (σ : HashOrder) (he : e.Ordinary)
    (mode : ValidationMode) (adopt : Bool) :
    (g.applyInner σ e mode adopt).ontology = g.ontology ∧
    (∀ i, (g.applyInner σ e mode adopt).typeOf i =
      match e.payload with
      | .addNode id ty st _ ps =>
        if (g.ontology.validateNodeMode ty st ps mode).isOk ∧ id = i then
          some ((g.typeOf i).getD ty)
        else g.typeOf i
      | _ => g.typeOf i) ∧
    (g.applyInner σ e mode adopt).pendingEdges =
      match e.payload with
      | .addNode id ty st lb ps =>
        if (g.ontology.validateNodeMode ty st ps mode).isOk then
          ((g.applyAddNode id ty st lb ps e.clock).readyEdges σ).foldl (fun m p => m.erase p.hash)
            g.pendingEdges
        else g.pendingEdges
      | .addEdge _ ty src tgt _ =>
        if g.holdsEdge ty src tgt then g.pendingEdges.insert e.hash e else g.pendingEdges
      | _ => g.pendingEdges := by
  obtain ⟨hext, hchk⟩ := he
  rw [applyInner]
  cases hp : e.payload with
  | checkpoint => simp [hp, GraphOp.isCheckpoint] at hchk
  | extendOntology => simp [hp, GraphOp.isExtendOntology] at hext
  | defineOntology o => exact ⟨rfl, fun _ => rfl, rfl⟩
  | defineLens t => exact ⟨rfl, fun _ => rfl, rfl⟩
  | addNode nid ty st lb ps =>
    simp only [applyPayload]
    rcases addNodeArm_spec g σ e mode nid ty st lb ps with ⟨hv, r, h⟩ | ⟨hv, h⟩
    · simp only [h, hv, Bool.false_eq_true, false_and, if_false]
      exact ⟨rfl, fun _ => rfl, rfl⟩
    · obtain ⟨h1, h2⟩ := applyAddNode_rest (g.release e.hash) nid ty st lb ps e.clock
      have htwin := (Twin.release g e.hash).applyAddNode nid ty st lb ps e.clock
      obtain ⟨i1, i2, i3, -⟩ := foldl_retryEdge_spec
        (((g.release e.hash).applyAddNode nid ty st lb ps e.clock).readyEdges σ)
        ((g.release e.hash).applyAddNode nid ty st lb ps e.clock)
        fun p hp => (mem_readyEdges.mp hp).2
      simp only [h, hv, true_and, if_true]
      refine ⟨i2.trans h1, fun i => ?_, ?_⟩
      · rw [typeOf, i1]
        exact typeOf_applyAddNode (g.release e.hash) nid ty st lb ps e.clock i
      · rw [i3, h2, htwin.readyEdges]
        rfl
  | addEdge eid ty src tgt ps =>
    simp only [applyPayload]
    obtain ⟨h1, h2, h3⟩ := nodes_addEdgeArm g e mode eid ty src tgt ps
    exact ⟨h2, fun i => by rw [typeOf, h1, typeOf], h3⟩
  | updateProperty eid k v =>
    simp only [applyPayload]
    have htypes : ∀ i, (g.updatePropertyArm e eid k v).typeOf i = g.typeOf i := fun i => by
      have hslot := slot_updatePropertyArm g e eid k v i
      have hnode : (g.updatePropertyArm e eid k v).nodes[i]? =
          ((g.updatePropertyArm e eid k v).slot i).node := rfl
      rw [typeOf, hnode, hslot]
      split
      · rw [Slot.step, slot, typeOf]
        split
        · cases g.nodes[i]? <;> rfl
        · rfl
      · rfl
    refine ⟨?_, htypes, ?_⟩ <;>
    · unfold updatePropertyArm applyUpdateProperty
      repeat' split
      all_goals rfl
  | removeNode nid =>
    simp only [applyPayload]
    have htypes : ∀ i, ((g.release e.hash).applyRemoveNode nid e.clock).typeOf i = g.typeOf i :=
      fun i => by
        have hnode : ((g.release e.hash).applyRemoveNode nid e.clock).nodes[i]? =
            (((g.release e.hash).applyRemoveNode nid e.clock).slot i).node := rfl
        rw [typeOf, hnode, slot_applyRemoveNode g.ontology]
        split
        · change Option.map Node.nodeType (g.nodes[i]?.map _) = _
          rw [Option.map_map, typeOf]
          exact congrFun (congrArg _ (funext fun nd => Node.remove_nodeType)) _
        · rfl
    refine ⟨?_, htypes, ?_⟩ <;>
    · unfold applyRemoveNode
      split <;> rfl
  | removeEdge eid =>
    simp only [applyPayload]
    have hnodes : ((g.release e.hash).applyRemoveEdge eid e.clock).nodes = g.nodes := by
      unfold applyRemoveEdge
      split <;> rfl
    refine ⟨?_, fun i => by rw [typeOf, hnodes, typeOf], ?_⟩ <;>
    · unfold applyRemoveEdge
      split <;> rfl

/-- Twins stay twins. -/
theorem Twin.applyInner {g' : MaterializedGraph} (h : Twin g g') (σ : HashOrder)
    (he : e.Ordinary) (mode : ValidationMode) (adopt : Bool) :
    Twin (g.applyInner σ e mode adopt) (g'.applyInner σ e mode adopt) := by
  obtain ⟨h1, h2, h3⟩ := applyInner_frame g σ he mode adopt
  obtain ⟨i1, i2, i3⟩ := applyInner_frame g' σ he mode adopt
  refine ⟨by rw [h1, i1, h.ontology], ?_, fun i => ?_⟩
  · rw [h3, i3]
    split
    · rename_i nid ty st lb ps _
      rw [h.ontology, h.pending, (h.applyAddNode nid ty st lb ps e.clock).readyEdges]
    · unfold holdsEdge
      rw [h.ontology, h.pending, h.types, h.types]
    · exact h.pending
  · rw [h2, i2]
    split <;> rw [h.types]
    rw [h.ontology]

/-- Every held edge is held under its hash and still lacks an endpoint. -/
def Settled (g : MaterializedGraph) : Prop :=
  ∀ (h : Hash) (p : Entry), g.pendingEdges[h]? = some p → p.hash = h ∧ g.isReady p = false

omit [Crates] in
theorem mem_foldl_erase {l : List Entry} {m : HashMap Hash Entry} {h : Hash} {p : Entry}
    (hp : (l.foldl (fun m q => m.erase q.hash) m)[h]? = some p) :
    m[h]? = some p ∧ ∀ q ∈ l, q.hash ≠ h := by
  induction l generalizing m with
  | nil => exact ⟨hp, by simp⟩
  | cons a l ih =>
    obtain ⟨h1, h2⟩ := ih hp
    rw [HashMap.getElem?_erase] at h1
    split at h1
    · cases h1
    · rename_i hne
      refine ⟨h1, fun q hq => ?_⟩
      rcases List.mem_cons.mp hq with rfl | hq
      · exact hne
      · exact h2 q hq

/-- After an entry no held edge is left that could be retried. -/
theorem Settled.applyInner (hg : g.Settled) (σ : HashOrder) (he : e.Ordinary)
    (mode : ValidationMode) (adopt : Bool) : (g.applyInner σ e mode adopt).Settled := by
  obtain ⟨-, htypes, hpend⟩ := applyInner_frame g σ he mode adopt
  -- unless a node is added, what was not ready is not ready now
  have hsame : (∀ i, (g.applyInner σ e mode adopt).typeOf i = g.typeOf i) →
      (g.applyInner σ e mode adopt).pendingEdges = g.pendingEdges →
      (g.applyInner σ e mode adopt).Settled := fun ht hp h p hh => by
    rw [hp] at hh
    rw [isReady_congr ht]
    exact hg h p hh
  cases hpay : e.payload with
  | addNode nid ty st lb ps =>
    simp only [hpay] at htypes hpend
    split at hpend <;> rename_i hv
    · intro h p hh
      rw [hpend] at hh
      obtain ⟨hh, hnot⟩ := mem_foldl_erase hh
      refine ⟨(hg h p hh).1, ?_⟩
      by_contra hready
      have ht : ∀ i, (g.applyInner σ e mode adopt).typeOf i =
          (g.applyAddNode nid ty st lb ps e.clock).typeOf i := fun i => by
        rw [htypes, typeOf_applyAddNode]
        simp only [hv, true_and]
      rw [Bool.not_eq_false, isReady_congr ht] at hready
      refine hnot p (mem_readyEdges.mpr ⟨⟨h, ?_⟩, hready⟩) (hg h p hh).1
      rw [(applyAddNode_rest g nid ty st lb ps e.clock).2]
      exact hh
    · exact hsame (fun i => by rw [htypes]; simp [hv]) hpend
  | addEdge eid ty src tgt ps =>
    simp only [hpay] at htypes hpend
    split at hpend <;> rename_i hh
    · intro h p hp
      rw [hpend, HashMap.getElem?_insert] at hp
      rw [isReady_congr htypes]
      split at hp
      · rename_i heq
        obtain rfl := Option.some.inj hp
        refine ⟨heq, ?_⟩
        by_contra hready
        obtain ⟨id', ty', src', tgt', ps', hpay', hs, ht'⟩ :=
          isReady_iff.mp ((Bool.not_eq_false _).mp hready)
        rw [hpay] at hpay'
        injection hpay' with _ _ h1 h2 _
        subst h1 h2
        have hmiss := (Bool.and_eq_true_iff.mp hh).2
        simp [Option.isNone_eq_false_iff.mpr hs, Option.isNone_eq_false_iff.mpr ht'] at hmiss
      · exact hg h p hp
    · exact hsame htypes hpend
  | _ =>
    simp only [hpay] at htypes hpend
    exact hsame htypes hpend

/-- An entry that adds no type and holds no other edge leaves a twin. -/
theorem Settled.twin_applyInner (hg : g.Settled) (σ : HashOrder) (he : e.Ordinary)
    (mode : ValidationMode) (adopt : Bool)
    (hnode : ∀ id ty st lb ps, e.payload = .addNode id ty st lb ps →
      (g.ontology.validateNodeMode ty st ps mode).isOk → (g.typeOf id).isSome)
    (hedge : ∀ id ty src tgt ps, e.payload = .addEdge id ty src tgt ps →
      g.holdsEdge ty src tgt → g.pendingEdges[e.hash]? = some e) :
    Twin (g.applyInner σ e mode adopt) g := by
  obtain ⟨h1, h2, h3⟩ := applyInner_frame g σ he mode adopt
  refine ⟨h1, ?_, fun i => ?_⟩
  · rw [h3]
    split <;> rename_i hpay
    · rename_i id ty st lb ps
      split <;> rename_i hv
      · -- the node was there, so nothing becomes ready
        have hnil : (g.applyAddNode id ty st lb ps e.clock).readyEdges σ = [] := by
          refine List.eq_nil_iff_forall_not_mem.mpr fun p hp => ?_
          obtain ⟨⟨h, hh⟩, hready⟩ := mem_readyEdges.mp hp
          rw [(applyAddNode_rest g id ty st lb ps e.clock).2] at hh
          rw [isReady_congr fun i => ?_, (hg h p hh).2] at hready
          · cases hready
          · rw [typeOf_applyAddNode]
            split
            · rename_i heq
              subst heq
              obtain ⟨t, ht⟩ := Option.isSome_iff_exists.mp (hnode id ty st lb ps hpay hv)
              rw [ht, Option.getD_some]
            · rfl
        rw [hnil]
        rfl
      · rfl
    · rename_i id ty src tgt ps
      split <;> rename_i hh
      · refine Std.ExtTreeMap.ext_getElem? fun {k} => ?_
        rw [HashMap.getElem?_insert]
        split
        · rename_i heq
          rw [← heq, hedge id ty src tgt ps hpay hh]
        · rfl
      · rfl
    · rfl
  · rw [h2]
    split <;> rename_i hpay
    · rename_i id ty st lb ps
      split <;> rename_i hv
      · obtain ⟨hv, rfl⟩ := hv
        obtain ⟨t, ht⟩ := Option.isSome_iff_exists.mp (hnode id ty st lb ps hpay hv)
        rw [ht, Option.getD_some]
      · rfl
    · rfl

end MaterializedGraph

end SilkGraph
