import SilkGraph.Graph.Reflects

/-!
# The entries about one node or one edge

The arms of `apply` for nodes and for edges follow one pattern, and what is said about them is
said of both: an entry is about a node or an edge if it adds it, removes it or updates a
property of its identifier. Such an entry is one step of the slot of that identifier
(`node_apply`, `slot_apply_edge`), as long as adds are accepted; and it does not change which
adds are (`accepts_apply`).
-/

namespace SilkGraph

/-- The two kinds of entities of a graph. -/
inductive EntityKind where
  | node
  | edge
  deriving DecidableEq

namespace GraphOp

/-- The operation adds the entity. -/
def adds : EntityKind → String → GraphOp → Bool
  | .node, id, .addNode nodeId .. => nodeId = id
  | .edge, id, .addEdge edgeId .. => edgeId = id
  | _, _, _ => false

/-- The operation removes the entity. -/
def removes : EntityKind → String → GraphOp → Bool
  | .node, id, .removeNode nodeId => nodeId = id
  | .edge, id, .removeEdge edgeId => edgeId = id
  | _, _, _ => false

/-- The operation updates a property of the identifier. -/
def updates (id : String) : GraphOp → Bool
  | .updateProperty entityId .. => entityId = id
  | _ => false

/-- The operation is about the entity. -/
def concerns (kind : EntityKind) (id : String) (op : GraphOp) : Bool :=
  op.adds kind id || op.removes kind id || op.updates id

variable {kind : EntityKind} {id : String} {op : GraphOp}

/-- What is about an entity, case by case. -/
theorem concerns_cases (h : op.concerns kind id = true) :
    (kind = .node ∧ ∃ ty st lb ps, op = .addNode id ty st lb ps) ∨
    (kind = .edge ∧ ∃ ty src tgt ps, op = .addEdge id ty src tgt ps) ∨
    (kind = .node ∧ op = .removeNode id) ∨ (kind = .edge ∧ op = .removeEdge id) ∨
    ∃ k v, op = .updateProperty id k v := by
  cases op <;> cases kind <;> simp_all [concerns, adds, removes, updates]

theorem adds_iff : op.adds kind id = true ↔
    (kind = .node ∧ ∃ ty st lb ps, op = .addNode id ty st lb ps) ∨
    (kind = .edge ∧ ∃ ty src tgt ps, op = .addEdge id ty src tgt ps) := by
  cases op <;> cases kind <;> simp [adds]

end GraphOp

theorem Entry.ordinary_of_concerns {e : Entry} {kind : EntityKind} {id : String}
    (h : e.payload.concerns kind id = true) : e.Ordinary := by
  obtain ⟨-, ty, st, lb, ps, hp⟩ | ⟨-, ty, src, tgt, ps, hp⟩ | ⟨-, hp⟩ | ⟨-, hp⟩ | ⟨k, v, hp⟩ :=
    GraphOp.concerns_cases h <;> exact ⟨by rw [hp]; rfl, by rw [hp]; rfl⟩

namespace MaterializedGraph

variable [Crates] {g : MaterializedGraph} {σ : HashOrder} {e a : Entry} {kind : EntityKind}
  {id : String} {ev : Event}

/-- The events of an entry about an entity, without the edges it completes. -/
theorem ownEvents_of_concerns (hc : e.payload.concerns kind id = true)
    (hv : e.payload.adds kind id = true → g.accepts .full e.payload = true) :
    ∃ ev, e.event = some (id, ev) ∧ g.ownEvents .full e = [(id, ev)] := by
  obtain ⟨rfl, ty, st, lb, ps, hp⟩ | ⟨rfl, ty, src, tgt, ps, hp⟩ | ⟨rfl, hp⟩ | ⟨rfl, hp⟩ | ⟨k, v, hp⟩ :=
    GraphOp.concerns_cases hc
  · have hok := hv (GraphOp.adds_iff.mpr (.inl ⟨rfl, ty, st, lb, ps, hp⟩))
    rw [hp, accepts] at hok
    exact ⟨_, by rw [Entry.event, hp], by simp only [ownEvents, hp]; rw [if_pos hok]⟩
  · have hok := hv (GraphOp.adds_iff.mpr (.inr ⟨rfl, ty, src, tgt, ps, hp⟩))
    rw [hp, accepts] at hok
    exact ⟨_, by rw [Entry.event, hp], by simp only [ownEvents, edgeEvents, hp]; rw [if_pos hok]⟩
  all_goals exact ⟨_, by rw [Entry.event, hp], by simp only [ownEvents, hp]⟩

/-- The edges that an entry completes leave every node as it is. -/
theorem node_play_edges (o : Ontology) (sl : Slot) (l : List Entry) :
    (sl.play o id (eventsAt id (l.flatMap (g.edgeEvents .full)))).node = sl.node := by
  induction l generalizing sl with
  | nil => rfl
  | cons p l ih =>
    rw [List.flatMap_cons, eventsAt_append, Slot.play_append, ih, edgeEvents]
    split
    · split
      · rw [eventsAt_cons]
        split <;> rfl
      · rfl
    · rfl

/-- **Step, on nodes.** An entry about a node is one step of its slot. -/
theorem node_apply (hc : e.payload.concerns .node id = true)
    (hv : e.payload.adds .node id = true → g.accepts .full e.payload = true)
    (hev : e.event = some (id, ev)) :
    ((g.apply σ e).slot id).node = ((g.slot id).step g.ontology id ev).node := by
  obtain ⟨ev', hev', hown⟩ := ownEvents_of_concerns hc hv
  obtain rfl : ev = ev' := (Prod.mk.inj (Option.some.inj (hev.symm.trans hev'))).2
  rw [apply, slot_applyInner g σ (Entry.ordinary_of_concerns hc), events_eq, hown, eventsAt_append,
    Slot.play_append, node_play_edges, eventsAt_cons, if_pos rfl]
  rfl

/-- **Step, on edges.** An entry about an edge is one step of its slot. -/
theorem slot_apply_edge (hc : e.payload.concerns .edge id = true)
    (hv : e.payload.adds .edge id = true → g.accepts .full e.payload = true)
    (hev : e.event = some (id, ev)) :
    (g.apply σ e).slot id = (g.slot id).step g.ontology id ev := by
  obtain ⟨ev', hev', hown⟩ := ownEvents_of_concerns hc hv
  obtain rfl : ev = ev' := (Prod.mk.inj (Option.some.inj (hev.symm.trans hev'))).2
  have hnone : g.retried σ .full e = [] := by
    obtain ⟨hk, -⟩ | ⟨-, ty, src, tgt, ps, hp⟩ | ⟨hk, -⟩ | ⟨-, hp⟩ | ⟨k, v, hp⟩ :=
      GraphOp.concerns_cases hc
    · cases hk
    · simp only [retried, hp]
    · cases hk
    all_goals simp only [retried, hp]
  rw [apply, slot_applyInner g σ (Entry.ordinary_of_concerns hc), events_eq, hown, hnone,
    List.flatMap_nil, List.append_nil, eventsAt_cons, if_pos rfl]
  rfl

/-- No entry about an entity changes the ontology, nor one about an edge a type of a node. -/
theorem types_apply (hc : e.payload.concerns kind id = true) :
    (g.apply σ e).ontology = g.ontology ∧
      (kind = .edge → ∀ i, (g.apply σ e).typeOf i = g.typeOf i) := by
  obtain ⟨honto, htypes, -⟩ := applyInner_frame g σ (Entry.ordinary_of_concerns hc) .full true
  refine ⟨honto, fun hk i => ?_⟩
  subst hk
  rw [apply, htypes]
  obtain ⟨hk, -⟩ | ⟨-, ty, src, tgt, ps, hp⟩ | ⟨hk, -⟩ | ⟨-, hp⟩ | ⟨k, v, hp⟩ :=
    GraphOp.concerns_cases hc
  · cases hk
  · simp only [hp]
  · cases hk
  all_goals simp only [hp]

/-- Which adds of an entity are accepted does not change along the entries about it. -/
theorem accepts_apply (hc : e.payload.concerns kind id = true) (ha : a.payload.adds kind id = true) :
    (g.apply σ e).accepts .full a.payload = g.accepts .full a.payload := by
  obtain ⟨honto, htypes⟩ := @types_apply _ g σ e kind id hc
  obtain ⟨rfl, ty, st, lb, ps, hp⟩ | ⟨rfl, ty, src, tgt, ps, hp⟩ := GraphOp.adds_iff.mp ha
  · rw [hp, accepts, accepts, honto]
  · rw [hp, accepts, accepts, acceptsEdge, acceptsEdge, honto, htypes rfl, htypes rfl]

end MaterializedGraph

end SilkGraph
