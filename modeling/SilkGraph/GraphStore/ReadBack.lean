import SilkGraph.Graph.Quarantine
import SilkGraph.GraphStore.Calls
import SilkGraph.GraphStore.MergeLog

/-!
# Reading back a local write

A local write is checked against the live graph and applied to the materialized one, which
also holds what was removed, and it merges into whatever the identifier already is. So a
write that returns need not be seen. `accepted_is_visible` says when it is: the graph takes
the entry, and what is there under the identifier, if anything is, has the given type and is
older than the write, or says the same already.
-/

namespace SilkGraph

namespace Sample

/-- Persons, and robots with a serial number, who may know each other. -/
def fleet : Ontology where
  nodeTypes := ((∅ : BTreeMap String NodeTypeDef).insert "person" { }).insert "robot"
    { properties := (∅ : BTreeMap String PropertyDef).insert "serial" ⟨.string, true, none, none⟩ }
  edgeTypes := (∅ : BTreeMap String EdgeTypeDef).insert "knows"
    { sourceTypes := ["person", "robot"], targetTypes := ["person", "robot"] }

end Sample

namespace PropertyTable

variable {t : PropertyTable} {ps : BTreeMap String Value} {k : String} {v : Value}
  {c : HybridClock}

/-- A write shows: it is later than what is under the key, or the value is there already. -/
def Shows (t : PropertyTable) (k : String) (v : Value) (c : HybridClock) : Prop :=
  (∀ c' ∈ t.clocks[k]?, c' < c) ∨ t.properties[k]? = some v

theorem writeCell_fst_iff {p : Cell} :
    (writeCell p v c).1 = some v ↔ (∀ c' ∈ p.2, c' < c) ∨ p.1 = some v := by
  rw [writeCell]
  split
  · rename_i h
    exact ⟨fun _ => .inl h, fun _ => rfl⟩
  · rename_i h
    exact ⟨.inr, fun hor => hor.resolve_left h⟩

theorem getElem?_write_iff : (t.write k v c).properties[k]? = some v ↔ t.Shows k v c := by
  have hcell : (t.write k v c).properties[k]? = ((t.write k v c).cell k).1 := rfl
  rw [hcell, cell_write, if_pos rfl, writeCell_fst_iff]
  rfl

theorem getElem?_mergeLww_iff (hk : ps[k]? = some v) :
    (t.mergeLww ps c).properties[k]? = some v ↔ t.Shows k v c := by
  have hcell : (t.mergeLww ps c).properties[k]? = ((t.mergeLww ps c).cell k).1 := rfl
  rw [hcell, cell_mergeLww, hk]
  exact writeCell_fst_iff

end PropertyTable

section Entities

variable {nd : Node} {ed : Edge} {ty src tgt lb : String} {st : Option String}
  {ps : BTreeMap String Value} {c : HybridClock}

/-- The node is what an `AddNode` gives: live, with type, subtype, label and properties. -/
structure Node.Is (nd : Node) (ty : String) (st : Option String) (lb : String)
    (ps : BTreeMap String Value) : Prop where
  live : nd.tombstoned = false
  nodeType : nd.nodeType = ty
  subtype : nd.subtype = st
  label : nd.label = lb
  properties : ∀ (k : String) (v : Value), ps[k]? = some v → nd.properties[k]? = some v

/-- The edge is what an `AddEdge` gives: live, with type, endpoints and properties. -/
structure Edge.Is (ed : Edge) (ty src tgt : String) (ps : BTreeMap String Value) : Prop where
  live : ed.tombstoned = false
  edgeType : ed.edgeType = ty
  sourceId : ed.sourceId = src
  targetId : ed.targetId = tgt
  properties : ∀ (k : String) (v : Value), ps[k]? = some v → ed.properties[k]? = some v

/-- An `AddNode` at the clock shows on the node: the type is the same, and the rest is
older or says the same. -/
def Node.Shows (nd : Node) (ty : String) (st : Option String) (lb : String)
    (ps : BTreeMap String Value) (c : HybridClock) : Prop :=
  nd.nodeType = ty ∧ (nd.lastClock < c ∨ nd.subtype = st ∧ nd.label = lb) ∧
    ∀ (k : String) (v : Value), ps[k]? = some v → nd.table.Shows k v c

/-- An `AddEdge` at the clock shows on the edge. -/
def Edge.Shows (ed : Edge) (ty src tgt : String) (ps : BTreeMap String Value) (c : HybridClock) :
    Prop :=
  ed.edgeType = ty ∧ ed.sourceId = src ∧ ed.targetId = tgt ∧
    ∀ (k : String) (v : Value), ps[k]? = some v → ed.table.Shows k v c

theorem Node.create_is (id : String) : (Node.create id ty st lb ps c).Is ty st lb ps :=
  ⟨rfl, rfl, rfl, rfl, fun _ _ hk => hk⟩

theorem Edge.create_is (id : String) : (Edge.create id ty src tgt ps c).Is ty src tgt ps :=
  ⟨rfl, rfl, rfl, rfl, fun _ _ hk => hk⟩

theorem Node.readd_is_iff : (nd.readd st lb ps c).Is ty st lb ps ↔ nd.Shows ty st lb ps c := by
  have hprops : (∀ (k : String) (v : Value), ps[k]? = some v →
      (nd.readd st lb ps c).properties[k]? = some v) ↔
      ∀ (k : String) (v : Value), ps[k]? = some v → nd.table.Shows k v c :=
    forall_congr' fun k => forall_congr' fun v => imp_congr_right fun hk =>
      PropertyTable.getElem?_mergeLww_iff hk
  constructor
  · rintro ⟨-, hty, hst, hlb, hps⟩
    rw [Node.readd_subtype] at hst
    rw [Node.readd_label] at hlb
    refine ⟨hty, ?_, hprops.mp hps⟩
    by_cases hlt : nd.lastClock < c
    · exact .inl hlt
    · rw [if_neg hlt] at hst hlb
      exact .inr ⟨hst, hlb⟩
  · rintro ⟨hty, hlast, hps⟩
    refine ⟨rfl, hty, ?_, ?_, hprops.mpr hps⟩
    · rw [Node.readd_subtype]
      obtain hlt | ⟨hst, -⟩ := hlast
      · rw [if_pos hlt]
      · rw [hst, ite_self]
    · rw [Node.readd_label]
      obtain hlt | ⟨-, hlb⟩ := hlast
      · rw [if_pos hlt]
      · rw [hlb, ite_self]

theorem Edge.readd_is_iff : (ed.readd ps c).Is ty src tgt ps ↔ ed.Shows ty src tgt ps c := by
  have hprops : (∀ (k : String) (v : Value), ps[k]? = some v →
      (ed.readd ps c).properties[k]? = some v) ↔
      ∀ (k : String) (v : Value), ps[k]? = some v → ed.table.Shows k v c :=
    forall_congr' fun k => forall_congr' fun v => imp_congr_right fun hk =>
      PropertyTable.getElem?_mergeLww_iff hk
  exact ⟨fun ⟨_, hty, hsrc, htgt, hps⟩ => ⟨hty, hsrc, htgt, hprops.mp hps⟩,
    fun ⟨hty, hsrc, htgt, hps⟩ => ⟨rfl, hty, hsrc, htgt, hprops.mpr hps⟩⟩

end Entities

namespace MaterializedGraph

section Reads

variable {g : MaterializedGraph} {id : String} {nd : Node} {ed : Edge}

theorem exists_getNode_is_iff {ty lb : String} {st : Option String} {ps : BTreeMap String Value}
    (hn : g.nodes[id]? = some nd) :
    (∃ n, g.getNode id = some n ∧ n.Is ty st lb ps) ↔ nd.Is ty st lb ps := by
  constructor
  · rintro ⟨n, hget, his⟩
    obtain rfl := Option.some.inj (hn.symm.trans (getNode_eq_some_iff.mp hget).1)
    exact his
  · exact fun his => ⟨nd, getNode_eq_some_iff.mpr ⟨hn, his.live⟩, his⟩

theorem exists_getEdge_is_iff {ty src tgt : String} {ps : BTreeMap String Value}
    (he : g.edges[id]? = some ed) :
    (∃ n, g.getEdge id = some n ∧ n.Is ty src tgt ps) ↔ ed.Is ty src tgt ps := by
  constructor
  · rintro ⟨n, hget, his⟩
    obtain rfl := Option.some.inj (he.symm.trans (getEdge_eq_some_iff.mp hget).1)
    exact his
  · exact fun his => ⟨ed, getEdge_eq_some_iff.mpr ⟨he, his.live⟩, his⟩

end Reads

variable [Crates] {g : MaterializedGraph} {σ : HashOrder} {e : Entry} {h : Hash}

/-! ### The three writes -/

variable {id ty src tgt lb k : String} {st : Option String} {ps : BTreeMap String Value} {v : Value}

/-- An `AddNode` the ontology accepts makes or merges the node; one it does not is
quarantined. No held edge of the same hash can bring it back into quarantine. -/
theorem apply_addNode (hp : e.payload = .addNode id ty st lb ps)
    (hfresh : ∀ (h : Hash) (p : Entry), g.pendingEdges[h]? = some p → p.hash ≠ e.hash) :
    (e.hash ∉ (g.apply σ e).quarantined ↔ (g.ontology.validateNode ty st ps).isOk) ∧
    ((g.ontology.validateNode ty st ps).isOk → (g.apply σ e).nodes[id]? =
      some (match g.nodes[id]? with
        | some nd => nd.readd st lb ps e.clock
        | none => Node.create id ty st lb ps e.clock)) := by
  have happ : g.apply σ e = g.addNodeArm σ e .full id ty st lb ps := by
    simp only [apply, applyInner, hp, applyPayload]
  rw [happ, Ontology.validateNode]
  obtain ⟨hv, r, heq⟩ | ⟨hv, heq⟩ := addNodeArm_spec g σ e .full id ty st lb ps
  · rw [heq, hv]
    exact ⟨⟨fun hnot => absurd (mem_quarantine ..) hnot, fun h => by cases h⟩, fun h => by cases h⟩
  · set g₁ := (g.release e.hash).applyAddNode id ty st lb ps e.clock with hg₁
    have hpend : g₁.pendingEdges = g.pendingEdges := (applyAddNode_rest ..).2
    have hready : ∀ p ∈ g₁.readyEdges σ, p.hash ≠ e.hash := fun p hp => by
      obtain ⟨⟨h, hh⟩, -⟩ := mem_readyEdges.mp hp
      exact hfresh h p (hpend ▸ hh)
    rw [heq, hv]
    refine ⟨⟨fun _ => rfl, fun _ => ?_⟩, fun _ => ?_⟩
    · rw [mem_quarantined_foldl_retryEdge_of_ne (fun p hp => (mem_readyEdges.mp hp).2) hready, hg₁,
        quarantined_applyAddNode]
      exact not_mem_release g e.hash
    · rw [(foldl_retryEdge_spec (g₁.readyEdges σ) g₁ fun p hp => (mem_readyEdges.mp hp).2).1, hg₁,
        applyAddNode]
      have hnodes : (g.release e.hash).nodes = g.nodes := rfl
      rw [hnodes]
      cases g.nodes[id]? <;> simp

/-- An `AddEdge` the graph accepts makes or merges the edge; one it does not is quarantined. -/
theorem apply_addEdge (hp : e.payload = .addEdge id ty src tgt ps) :
    (e.hash ∉ (g.apply σ e).quarantined ↔ g.acceptsEdge .full ty src tgt ps) ∧
    (g.acceptsEdge .full ty src tgt ps → (g.apply σ e).edges[id]? =
      some (match g.edges[id]? with
        | some ed => ed.readd ps e.clock
        | none => Edge.create id ty src tgt ps e.clock)) := by
  have happ : g.apply σ e = g.addEdgeArm e .full id ty src tgt ps := by
    simp only [apply, applyInner, hp, applyPayload]
  rw [happ]
  obtain ⟨ha, -, heq⟩ | ⟨ha, -, r, heq⟩ | ⟨ha, -, r, heq⟩ :=
    addEdgeArm_cases g e .full id ty src tgt ps
  · rw [heq, ha]
    refine ⟨⟨fun _ => rfl, fun _ => ?_⟩, fun _ => ?_⟩
    · rw [quarantined_applyAddEdge]
      exact not_mem_release g e.hash
    · rw [applyAddEdge]
      have hedges : (g.release e.hash).edges = g.edges := rfl
      rw [hedges]
      cases g.edges[id]? <;> simp
  all_goals
    rw [heq, ha]
    exact ⟨⟨fun hnot => absurd (mem_quarantine ..) hnot, fun h => by cases h⟩, fun h => by cases h⟩

/-- An `UpdateProperty` the graph accepts goes to the node of that identifier, removed or not,
and to the edge only if there is no node. -/
theorem apply_updateProperty (hp : e.payload = .updateProperty id k v) :
    (e.hash ∉ (g.apply σ e).quarantined ↔ (g.slot id).accepts g.ontology k v) ∧
    ((g.slot id).accepts g.ontology k v → (g.apply σ e).slot id =
      match g.nodes[id]? with
      | some nd => ⟨some (nd.update k v e.clock), g.edges[id]?⟩
      | none => ⟨none, g.edges[id]?.map fun ed => ed.update k v e.clock⟩) := by
  have happ : g.apply σ e = g.updatePropertyArm e id k v := by
    simp only [apply, applyInner, hp, applyPayload]
  have hverdict := isOk_updateVerdict g id k v
  rw [happ]
  constructor
  · rw [← hverdict, updatePropertyArm]
    cases g.updateVerdict id k v with
    | error err => exact ⟨fun hnot => absurd (mem_quarantine ..) hnot, fun h => by cases h⟩
    | ok u =>
      refine ⟨fun _ => rfl, fun _ => ?_⟩
      rw [quarantined_applyUpdateProperty]
      exact not_mem_release g e.hash
  · intro ha
    rw [slot_updatePropertyArm, if_pos rfl, Slot.step, if_pos ha, slot]
    cases g.nodes[id]? <;> rfl

end MaterializedGraph

namespace PyGraphStore

open MaterializedGraph

section

variable [Crates]

/-- What `add_node` promises: the entry is not quarantined, and the node is read as given. -/
def ShowsNode (self : PyGraphStore) (hash : Hash) (nodeId nodeType label : String)
    (properties : BTreeMap String Value) (subtype : Option String) : Prop :=
  hash ∉ self.graph.quarantined ∧
    ∃ nd, self.graph.getNode nodeId = some nd ∧ nd.Is nodeType subtype label properties

/-- What `add_edge` promises. -/
def ShowsEdge (self : PyGraphStore) (hash : Hash) (edgeId edgeType sourceId targetId : String)
    (properties : BTreeMap String Value) : Prop :=
  hash ∉ self.graph.quarantined ∧
    ∃ ed, self.graph.getEdge edgeId = some ed ∧ ed.Is edgeType sourceId targetId properties

/-- What `update_property` promises about the live node of the identifier, or else the live
edge; about nothing, if there is neither. -/
def ShowsProperty (self : PyGraphStore) (hash : Hash) (entityId key : String) (value : Value) :
    Prop :=
  hash ∉ self.graph.quarantined ∧
    (∀ nd, self.graph.getNode entityId = some nd → nd.properties[key]? = some value) ∧
    (self.graph.getNode entityId = none → ∀ ed, self.graph.getEdge entityId = some ed →
      ed.properties[key]? = some value)

/-- No edge is held under the hash of the entry that is about to be written. -/
def FreshHash (self : PyGraphStore) (env : Env) (op : GraphOp) : Prop :=
  ∀ (h : Hash) (p : Entry), self.graph.pendingEdges[h]? = some p →
    p.hash ≠ (self.writtenEntry env op).hash

/-- When an added node shows: the graph's ontology accepts it, and on a node that is there,
live or removed, the write at the ticked clock shows. -/
def OpenToNode (self : PyGraphStore) (env : Env) (nodeId nodeType label : String)
    (properties : BTreeMap String Value) (subtype : Option String) : Prop :=
  (self.graph.ontology.validateNode nodeType subtype properties).isOk ∧
    ∀ nd, self.graph.nodes[nodeId]? = some nd →
      nd.Shows nodeType subtype label properties (self.clock.tick (env.wall 0))

/-- When an added edge shows: the graph accepts it between the nodes it has, and on an edge
that is there the write shows. -/
def OpenToEdge (self : PyGraphStore) (env : Env) (edgeId edgeType sourceId targetId : String)
    (properties : BTreeMap String Value) : Prop :=
  self.graph.acceptsEdge .full edgeType sourceId targetId properties ∧
    ∀ ed, self.graph.edges[edgeId]? = some ed →
      ed.Shows edgeType sourceId targetId properties (self.clock.tick (env.wall 0))

/-- When an updated property shows: the graph accepts the value for what it holds under the
identifier, the write is later than the one it meets, and if only the edge is live no
removed node takes the write in its place. -/
def OpenToProperty (self : PyGraphStore) (env : Env) (entityId key : String) (value : Value) :
    Prop :=
  (self.graph.slot entityId).accepts self.graph.ontology key value ∧
    (∀ nd, self.graph.getNode entityId = some nd →
      nd.table.Shows key value (self.clock.tick (env.wall 0))) ∧
    (self.graph.getNode entityId = none → ∀ ed, self.graph.getEdge entityId = some ed →
      self.graph.nodes[entityId]? = none ∧ ed.table.Shows key value (self.clock.tick (env.wall 0)) ∨
        ed.properties[key]? = some value)

variable {s s' : PyGraphStore} {env : Env} {hex : String}

theorem showsNode_iff {id ty lb : String} {st : Option String} {ps : BTreeMap String Value}
    (hfresh : s.FreshHash env (.addNode id ty st lb ps))
    (run : s.addNode env id ty lb ps st = (.ok hex, s')) :
    s'.ShowsNode (s.writtenEntry env (.addNode id ty st lb ps)).hash id ty lb ps st ↔
      s.OpenToNode env id ty lb ps st := by
  set e := s.writtenEntry env (.addNode id ty st lb ps) with he
  have hgraph : s'.graph = s.graph.apply env.order e := by
    obtain ⟨_, -, h⟩ | ⟨-, ⟨_, -, h⟩ | ⟨hex', hok, h⟩⟩ := s.addNode_cases env id ty lb ps st
    · rw [run] at h
      cases h
    · rw [run] at h
      cases h
    · rw [run] at h
      obtain ⟨-, -, happ⟩ := s.append_of_ok env (.addNode id ty st lb ps) (Prod.ext hok rfl)
      rw [(Prod.mk.inj h).2]
      exact congrArg graph happ
  obtain ⟨hq, hnode⟩ := @apply_addNode _ s.graph env.order e _ _ _ _ _
    (writtenEntry_payload ..) hfresh
  rw [ShowsNode, OpenToNode, hgraph, hq]
  refine and_congr_right fun hv => ?_
  rw [exists_getNode_is_iff (hnode hv), writtenEntry_clock]
  cases s.graph.nodes[id]? with
  | none => simp [Node.create_is]
  | some nd =>
    simp only [Option.some.injEq, forall_eq']
    exact Node.readd_is_iff

theorem showsEdge_iff {id ty src tgt : String} {ps : BTreeMap String Value}
    (run : s.addEdge env id ty src tgt ps = (.ok hex, s')) :
    s'.ShowsEdge (s.writtenEntry env (.addEdge id ty src tgt ps)).hash id ty src tgt ps ↔
      s.OpenToEdge env id ty src tgt ps := by
  set e := s.writtenEntry env (.addEdge id ty src tgt ps) with he
  have hgraph : s'.graph = s.graph.apply env.order e := by
    obtain ⟨_, h⟩ | ⟨_, _, -, -, -, h⟩ := s.addEdge_cases env id ty src tgt ps
    · rw [run] at h
      cases h
    · obtain ⟨-, -, happ⟩ := s.append_of_ok env (.addEdge id ty src tgt ps) (h ▸ run)
      rw [happ]
  obtain ⟨hq, hedge⟩ := @apply_addEdge _ s.graph env.order e _ _ _ _ _
    (writtenEntry_payload ..)
  rw [ShowsEdge, OpenToEdge, hgraph, hq]
  refine and_congr_right fun ha => ?_
  rw [exists_getEdge_is_iff (hedge ha), writtenEntry_clock]
  cases s.graph.edges[id]? with
  | none => simp [Edge.create_is]
  | some ed =>
    simp only [Option.some.injEq, forall_eq']
    exact Edge.readd_is_iff

theorem showsProperty_iff {id k : String} {v : Value}
    (run : s.updateProperty env id k v = (.ok hex, s')) :
    s'.ShowsProperty (s.writtenEntry env (.updateProperty id k v)).hash id k v ↔
      s.OpenToProperty env id k v := by
  set e := s.writtenEntry env (.updateProperty id k v) with he
  have hgraph : s'.graph = s.graph.apply env.order e := by
    rw [(s.append_of_ok env (.updateProperty id k v) run).2.2]
  obtain ⟨hq, hslot⟩ := @apply_updateProperty _ s.graph env.order e _ _ _
    (writtenEntry_payload ..)
  rw [ShowsProperty, OpenToProperty, hgraph, hq]
  refine and_congr_right fun ha => ?_
  specialize hslot ha
  rw [writtenEntry_clock] at hslot
  set c := s.clock.tick (env.wall 0)
  set g' := s.graph.apply env.order e
  cases hn : s.graph.nodes[id]? with
  | some nd =>
    -- the node takes the update, and whether it or the edge is live stays
    rw [hn] at hslot
    have hnode : g'.nodes[id]? = some (nd.update k v c) := congrArg Slot.node hslot
    have hedges : g'.edges[id]? = s.graph.edges[id]? := congrArg Slot.edge hslot
    have hedge : g'.getEdge id = s.graph.getEdge id := by rw [getEdge, getEdge, hedges]
    have hnone : g'.getNode id = none ↔ s.graph.getNode id = none := by
      simp [getNode, hnode, hn]
    refine and_congr ?_ (imp_congr hnone (forall_congr' fun ed => ?_))
    · simp only [getNode_eq_some_iff, hnode, hn, Option.some.injEq]
      constructor
      · rintro h _ ⟨rfl, hlive⟩
        exact PropertyTable.getElem?_write_iff.mp (h _ ⟨rfl, hlive⟩)
      · rintro h _ ⟨rfl, hlive⟩
        exact PropertyTable.getElem?_write_iff.mpr (h _ ⟨rfl, hlive⟩)
    · rw [hedge]
      simp
  | none =>
    rw [hn] at hslot
    have hnode : g'.nodes[id]? = none := congrArg Slot.node hslot
    have hedge : g'.edges[id]? = s.graph.edges[id]?.map fun ed => ed.update k v c :=
      congrArg Slot.edge hslot
    have hget : g'.getNode id = none ∧ s.graph.getNode id = none := by
      simp [getNode, hnode, hn]
    simp only [hget, getEdge_eq_some_iff, hedge, true_and, forall_const, reduceCtorEq,
      IsEmpty.forall_iff, implies_true, Option.map_eq_some_iff]
    constructor
    · rintro h ed ⟨hed, hlive⟩
      exact .inl (PropertyTable.getElem?_write_iff.mp (h _ ⟨⟨ed, hed, rfl⟩, hlive⟩))
    · rintro h _ ⟨⟨ed, hed, rfl⟩, hlive⟩
      refine PropertyTable.getElem?_write_iff.mpr ?_
      exact (h ed ⟨hed, hlive⟩).elim (fun h => h) .inr

/-- **Accepted is visible.** For every store, what a local write that returns promises holds
exactly if the store is open to the write. For `add_node`, as long as no edge is held under
the hash of the new entry. -/
theorem accepted_is_visible (s : PyGraphStore) (env : Env) :
    (∀ nodeId nodeType label properties subtype hex s',
      s.addNode env nodeId nodeType label properties subtype = (.ok hex, s') →
      let op := .addNode nodeId nodeType subtype label properties
      s.FreshHash env op →
      (s'.ShowsNode (s.writtenEntry env op).hash nodeId nodeType label properties subtype ↔
        s.OpenToNode env nodeId nodeType label properties subtype)) ∧
    (∀ edgeId edgeType sourceId targetId properties hex s',
      s.addEdge env edgeId edgeType sourceId targetId properties = (.ok hex, s') →
      let op := .addEdge edgeId edgeType sourceId targetId properties
      (s'.ShowsEdge (s.writtenEntry env op).hash edgeId edgeType sourceId targetId properties ↔
        s.OpenToEdge env edgeId edgeType sourceId targetId properties)) ∧
    ∀ entityId key value hex s', s.updateProperty env entityId key value = (.ok hex, s') →
      let op := .updateProperty entityId key value
      (s'.ShowsProperty (s.writtenEntry env op).hash entityId key value ↔
        s.OpenToProperty env entityId key value) :=
  ⟨fun _ _ _ _ _ _ _ run hfresh => showsNode_iff hfresh run, fun _ _ _ _ _ _ _ => showsEdge_iff,
    fun _ _ _ _ _ => showsProperty_iff⟩

end

open Sample in
/-- A new node in a new store. -/
theorem accepted_is_visible_new :
    let s := freshStore "ann" fleet
    let op : GraphOp := .addNode "a" "person" none "A" ∅
    ∃ hex s', s.addNode env "a" "person" "A" ∅ none = (.ok hex, s') ∧
      s'.ShowsNode (s.writtenEntry env op).hash "a" "person" "A" ∅ none := by
  intro s op
  obtain ⟨hex, run⟩ : ∃ hex, s.addNode env "a" "person" "A" ∅ none =
      (.ok hex, (s.addNode env "a" "person" "A" ∅ none).2) := by
    have hok : (s.addNode env "a" "person" "A" ∅ none).1.isOk := by decide +kernel
    generalize s.addNode env "a" "person" "A" ∅ none = r at hok
    obtain ⟨_ | hex, t⟩ := r
    · cases hok
    · exact ⟨hex, rfl⟩
  refine ⟨hex, _, run, ((accepted_is_visible s env).1 _ _ _ _ _ _ _ run fun h p hp => ?_).mpr ⟨?_, ?_⟩⟩
  · have hnone : s.graph.pendingEdges[h]? = none := Std.ExtTreeMap.getElem?_empty
    rw [hnone] at hp
    cases hp
  · decide +kernel
  · intro nd hnd
    have hnone : s.graph.nodes["a"]? = none := Std.ExtTreeMap.getElem?_empty
    rw [hnone] at hnd
    cases hnd

open Sample in
/-- Three writes that return and are not seen. A person added again as a robot stays a
person. An edge to a robot whose `AddNode` from a peer was quarantined is quarantined. And
where a removed node and a live edge share an identifier, an update goes to the node. -/
theorem accepted_and_not_visible :
    let s := ((freshStore "ann" fleet).exec env (.addNode "a" "person" "A" ∅ none)).2
    let robot := (∅ : BTreeMap String Value).insert "serial" (.string "1")
    let s₁ := (s.exec env (.addNode "a" "robot" "A" robot none)).2
    let unfit := Entry.new (.addNode "b" "robot" none "B" ∅)
      [(genesis env "ann" fleet).hash] [] ⟨"bob", 1, 0⟩ "bob"
    let s₂ := (s.exec env (.merge [unfit])).2
    let s₃ := (((s.exec env (.addNode "x" "person" "X" ∅ none)).2.exec env (.removeNode "x")).2.exec
      env (.addEdge "x" "knows" "a" "a" ∅)).2
    Reachable s₂ ∧ Reachable s₃ ∧
      ((s.exec env (.addNode "a" "robot" "A" robot none)).1 = .ok () ∧
        ∀ h, ¬ s₁.ShowsNode h "a" "robot" "A" robot none) ∧
      ((s₂.exec env (.addEdge "e" "knows" "a" "b" ∅)).1 = .ok () ∧
        ∀ h, ¬ (s₂.exec env (.addEdge "e" "knows" "a" "b" ∅)).2.ShowsEdge h "e" "knows" "a" "b" ∅) ∧
      ((s₃.exec env (.updateProperty "x" "k" (.int 1))).1 = .ok () ∧
        ∀ h, ¬ (s₃.exec env (.updateProperty "x" "k" (.int 1))).2.ShowsProperty h "x" "k" (.int 1)) := by
  intro s robot s₁ unfit s₂ s₃
  have hs : Reachable s := .call (reachable_freshStore (by decide +kernel)) env _
  refine ⟨.call hs env _, .call (.call (.call hs env _) env _) env _, ⟨?_, fun h hshow => ?_⟩,
    ⟨?_, fun h hshow => ?_⟩, ⟨?_, fun h hshow => ?_⟩⟩
  · decide +kernel
  · obtain ⟨-, nd, hnd, his⟩ := hshow
    have htype : (s₁.graph.getNode "a").map Node.nodeType = some "person" := by decide +kernel
    rw [hnd, Option.map_some, his.nodeType] at htype
    exact absurd (Option.some.inj htype) (by decide)
  · decide +kernel
  · obtain ⟨-, ed, hed, -⟩ := hshow
    have hnone : ((s₂.exec env (.addEdge "e" "knows" "a" "b" ∅)).2.graph.getEdge "e").isNone := by
      decide +kernel
    rw [hed] at hnone
    cases hnone
  · decide +kernel
  · obtain ⟨-, -, hedge⟩ := hshow
    set t := (s₃.exec env (.updateProperty "x" "k" (.int 1))).2 with ht
    have hlive : (t.graph.getNode "x").isNone ∧
        (t.graph.getEdge "x").map (fun ed => ed.properties.contains "k") = some false := by
      decide +kernel
    obtain ⟨ed, hed, hk⟩ := Option.map_eq_some_iff.mp hlive.2
    have hin := hedge (Option.isNone_iff_eq_none.mp hlive.1) ed hed
    rw [Std.ExtTreeMap.contains_eq_isSome_getElem?, hin] at hk
    cases hk

end PyGraphStore

end SilkGraph
