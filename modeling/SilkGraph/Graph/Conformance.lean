import SilkGraph.Graph.Schema
import SilkGraph.Graph.Slots
import SilkGraph.Ontology.Conformance

/-!
# Graphs that conform to their ontology

`ConformsUpTo` is the invariant: live nodes and edges have a declared type, their values fit
and what is required is there, or comes with an update that follows in the same checkpoint,
as compaction writes the properties of an entity after the entity. `OpFits` is the condition
on an operation in the graph it comes to, in the places where it is checked less than the
graph needs: a node that is added again, under another type or subtype, an update of a
property that only an ancestor declares, a required property in a checkpoint, and an ontology
that changes under a graph. `ConformsUpTo.applyPayload` is the step.
-/

namespace SilkGraph

namespace PropertyTable

/-- A key with a clock has a value. -/
def Clocked (t : PropertyTable) : Prop := ∀ k, k ∈ t.clocks → k ∈ t.properties

variable {t : PropertyTable} {k k' : String} {v w : Value} {c : HybridClock}
  {ps : BTreeMap String Value}

theorem clocked_iff : t.Clocked ↔ ∀ k, (t.cell k).2.isSome = true → (t.cell k).1.isSome = true := by
  simp only [Clocked, cell, Std.ExtTreeMap.mem_iff_isSome_getElem?]

theorem mem_iff_cell : k ∈ t.properties ↔ (t.cell k).1.isSome = true :=
  Std.ExtTreeMap.mem_iff_isSome_getElem?

theorem getElem?_eq_cell : t.properties[k]? = (t.cell k).1 := rfl

/-- A written cell has a value, if a clock comes with one. -/
theorem isSome_writeCell {p : Cell} (h : p.2.isSome = true → p.1.isSome = true) :
    (writeCell p v c).1.isSome = true := by
  rw [writeCell]
  split
  · rfl
  · rename_i hno
    push Not at hno
    obtain ⟨c', hc', -⟩ := hno
    exact h (Option.isSome_iff_exists.mpr ⟨c', hc'⟩)

theorem Clocked.write (h : t.Clocked) : (t.write k v c).Clocked := by
  rw [clocked_iff] at h ⊢
  intro k' hk'
  rw [cell_write] at hk' ⊢
  split
  · exact isSome_writeCell (h k')
  · rename_i hne
    rw [if_neg hne] at hk'
    exact h k' hk'

theorem Clocked.mergeLww (h : t.Clocked) : (t.mergeLww ps c).Clocked := by
  rw [clocked_iff] at h ⊢
  intro k hk
  rw [cell_mergeLww] at hk ⊢
  cases hp : ps[k]? with
  | none =>
    rw [hp] at hk
    exact h k hk
  | some v => exact isSome_writeCell (h k)

theorem clocked_init : (init ps c).Clocked := by
  rw [init_eq]
  refine Clocked.mergeLww fun k hk => ?_
  exact absurd hk Std.ExtTreeMap.not_mem_empty

/-- A value after a write is the old one or the new one. -/
theorem value_write (h : (t.write k v c).properties[k']? = some w) :
    t.properties[k']? = some w ∨ k = k' ∧ v = w := by
  rw [getElem?_eq_cell, cell_write] at h
  split at h
  · rename_i hk
    rw [writeCell] at h
    split at h
    · exact .inr ⟨hk, Option.some.inj h⟩
    · exact .inl h
  · exact .inl h

theorem mem_write (h : t.Clocked) :
    k' ∈ (t.write k v c).properties ↔ k = k' ∨ k' ∈ t.properties := by
  rw [mem_iff_cell, mem_iff_cell, cell_write]
  split
  · rename_i hk
    exact iff_of_true (isSome_writeCell (clocked_iff.mp h k')) (.inl hk)
  · rename_i hk
    exact (or_iff_right hk).symm

theorem value_mergeLww (h : (t.mergeLww ps c).properties[k]? = some w) :
    t.properties[k]? = some w ∨ ps[k]? = some w := by
  rw [getElem?_eq_cell, cell_mergeLww] at h
  cases hp : ps[k]? with
  | none =>
    rw [hp] at h
    exact .inl h
  | some v =>
    rw [hp, mergeCell, writeCell] at h
    split at h
    · exact .inr h
    · exact .inl h

theorem mem_mergeLww (h : t.Clocked) :
    k ∈ (t.mergeLww ps c).properties ↔ k ∈ t.properties ∨ k ∈ ps := by
  rw [mem_iff_cell, mem_iff_cell, cell_mergeLww, Std.ExtTreeMap.mem_iff_isSome_getElem?]
  cases hp : ps[k]? with
  | none => simp [mergeCell]
  | some v => exact iff_of_true (isSome_writeCell (clocked_iff.mp h k)) (.inr rfl)

end PropertyTable

variable [Crates]

/-! ### One entity -/

section Entities

variable {typeName : String} {defs : BTreeMap String PropertyDef} {t : PropertyTable}
  {ps old : BTreeMap String Value} {owed owed' : String → Prop} {k : String} {v : Value}
  {c : HybridClock} {o : Ontology}

/-- What an entity has and what an operation brings both fit, and together they have what is
required. -/
structure ReaddFits (typeName : String) (defs : BTreeMap String PropertyDef)
    (old new : BTreeMap String Value) (owed : String → Prop) : Prop where
  oldFit : Fit typeName defs old
  newFit : Fit typeName defs new
  complete : Complete defs old fun k => k ∈ new ∨ owed k

theorem Fit.write (h : Fit typeName defs t.properties)
    (hv : ∀ p, defs[k]? = some p → (validateValue typeName k p v).isOk = true) :
    Fit typeName defs (t.write k v c).properties := fun k' p w hk hw => by
  obtain hold | ⟨rfl, rfl⟩ := PropertyTable.value_write hw
  · exact h k' p w hk hold
  · exact hv p hk

theorem ReaddFits.mergeLww (h : ReaddFits typeName defs t.properties ps owed) (ht : t.Clocked) :
    Fit typeName defs (t.mergeLww ps c).properties ∧
      Complete defs (t.mergeLww ps c).properties owed := by
  refine ⟨fun k p w hk hw => ?_, h.complete.mono fun k => ?_⟩
  · obtain hold | hnew := PropertyTable.value_mergeLww hw
    · exact h.oldFit k p w hk hold
    · exact h.newFit k p w hk hnew
  · rw [PropertyTable.mem_mergeLww ht]
    exact (or_assoc).mpr

/-- A node of declared type whose values fit, and that has what is required or is owed it. -/
structure Node.Conforms (nd : Node) (o : Ontology) (owed : String → Prop) : Prop where
  declared : nd.nodeType ∈ o.nodeTypes
  fit : Fit nd.nodeType (o.declaredProperties nd.nodeType nd.subtype) nd.properties
  complete : Complete (o.declaredProperties nd.nodeType nd.subtype) nd.properties owed

/-- An edge type that admits these endpoints. -/
def EdgeTypeDef.Admits (d : EdgeTypeDef) (o : Ontology) (src tgt : String) : Prop :=
  d.sourceTypes.any (fun t => o.isSubtypeOf src t) = true ∧
    d.targetTypes.any (fun t => o.isSubtypeOf tgt t) = true

/-- An edge of declared type that admits its endpoints, whose values fit, and that has what
is required or is owed it. -/
structure Edge.Conforms (ed : Edge) (o : Ontology) (src tgt : String) (owed : String → Prop) :
    Prop where
  declared : ∃ d, o.edgeTypes[ed.edgeType]? = some d ∧ d.Admits o src tgt ∧
    Fit ed.edgeType d.properties ed.properties ∧ Complete d.properties ed.properties owed

namespace Node

variable {nd : Node} {id ty lb : String} {st : Option String} {mode : ValidationMode}

theorem Conforms.mono (h : nd.Conforms o owed) (hle : ∀ k, owed k → k ∈ nd.properties ∨ owed' k) :
    nd.Conforms o owed' :=
  ⟨h.declared, h.fit, h.complete.mono fun k hk => hk.elim .inl (hle k)⟩

/-- A new node conforms, if what its validation left out is owed. -/
theorem conforms_create (hv : (o.validateNodeMode ty st ps mode).isOk = true)
    (hreq : mode = .full ∨ Complete (o.declaredProperties ty st) ps owed) :
    (create id ty st lb ps c).Conforms o owed := by
  obtain ⟨hty, hfull, hfit⟩ := Ontology.properties_of_validateNodeMode hv
  refine ⟨hty, hfit, ?_⟩
  obtain hmode | hreq := hreq
  · exact (hfull hmode).mono fun k hk => .inl (hk.resolve_right not_false)
  · exact hreq

/-- A node that is added again conforms if what it has and what it gets fit what it will be. -/
theorem conforms_readd (ht : nd.table.Clocked) (hty : nd.nodeType ∈ o.nodeTypes)
    (h : ReaddFits nd.nodeType (o.declaredProperties nd.nodeType (nd.readd st lb ps c).subtype)
      nd.properties ps owed) : (nd.readd st lb ps c).Conforms o owed := by
  have h : ReaddFits nd.nodeType (o.declaredProperties nd.nodeType (nd.readd st lb ps c).subtype)
    nd.table.properties ps owed := h
  obtain ⟨hfit, hreq⟩ := h.mergeLww (c := c) ht
  exact ⟨hty, hfit, hreq⟩

theorem Conforms.update (h : nd.Conforms o owed) (ht : nd.table.Clocked)
    (hv : ∀ p, (o.declaredProperties nd.nodeType nd.subtype)[k]? = some p →
      (validateValue nd.nodeType k p v).isOk = true)
    (hle : ∀ k', owed k' → k = k' ∨ owed' k') : (nd.update k v c).Conforms o owed' := by
  have hfit : Fit nd.nodeType (o.declaredProperties nd.nodeType nd.subtype) nd.table.properties := h.fit
  refine ⟨h.declared, hfit.write hv, h.complete.mono fun k' hk' => ?_⟩
  have hmem : k' ∈ (nd.update k v c).properties ↔ k = k' ∨ k' ∈ nd.properties :=
    PropertyTable.mem_write ht
  rw [hmem]
  obtain hin | ho := hk'
  · exact .inl (.inr hin)
  · exact (hle k' ho).imp_left .inl

end Node

namespace Edge

variable {ed : Edge} {id ty src tgt s t' : String} {mode : ValidationMode}

theorem Conforms.mono (h : ed.Conforms o s t' owed)
    (hle : ∀ k, owed k → k ∈ ed.properties ∨ owed' k) : ed.Conforms o s t' owed' := by
  obtain ⟨d, hd, hadm, hfit, hreq⟩ := h.declared
  exact ⟨d, hd, hadm, hfit, hreq.mono fun k hk => hk.elim .inl (hle k)⟩

theorem conforms_create (hv : (o.validateEdgeMode ty s t' ps mode).isOk = true)
    (hreq : mode = .full ∨ ∀ d, o.edgeTypes[ty]? = some d → Complete d.properties ps owed) :
    (create id ty src tgt ps c).Conforms o s t' owed := by
  obtain ⟨d, hd, hs, ht, hfull, hfit⟩ := Ontology.isOk_validateEdgeMode.mp hv
  refine ⟨d, hd, ⟨hs, ht⟩, hfit, ?_⟩
  obtain hmode | hreq := hreq
  · exact (hfull hmode).mono fun k hk => .inl (hk.resolve_right not_false)
  · exact hreq d hd

theorem conforms_readd (ht : ed.table.Clocked) {d : EdgeTypeDef}
    (hd : o.edgeTypes[ed.edgeType]? = some d) (hadm : d.Admits o s t')
    (h : ReaddFits ed.edgeType d.properties ed.properties ps owed) :
    (ed.readd ps c).Conforms o s t' owed := by
  have h : ReaddFits ed.edgeType d.properties ed.table.properties ps owed := h
  obtain ⟨hfit, hreq⟩ := h.mergeLww (c := c) ht
  exact ⟨d, hd, hadm, hfit, hreq⟩

theorem Conforms.update (h : ed.Conforms o s t' owed) (ht : ed.table.Clocked)
    (hv : (o.validateEdgePropertyUpdate ed.edgeType k v).isOk = true)
    (hle : ∀ k', owed k' → k = k' ∨ owed' k') : (ed.update k v c).Conforms o s t' owed' := by
  obtain ⟨d, hd, hadm, hfit, hreq⟩ := h.declared
  have hfit : Fit ed.edgeType d.properties ed.table.properties := hfit
  refine ⟨d, hd, hadm, hfit.write ((Ontology.isOk_validateEdgePropertyUpdate hd).mp hv),
    hreq.mono fun k' hk' => ?_⟩
  have hmem : k' ∈ (ed.update k v c).properties ↔ k = k' ∨ k' ∈ ed.properties :=
    PropertyTable.mem_write ht
  rw [hmem]
  obtain hin | ho := hk'
  · exact .inl (.inr hin)
  · exact (hle k' ho).imp_left .inl

end Edge

end Entities

/-! ### The graph -/

omit [Crates] in
/-- The operation can bring a node under the identifier. -/
def GraphOp.mayAddNode (id : String) : GraphOp → Bool
  | .addNode nodeId _ _ _ _ => nodeId == id
  | .checkpoint .. => true
  | _ => false

omit [Crates] in
/-- An update of the property is among the operations that follow. -/
def Comes (rest : List GraphOp) (id k : String) : Prop :=
  ∃ v, GraphOp.updateProperty id k v ∈ rest

omit [Crates] in
theorem Comes.tail {op : GraphOp} {rest : List GraphOp} {id k : String} (h : Comes (op :: rest) id k)
    (hop : ∀ v, op ≠ .updateProperty id k v) : Comes rest id k := by
  obtain ⟨v, hv⟩ := h
  exact ⟨v, (List.mem_cons.mp hv).resolve_left fun heq => hop v heq.symm⟩

namespace MaterializedGraph

variable {g g' : MaterializedGraph} {rest rest₀ : List GraphOp} {op : GraphOp}
  {id ty src tgt lb k : String} {st : Option String} {ps : BTreeMap String Value} {v : Value}
  {c : HybridClock} {mode : ValidationMode} {adopt : Bool} {e : Entry} {σ : HashOrder}

omit [Crates] in
/-- And it reaches the edge: no node has the identifier, or gets it. -/
def ComesToEdge (g : MaterializedGraph) (rest : List GraphOp) (id k : String) : Prop :=
  g.typeOf id = none ∧ (∀ op ∈ rest, op.mayAddNode id = false) ∧ Comes rest id k

omit [Crates] in
theorem ComesToEdge.tail (h : g.ComesToEdge (op :: rest) id k)
    (hop : ∀ v, op ≠ .updateProperty id k v) : g.ComesToEdge rest id k :=
  ⟨h.1, fun a ha => h.2.1 a (List.mem_cons_of_mem _ ha), h.2.2.tail hop⟩

/-- Every live node and every live edge conforms to the ontology of the graph, up to required
properties that the operations which follow bring. -/
structure ConformsUpTo (rest : List GraphOp) (g : MaterializedGraph) : Prop where
  nodes : ∀ (id : String) (nd : Node), g.nodes[id]? = some nd → nd.tombstoned = false →
    nd.Conforms g.ontology (Comes rest id)
  edges : ∀ (id : String) (ed : Edge), g.edges[id]? = some ed → ed.tombstoned = false →
    ∃ s t, g.typeOf ed.sourceId = some s ∧ g.typeOf ed.targetId = some t ∧
      ed.Conforms g.ontology s t (g.ComesToEdge rest id)
  clockedNodes : ∀ (id : String) (nd : Node), g.nodes[id]? = some nd → nd.table.Clocked
  clockedEdges : ∀ (id : String) (ed : Edge), g.edges[id]? = some ed → ed.table.Clocked

namespace ConformsUpTo

theorem congr (h : ConformsUpTo rest g) (hn : g'.nodes = g.nodes) (he : g'.edges = g.edges)
    (ho : g'.ontology = g.ontology) : ConformsUpTo rest g' := by
  have ht : g'.typeOf = g.typeOf := funext fun i => by rw [typeOf, typeOf, hn]
  have hc : g'.ComesToEdge rest = g.ComesToEdge rest := by
    unfold ComesToEdge
    rw [ht]
  constructor
  · intro i nd hi
    rw [ho]
    exact h.nodes i nd (hn ▸ hi)
  · intro i ed hi
    rw [ho, ht, hc]
    exact h.edges i ed (he ▸ hi)
  · exact fun i nd hi => h.clockedNodes i nd (hn ▸ hi)
  · exact fun i ed hi => h.clockedEdges i ed (he ▸ hi)

theorem mono (h : ConformsUpTo rest₀ g) (hn : ∀ i k, Comes rest₀ i k → Comes rest i k)
    (he : ∀ i k, g.ComesToEdge rest₀ i k → g.ComesToEdge rest i k) : ConformsUpTo rest g := by
  refine ⟨fun i nd hi hl => ?_, fun i ed hi hl => ?_, h.clockedNodes, h.clockedEdges⟩
  · exact (h.nodes i nd hi hl).mono fun k hk => .inr (hn i k hk)
  · obtain ⟨s, t, hs, ht, hc⟩ := h.edges i ed hi hl
    exact ⟨s, t, hs, ht, hc.mono fun k hk => .inr (he i k hk)⟩

/-- What is owed does not come with an operation that is no update. -/
theorem tail (h : ConformsUpTo (op :: rest) g) (hop : ∀ i k v, op ≠ .updateProperty i k v) :
    ConformsUpTo rest g :=
  h.mono (fun i k hk => hk.tail (hop i k)) fun i k hk => hk.tail (hop i k)

/-- Where nothing is owed, nothing has to come. -/
theorem ofNil (h : ConformsUpTo [] g) (rest : List GraphOp) : ConformsUpTo rest g :=
  h.mono (fun _ _ ⟨_, hv⟩ => by cases hv) fun _ _ ⟨_, _, _, hv⟩ => by cases hv

/-- A node is stored. Its type is the one it had, and no edge is owed anything under its
identifier. -/
theorem insertNode (h : ConformsUpTo rest₀ g) {nd' : Node}
    (hlive : nd'.tombstoned = false → nd'.Conforms g.ontology (Comes rest id))
    (hclock : nd'.table.Clocked) (htype : ∀ t ∈ g.typeOf id, nd'.nodeType = t)
    (hn : ∀ i k, i ≠ id → Comes rest₀ i k → Comes rest i k)
    (he : ∀ i k, g.ComesToEdge rest₀ i k → i ≠ id ∧ g.ComesToEdge rest i k) :
    ConformsUpTo rest { g with nodes := g.nodes.insert id nd' } := by
  have hget : ∀ i : String, ({ g with nodes := g.nodes.insert id nd' } : MaterializedGraph).nodes[i]? =
      if id = i then some nd' else g.nodes[i]? := fun i => HashMap.getElem?_insert
  have ht : ∀ i t, g.typeOf i = some t →
      ({ g with nodes := g.nodes.insert id nd' } : MaterializedGraph).typeOf i = some t := fun i t hi => by
    rw [typeOf, hget]
    split
    · rename_i heq
      subst heq
      rw [Option.map_some, htype t hi]
    · exact hi
  constructor
  · intro i nd hi hl
    rw [hget] at hi
    split at hi
    · rename_i heq
      obtain rfl := Option.some.inj hi
      subst heq
      exact hlive hl
    · rename_i hne
      exact (h.nodes i nd hi hl).mono fun k hk => .inr (hn i k (Ne.symm hne) hk)
  · intro i ed hi hl
    obtain ⟨s, t, hs, ht', hc⟩ := h.edges i ed hi hl
    refine ⟨s, t, ht _ _ hs, ht _ _ ht', hc.mono fun k hk => .inr ?_⟩
    obtain ⟨hne, hty, hno, hcomes⟩ := he i k hk
    refine ⟨?_, hno, hcomes⟩
    rw [typeOf, hget, if_neg (Ne.symm hne)]
    exact hty
  · intro i nd hi
    rw [hget] at hi
    split at hi
    · obtain rfl := Option.some.inj hi
      exact hclock
    · exact h.clockedNodes i nd hi
  · exact h.clockedEdges

/-- An edge is stored. -/
theorem insertEdge (h : ConformsUpTo rest₀ g) {ed' : Edge}
    (hlive : ed'.tombstoned = false → ∃ s t, g.typeOf ed'.sourceId = some s ∧
      g.typeOf ed'.targetId = some t ∧ ed'.Conforms g.ontology s t (g.ComesToEdge rest id))
    (hclock : ed'.table.Clocked)
    (hn : ∀ i k, (g.typeOf i).isSome = true → Comes rest₀ i k → Comes rest i k)
    (he : ∀ i k, i ≠ id → g.ComesToEdge rest₀ i k → g.ComesToEdge rest i k) :
    ConformsUpTo rest { g with edges := g.edges.insert id ed' } := by
  have hget : ∀ i : String, ({ g with edges := g.edges.insert id ed' } : MaterializedGraph).edges[i]? =
      if id = i then some ed' else g.edges[i]? := fun i => HashMap.getElem?_insert
  constructor
  · intro i nd hi hl
    refine (h.nodes i nd hi hl).mono fun k hk => .inr (hn i k ?_ hk)
    have hi : g.nodes[i]? = some nd := hi
    rw [typeOf, hi]
    rfl
  · intro i ed hi hl
    rw [hget] at hi
    split at hi
    · rename_i heq
      obtain rfl := Option.some.inj hi
      subst heq
      exact hlive hl
    · rename_i hne
      obtain ⟨s, t, hs, ht, hc⟩ := h.edges i ed hi hl
      exact ⟨s, t, hs, ht, hc.mono fun k hk => .inr (he i k (Ne.symm hne) hk)⟩
  · exact h.clockedNodes
  · intro i ed hi
    rw [hget] at hi
    split at hi
    · obtain rfl := Option.some.inj hi
      exact hclock
    · exact h.clockedEdges i ed hi

end ConformsUpTo

/-! ### The conditions -/

/-- An accepted `AddNode`: outside a checkpoint a new node has what is required; a node that
is there fits, with what is added, the type it has and the subtype it will have. -/
def NodeAddFits (rest : List GraphOp) (mode : ValidationMode) (g : MaterializedGraph)
    (nodeId nodeType : String) (subtype : Option String) (properties : BTreeMap String Value)
    (clock : HybridClock) : Prop :=
  match g.nodes[nodeId]? with
  | none =>
    mode = .full ∨ Complete (g.ontology.declaredProperties nodeType subtype) properties (Comes rest nodeId)
  | some nd =>
    nd.nodeType ∈ g.ontology.nodeTypes ∧
      ReaddFits nd.nodeType (g.ontology.declaredProperties nd.nodeType
        (if clockWins clock nd.lastClock then subtype else nd.subtype)) nd.properties properties
        (Comes rest nodeId)

/-- An accepted `AddEdge`: the same, for the type and the endpoints the edge has. -/
def EdgeAddFits (rest : List GraphOp) (mode : ValidationMode) (g : MaterializedGraph)
    (edgeId edgeType : String) (properties : BTreeMap String Value) : Prop :=
  match g.edges[edgeId]? with
  | none => mode = .full ∨ ∀ d, g.ontology.edgeTypes[edgeType]? = some d →
      Complete d.properties properties (g.ComesToEdge rest edgeId)
  | some ed => ∃ d s t, g.ontology.edgeTypes[ed.edgeType]? = some d ∧
      g.typeOf ed.sourceId = some s ∧ g.typeOf ed.targetId = some t ∧ d.Admits g.ontology s t ∧
      ReaddFits ed.edgeType d.properties ed.properties properties (g.ComesToEdge rest edgeId)

/-- An accepted update of a property of a live node that only an ancestor type declares has
a value that fits. An update inside a checkpoint is accepted. -/
def UpdateFits (mode : ValidationMode) (g : MaterializedGraph) (id k : String) (v : Value) : Prop :=
  ((g.slot id).accepts g.ontology k v = true → ∀ nd, g.getNode id = some nd →
    (g.ontology.ownProperties nd.nodeType nd.subtype)[k]? = none →
    ∀ p, (g.ontology.declaredProperties nd.nodeType nd.subtype)[k]? = some p →
      (validateValue nd.nodeType k p v).isOk = true) ∧
  (mode = .skipRequired → (g.slot id).accepts g.ontology k v = true)

/-- An `AddEdge` entry that is accepted meets its condition. -/
def EdgeEntryFits (rest : List GraphOp) (mode : ValidationMode) (g : MaterializedGraph)
    (e : Entry) : Prop :=
  match e.payload with
  | .addEdge edgeId edgeType sourceId targetId properties =>
    g.acceptsEdge mode edgeType sourceId targetId properties = true →
      EdgeAddFits rest mode g edgeId edgeType properties
  | _ => True

/-- So do the held edges that are retried. -/
def RetriesFit (rest : List GraphOp) : MaterializedGraph → List Entry → Prop
  | _, [] => True
  | g, p :: l => EdgeEntryFits rest .full g p ∧ RetriesFit rest (g.retryEdge p) l

mutual

/-- The condition on an operation, before others of the same checkpoint. -/
def OpFits (rest : List GraphOp) (σ : HashOrder) (mode : ValidationMode) (adopt : Bool) (e : Entry) :
    GraphOp → MaterializedGraph → Prop
  | .checkpoint ops opClocks _ _, g => OpsFit rest σ adopt e opClocks ops 0 g
  | .addNode nodeId nodeType subtype label properties, g =>
    (g.ontology.validateNodeMode nodeType subtype properties mode).isOk = true →
      NodeAddFits rest mode g nodeId nodeType subtype properties e.clock ∧
      let g₁ := (g.release e.hash).applyAddNode nodeId nodeType subtype label properties e.clock
      RetriesFit rest g₁ (g₁.readyEdges σ)
  | .addEdge edgeId edgeType sourceId targetId properties, g =>
    g.acceptsEdge mode edgeType sourceId targetId properties = true →
      EdgeAddFits rest mode g edgeId edgeType properties
  | .updateProperty entityId key value, g => UpdateFits mode g entityId key value
  | .extendOntology extension, g =>
    ConformsUpTo rest { g with ontology := (g.ontology.mergeExtension extension).2 }
  | _, _ => True

/-- The condition on the operations of a checkpoint from the `i`-th on. -/
def OpsFit (rest : List GraphOp) (σ : HashOrder) (adopt : Bool) (e : Entry)
    (opClocks : List (ℕ × ℕ)) : List GraphOp → ℕ → MaterializedGraph → Prop
  | [], _, _ => True
  | .defineOntology ontology :: ops, i, g =>
    (adopt = true → ConformsUpTo (ops ++ rest) { g with ontology }) ∧
    OpsFit rest σ adopt e opClocks ops (i + 1) (if adopt then { g with ontology } else g)
  | op :: ops, i, g =>
    OpFits (ops ++ rest) σ .skipRequired true
      (Entry.new op [] [] (opClock e opClocks i) e.author) op g ∧
    OpsFit rest σ adopt e opClocks ops (i + 1)
      (applyPayload σ .skipRequired true (Entry.new op [] [] (opClock e opClocks i) e.author) op g)

end

/-! ### The step -/

namespace ConformsUpTo

theorem applyAddNode (h : ConformsUpTo (.addNode id ty st lb ps :: rest) g)
    (hv : (g.ontology.validateNodeMode ty st ps mode).isOk = true)
    (hf : NodeAddFits rest mode g id ty st ps c) :
    ConformsUpTo rest (g.applyAddNode id ty st lb ps c) := by
  have hn : ∀ i k, i ≠ id → Comes (.addNode id ty st lb ps :: rest) i k → Comes rest i k :=
    fun i k _ hk => hk.tail fun v hop => by cases hop
  have he : ∀ i k, g.ComesToEdge (.addNode id ty st lb ps :: rest) i k →
      i ≠ id ∧ g.ComesToEdge rest i k := fun i k hk => by
    refine ⟨?_, hk.tail fun v hop => by cases hop⟩
    rintro rfl
    have hno := hk.2.1 _ List.mem_cons_self
    simp [GraphOp.mayAddNode] at hno
  rw [NodeAddFits] at hf
  rw [MaterializedGraph.applyAddNode]
  cases hnode : g.nodes[id]? with
  | none =>
    rw [hnode] at hf
    have h₁ : ConformsUpTo (.addNode id ty st lb ps :: rest)
        { g with byType := addToIndex g.byType ty id } := h.congr rfl rfl rfl
    have hget : g.typeOf id = none := by
      rw [typeOf, hnode]
      rfl
    refine h₁.insertNode (fun _ => Node.conforms_create hv hf) PropertyTable.clocked_init
      (fun t ht => ?_) hn he
    change t ∈ g.typeOf id at ht
    rw [hget] at ht
    cases ht
  | some nd =>
    rw [hnode] at hf
    have hclock := h.clockedNodes id nd hnode
    refine h.insertNode (fun _ => Node.conforms_readd hclock hf.1 hf.2) hclock.mergeLww
      (fun t ht => ?_) hn he
    rw [typeOf, hnode] at ht
    exact Option.some.inj ht

theorem applyAddEdge (h : ConformsUpTo rest g) (ha : g.acceptsEdge mode ty src tgt ps = true)
    (hf : EdgeAddFits rest mode g id ty ps) :
    ConformsUpTo rest (g.applyAddEdge id ty src tgt ps c) := by
  rw [EdgeAddFits] at hf
  rw [MaterializedGraph.applyAddEdge]
  cases hedge : g.edges[id]? with
  | none =>
    rw [hedge] at hf
    have h₁ : ConformsUpTo rest { g with
        outgoing := addToIndex g.outgoing src id
        incoming := addToIndex g.incoming tgt id } := h.congr rfl rfl rfl
    refine h₁.insertEdge (fun _ => ?_) PropertyTable.clocked_init (fun _ _ _ hk => hk)
      fun _ _ _ hk => hk
    rw [acceptsEdge, Bool.and_eq_true] at ha
    obtain ⟨-, ha⟩ := ha
    split at ha
    · rename_i s t hs ht
      exact ⟨s, t, hs, ht, Edge.conforms_create ha hf⟩
    · cases ha
  | some ed =>
    rw [hedge] at hf
    obtain ⟨d, s, t, hd, hs, ht, hadm, hfits⟩ := hf
    have hclock := h.clockedEdges id ed hedge
    exact h.insertEdge (fun _ => ⟨s, t, hs, ht, Edge.conforms_readd hclock hd hadm hfits⟩)
      hclock.mergeLww (fun _ _ _ hk => hk) fun _ _ _ hk => hk

theorem addEdgeArm (h : ConformsUpTo rest g) (e : Entry)
    (hf : g.acceptsEdge mode ty src tgt ps = true → EdgeAddFits rest mode g id ty ps) :
    ConformsUpTo rest (g.addEdgeArm e mode id ty src tgt ps) := by
  obtain ⟨ha, -, heq⟩ | ⟨-, -, r, heq⟩ | ⟨-, -, r, heq⟩ := addEdgeArm_cases g e mode id ty src tgt ps
  · have hr : ConformsUpTo rest (g.release e.hash) := h.congr rfl rfl rfl
    rw [heq]
    exact hr.applyAddEdge ha (hf ha)
  · rw [heq]
    exact h.congr rfl rfl rfl
  · rw [heq]
    exact h.congr rfl rfl rfl

theorem retryEdge (h : ConformsUpTo rest g) {p : Entry} (hf : EdgeEntryFits rest .full g p) :
    ConformsUpTo rest (g.retryEdge p) := by
  have hp : ConformsUpTo rest { g with pendingEdges := g.pendingEdges.erase p.hash } :=
    h.congr rfl rfl rfl
  rw [EdgeEntryFits] at hf
  rw [MaterializedGraph.retryEdge]
  split
  · rename_i hpay
    rw [hpay] at hf
    exact hp.addEdgeArm p hf
  · exact hp

theorem foldl_retryEdge {l : List Entry} (h : ConformsUpTo rest g) (hf : RetriesFit rest g l) :
    ConformsUpTo rest (l.foldl MaterializedGraph.retryEdge g) := by
  induction l generalizing g with
  | nil => exact h
  | cons p l ih => exact ih (h.retryEdge hf.1) hf.2

theorem addNodeArm (h : ConformsUpTo (.addNode id ty st lb ps :: rest) g) (σ : HashOrder) (e : Entry)
    (hf : OpFits rest σ mode adopt e (.addNode id ty st lb ps) g) :
    ConformsUpTo rest (g.addNodeArm σ e mode id ty st lb ps) := by
  obtain ⟨-, r, heq⟩ | ⟨hv, heq⟩ := addNodeArm_spec g σ e mode id ty st lb ps
  · rw [heq]
    exact (h.tail fun _ _ _ hop => by cases hop).congr rfl rfl rfl
  · rw [OpFits] at hf
    obtain ⟨hadd, hret⟩ := hf hv
    have hr : ConformsUpTo (.addNode id ty st lb ps :: rest) (g.release e.hash) :=
      h.congr rfl rfl rfl
    rw [heq]
    exact (hr.applyAddNode hv hadd).foldl_retryEdge hret

/-- An accepted update. -/
theorem applyUpdateProperty (h : ConformsUpTo (.updateProperty id k v :: rest) g)
    (ha : (g.slot id).accepts g.ontology k v = true) (hf : UpdateFits mode g id k v) :
    ConformsUpTo rest (g.applyUpdateProperty id k v c) := by
  have hhead : ∀ i k', Comes (.updateProperty id k v :: rest) i k' → (id = i ∧ k = k') ∨ Comes rest i k' :=
    fun i k' ⟨w, hw⟩ => by
      obtain heq | hin := List.mem_cons.mp hw
      · injection heq with h₁ h₂
        exact .inl ⟨h₁.symm, h₂.symm⟩
      · exact .inr ⟨w, hin⟩
  have hother : ∀ i k', i ≠ id → Comes (.updateProperty id k v :: rest) i k' → Comes rest i k' :=
    fun i k' hne hk => (hhead i k' hk).resolve_left fun heq => hne heq.1.symm
  have hotherEdge : ∀ i k', i ≠ id → g.ComesToEdge (.updateProperty id k v :: rest) i k' →
      g.ComesToEdge rest i k' := fun i k' hne hk =>
    ⟨hk.1, fun a ha => hk.2.1 a (List.mem_cons_of_mem _ ha), hother i k' hne hk.2.2⟩
  have haccepts := ha
  rw [Slot.accepts, slot] at ha
  rw [MaterializedGraph.applyUpdateProperty]
  cases hnode : g.nodes[id]? with
  | some nd =>
    rw [hnode] at ha
    have hty : g.typeOf id = some nd.nodeType := by
      rw [typeOf, hnode]
      rfl
    have hclock := h.clockedNodes id nd hnode
    refine h.insertNode (fun hl => ?_) hclock.write (fun t ht => ?_) hother fun i k' hk => ?_
    · have hold := h.nodes id nd hnode hl
      refine hold.update hclock (fun p hp => ?_) fun k' hk' => (hhead id k' hk').imp_left And.right
      exact Ontology.fits_of_update hold.declared ha
        (hf.1 haccepts nd (by
          rw [getNode, hnode]
          simpa using hl)) hp
    · exact Option.some.inj (hty.symm.trans ht)
    · have hne : i ≠ id := by
        rintro rfl
        rw [hk.1] at hty
        cases hty
      exact ⟨hne, hotherEdge i k' hne hk⟩
  | none =>
    have hno : g.typeOf id = none := by
      rw [typeOf, hnode]
      rfl
    have hnodes : ∀ i k', (g.typeOf i).isSome = true →
        Comes (.updateProperty id k v :: rest) i k' → Comes rest i k' := fun i k' hi hk =>
      hother i k' (fun heq => by simp [heq, hno] at hi) hk
    rw [hnode] at ha
    cases hedge : g.edges[id]? with
    | some ed =>
      rw [hedge] at ha
      have hclock := h.clockedEdges id ed hedge
      refine h.insertEdge (fun hl => ?_) hclock.write hnodes hotherEdge
      obtain ⟨s, t, hs, ht, hold⟩ := h.edges id ed hedge hl
      refine ⟨s, t, hs, ht, hold.update hclock ha fun k' hk' => ?_⟩
      exact (hhead id k' hk'.2.2).imp And.right fun hin =>
        ⟨hk'.1, fun a ha => hk'.2.1 a (List.mem_cons_of_mem _ ha), hin⟩
    | none =>
      -- the update concerns nothing that is there
      refine ⟨fun i nd hi hl => ?_, fun i ed hi hl => ?_, h.clockedNodes, h.clockedEdges⟩
      · refine (h.nodes i nd hi hl).mono fun k' hk' => .inr (hother i k' ?_ hk')
        rintro rfl
        rw [hnode] at hi
        cases hi
      · obtain ⟨s, t, hs, ht, hold⟩ := h.edges i ed hi hl
        refine ⟨s, t, hs, ht, hold.mono fun k' hk' => .inr (hotherEdge i k' ?_ hk')⟩
        rintro rfl
        rw [hedge] at hi
        cases hi

theorem updatePropertyArm (h : ConformsUpTo (.updateProperty id k v :: rest) g)
    (hfull : mode = .full → ConformsUpTo rest g) (hf : UpdateFits mode g id k v) (e : Entry) :
    ConformsUpTo rest (g.updatePropertyArm e id k v) := by
  have hverdict := isOk_updateVerdict g id k v
  rw [MaterializedGraph.updatePropertyArm]
  split <;> rename_i hu <;> rw [hu] at hverdict
  · -- a refused update is owed to nothing
    cases mode with
    | full => exact (hfull rfl).congr rfl rfl rfl
    | skipRequired =>
      rw [hf.2 rfl] at hverdict
      cases hverdict
  · have hr : ConformsUpTo (.updateProperty id k v :: rest) (g.release e.hash) := h.congr rfl rfl rfl
    exact hr.applyUpdateProperty hverdict.symm hf

/-- A removal leaves a node or edge as it is, or dead. -/
theorem applyRemoveNode (h : ConformsUpTo rest g) (id : String) (c : HybridClock) :
    ConformsUpTo rest (g.applyRemoveNode id c) := by
  rw [MaterializedGraph.applyRemoveNode]
  split
  · rename_i nd hnode
    have hty : g.typeOf id = some nd.nodeType := by
      rw [typeOf, hnode]
      rfl
    refine h.insertNode (fun hl => ?_) ?_ (fun t ht => ?_) (fun _ _ _ hk => hk) fun i k hk => ?_
    · obtain hlt | hle := lt_or_ge nd.lastAddClock c
      · rw [Node.remove_of_lt hlt] at hl
        cases hl
      · rw [Node.remove_of_le hle] at hl ⊢
        exact h.nodes id nd hnode hl
    · rw [Node.remove_table]
      exact h.clockedNodes id nd hnode
    · rw [Node.remove_nodeType]
      exact Option.some.inj (hty.symm.trans ht)
    · refine ⟨?_, hk⟩
      rintro rfl
      rw [hk.1] at hty
      cases hty
  · exact h

theorem applyRemoveEdge (h : ConformsUpTo rest g) (id : String) (c : HybridClock) :
    ConformsUpTo rest (g.applyRemoveEdge id c) := by
  rw [MaterializedGraph.applyRemoveEdge]
  split
  · rename_i ed hedge
    refine h.insertEdge (fun hl => ?_) ?_ (fun _ _ _ hk => hk) fun _ _ _ hk => hk
    · obtain hlt | hle := lt_or_ge ed.lastAddClock c
      · rw [Edge.remove_of_lt hlt] at hl
        cases hl
      · rw [Edge.remove_of_le hle] at hl ⊢
        exact h.edges id ed hedge hl
    · rw [Edge.remove_table]
      exact h.clockedEdges id ed hedge
  · exact h

theorem extendOntologyArm {x : OntologyExtension}
    (h : ConformsUpTo rest { g with ontology := (g.ontology.mergeExtension x).2 }) (e : Entry) :
    ConformsUpTo rest (g.extendOntologyArm e x) := by
  rw [MaterializedGraph.extendOntologyArm]
  split <;> rename_i hm <;> rw [hm] at h <;> exact h.congr rfl rfl rfl

/-- The operations of a checkpoint take its place. -/
theorem enterCheckpoint {ops : List GraphOp} {opClocks : List (ℕ × ℕ)} {lc ft : ℕ}
    (h : ConformsUpTo (.checkpoint ops opClocks lc ft :: rest) g) : ConformsUpTo (ops ++ rest) g := by
  refine h.mono (fun i k hk => ?_) fun i k hk => ?_
  · obtain ⟨w, hw⟩ := hk.tail fun v hop => by cases hop
    exact ⟨w, List.mem_append_right _ hw⟩
  · have hno := hk.2.1 _ List.mem_cons_self
    cases hno

mutual

/-- **Step.** An operation that meets its condition keeps the graph in line with its
ontology. -/
theorem applyPayload (rest : List GraphOp) (σ : HashOrder) (mode : ValidationMode) (adopt : Bool)
    (e : Entry) : ∀ (op : GraphOp) (g : MaterializedGraph), ConformsUpTo (op :: rest) g →
      (mode = .full → ConformsUpTo rest g) → OpFits rest σ mode adopt e op g →
      ConformsUpTo rest (applyPayload σ mode adopt e op g)
  | .checkpoint ops opClocks _ _, g, h, _, hf => by
    rw [OpFits] at hf
    rw [MaterializedGraph.applyPayload]
    exact (applyOps rest σ adopt e opClocks ops 0 g h.enterCheckpoint hf).congr rfl rfl rfl
  | .defineOntology _, g, h, _, _ => h.tail fun _ _ _ hop => by cases hop
  | .defineLens _, g, h, _, _ => h.tail fun _ _ _ hop => by cases hop
  | .extendOntology x, g, _, _, hf => by
    rw [OpFits] at hf
    exact hf.extendOntologyArm e
  | .addNode id ty st lb ps, g, h, _, hf => h.addNodeArm σ e hf
  | .addEdge id ty src tgt ps, g, h, _, hf => by
    rw [OpFits] at hf
    exact (h.tail fun _ _ _ hop => by cases hop).addEdgeArm e hf
  | .updateProperty id k v, g, h, hfull, hf => by
    rw [OpFits] at hf
    exact h.updatePropertyArm hfull hf e
  | .removeNode id, g, h, _, _ => by
    have hr : ConformsUpTo rest (g.release e.hash) :=
      (h.tail fun _ _ _ hop => by cases hop).congr rfl rfl rfl
    exact hr.applyRemoveNode id e.clock
  | .removeEdge id, g, h, _, _ => by
    have hr : ConformsUpTo rest (g.release e.hash) :=
      (h.tail fun _ _ _ hop => by cases hop).congr rfl rfl rfl
    exact hr.applyRemoveEdge id e.clock

/-- The operations of a checkpoint, one by one. -/
theorem applyOps (rest : List GraphOp) (σ : HashOrder) (adopt : Bool) (e : Entry)
    (opClocks : List (ℕ × ℕ)) : ∀ (ops : List GraphOp) (i : ℕ) (g : MaterializedGraph),
      ConformsUpTo (ops ++ rest) g → OpsFit rest σ adopt e opClocks ops i g →
      ConformsUpTo rest (applyOps σ adopt e opClocks ops i g)
  | [], i, g, h, _ => by
    rw [MaterializedGraph.applyOps]
    exact h
  | op :: ops, i, g, h, hf => by
    have hops := applyOps rest σ adopt e opClocks ops (i + 1)
    have hop := applyPayload (ops ++ rest) σ .skipRequired true
      (Entry.new op [] [] (opClock e opClocks i) e.author) op g h fun hm => by cases hm
    cases op with
    | defineOntology carried =>
      rw [OpsFit] at hf
      rw [MaterializedGraph.applyOps]
      refine hops _ ?_ hf.2
      split
      · rename_i ha
        exact hf.1 ha
      · exact h.tail fun _ _ _ hop => by cases hop
    | _ =>
      rw [OpsFit] at hf
      · rw [MaterializedGraph.applyOps]
        · exact hops _ (hop hf.1) hf.2
        all_goals exact fun _ h => by cases h
      all_goals exact fun _ h => by cases h

end

end ConformsUpTo

/-! ### Lists of entries -/

/-- Every entry of a list that is replayed meets the condition. -/
def ReplayFits (σ : HashOrder) : MaterializedGraph → List Entry → Prop
  | _, [] => True
  | g, e :: es => (e.payload.isExtendOntology = false → OpFits [] σ .full false e e.payload g) ∧
      ReplayFits σ (materialize σ g e) es

/-- Every entry of a list that is applied meets the condition. -/
def AppliedFits (σ : HashOrder) : MaterializedGraph → List Entry → Prop
  | _, [] => True
  | g, e :: es => OpFits [] σ .full true e e.payload g ∧ AppliedFits σ (g.apply σ e) es

namespace ConformsUpTo

theorem applyInner (h : ConformsUpTo [] g) {adopt : Bool}
    (hf : OpFits [] σ .full adopt e e.payload g) :
    ConformsUpTo [] (g.applyInner σ e .full adopt) :=
  applyPayload [] σ .full adopt e e.payload g (h.ofNil _) (fun _ => h) hf

theorem replay {es : List Entry} (h : ConformsUpTo [] g) (hf : ReplayFits σ g es) :
    ConformsUpTo [] (es.foldl (materialize σ) g) := by
  induction es generalizing g with
  | nil => exact h
  | cons e es ih =>
    refine ih ?_ hf.2
    rw [materialize]
    split
    · exact h
    · rename_i hx
      exact h.applyInner (hf.1 (by simpa using hx))

theorem applied {es : List Entry} (h : ConformsUpTo [] g) (hf : AppliedFits σ g es) :
    ConformsUpTo [] (es.foldl (fun g e => g.apply σ e) g) := by
  induction es generalizing g with
  | nil => exact h
  | cons e es ih => exact ih (h.applyInner hf.1) hf.2

theorem ofEmpty (hn : g.nodes = ∅) (he : g.edges = ∅) : ConformsUpTo rest g := by
  have hnode : ∀ (i : String) (nd : Node), g.nodes[i]? ≠ some nd := fun i nd hi => by
    rw [hn, Std.ExtTreeMap.getElem?_empty] at hi
    cases hi
  have hedge : ∀ (i : String) (ed : Edge), g.edges[i]? ≠ some ed := fun i ed hi => by
    rw [he, Std.ExtTreeMap.getElem?_empty] at hi
    cases hi
  exact ⟨fun i nd hi => absurd hi (hnode i nd), fun i ed hi => absurd hi (hedge i ed),
    fun i nd hi => absurd hi (hnode i nd), fun i ed hi => absurd hi (hedge i ed)⟩

/-- **Rebuilds.** A graph rebuilt from entries that meet the condition conforms. -/
theorem rebuild {base : Ontology} {es : List Entry} (hf : ReplayFits σ (secondPass base es) es) :
    ConformsUpTo [] ((new base).rebuild σ es) :=
  (ofEmpty (entities_secondPass base es).1 (entities_secondPass base es).2.1).replay hf

end ConformsUpTo

/-! ### What it says about the visible graph -/

/-- Every live node conforms to the ontology of the graph, and so does every live edge with
live endpoints. -/
structure ConformsToSchema (g : MaterializedGraph) : Prop where
  nodes : ∀ (id : String) (nd : Node), g.getNode id = some nd → nd.Conforms g.ontology fun _ => False
  edges : ∀ (id : String) (ed : Edge) (s t : Node), g.getEdge id = some ed →
    g.getNode ed.sourceId = some s → g.getNode ed.targetId = some t →
    ed.Conforms g.ontology s.nodeType t.nodeType fun _ => False

theorem ConformsUpTo.conformsToSchema (h : ConformsUpTo [] g) : g.ConformsToSchema := by
  have hnode : ∀ (i : String) (nd : Node), g.getNode i = some nd →
      g.nodes[i]? = some nd ∧ nd.tombstoned = false := fun i nd hi => by
    rwa [getNode, Option.filter_eq_some_iff, Bool.not_eq_true'] at hi
  constructor
  · intro i nd hi
    obtain ⟨hget, hl⟩ := hnode i nd hi
    refine (h.nodes i nd hget hl).mono fun k hk => ?_
    obtain ⟨_, hv⟩ := hk
    cases hv
  · intro i ed s t hi hs ht
    rw [getEdge, Option.filter_eq_some_iff, Bool.not_eq_true'] at hi
    obtain ⟨s', t', hs', ht', hc⟩ := h.edges i ed hi.1 hi.2
    have hsame : ∀ (j : String) (nd : Node) (ty : String), g.getNode j = some nd →
        g.typeOf j = some ty → ty = nd.nodeType := fun j nd ty hj hty => by
      rw [typeOf, (hnode j nd hj).1] at hty
      exact (Option.some.inj hty).symm
    obtain rfl := hsame _ s s' hs hs'
    obtain rfl := hsame _ t t' ht ht'
    refine hc.mono fun k hk => ?_
    obtain ⟨_, _, _, hv⟩ := hk
    cases hv

end MaterializedGraph

end SilkGraph
