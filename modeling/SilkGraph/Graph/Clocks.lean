import SilkGraph.Graph.Slots
import SilkGraph.Graph.Tables

/-!
# Where the clocks of a graph come from

Every clock that a graph holds, on a node, an edge or one of their properties, is the clock
of an entry that was applied to it, or one that a checkpoint recorded for one of its
operations. So what is true of the clocks of all entries is true of the clocks of the graph:
`ClocksIn P` says that `P` holds of them, and it is kept by every entry (`ClocksIn.apply`) and
established by every rebuild (`clocksIn_rebuild`).
-/

namespace SilkGraph

mutual

/-- The times a checkpoint records for its operations, at every depth. -/
def GraphOp.opTimes : GraphOp → List (ℕ × ℕ)
  | .checkpoint ops opClocks _ _ => opClocks ++ GraphOp.opTimesAll ops
  | _ => []

/-- The times in a list of operations. -/
def GraphOp.opTimesAll : List GraphOp → List (ℕ × ℕ)
  | [] => []
  | op :: ops => op.opTimes ++ GraphOp.opTimesAll ops

end

/-- The clocks an entry brings: its own, and those recorded for the operations of a
checkpoint, under its author. -/
def Entry.clocks (self : Entry) : List HybridClock :=
  self.clock :: self.payload.opTimes.map fun c => HybridClock.withValues self.author c.1 c.2

/-- A node holds the clock: of its last change, of its last add or of one of its
properties. -/
def Node.HoldsClock (self : Node) (c : HybridClock) : Prop :=
  c = self.lastClock ∨ c = self.lastAddClock ∨ ∃ k : String, self.propertyClocks[k]? = some c

/-- An edge holds the clock. -/
def Edge.HoldsClock (self : Edge) (c : HybridClock) : Prop :=
  c = self.lastClock ∨ c = self.lastAddClock ∨ ∃ k : String, self.propertyClocks[k]? = some c

/-- Some node or edge of the graph holds the clock. -/
def MaterializedGraph.HoldsClock (self : MaterializedGraph) (c : HybridClock) : Prop :=
  (∃ (id : String) (node : Node), self.nodes[id]? = some node ∧ node.HoldsClock c) ∨
    ∃ (id : String) (edge : Edge), self.edges[id]? = some edge ∧ edge.HoldsClock c

variable {P : HybridClock → Prop} {c : HybridClock}

theorem GraphOp.mem_opTimesAll {ops : List GraphOp} {t : ℕ × ℕ} :
    t ∈ GraphOp.opTimesAll ops ↔ ∃ op ∈ ops, t ∈ op.opTimes := by
  induction ops with
  | nil => simp [GraphOp.opTimesAll]
  | cons op ops ih => simp [GraphOp.opTimesAll, ih]

/-! ### Tables, nodes and edges -/

/-- Every clock of the table satisfies `P`. -/
def PropertyTable.ClocksIn (P : HybridClock → Prop) (t : PropertyTable) : Prop :=
  ∀ (k : String) (c : HybridClock), t.clocks[k]? = some c → P c

theorem PropertyTable.ClocksIn.write {t : PropertyTable} (ht : t.ClocksIn P) (hc : P c) (k : String)
    (v : Value) : (t.write k v c).ClocksIn P := by
  intro k' c' hk'
  rw [PropertyTable.write] at hk'
  split at hk'
  · rw [HashMap.getElem?_insert] at hk'
    split at hk'
    · obtain rfl := Option.some.inj hk'
      exact hc
    · exact ht k' c' hk'
  · exact ht k' c' hk'

theorem PropertyTable.ClocksIn.mergeLww {t : PropertyTable} (ht : t.ClocksIn P) (hc : P c)
    (ps : BTreeMap String Value) : (t.mergeLww ps c).ClocksIn P := by
  rw [PropertyTable.mergeLww]
  generalize ps.toList = l
  induction l generalizing t with
  | nil => exact ht
  | cons kv l ih => exact ih (ht.write hc kv.1 kv.2)

theorem PropertyTable.clocksIn_init (hc : P c) (ps : BTreeMap String Value) :
    (PropertyTable.init ps c).ClocksIn P := by
  rw [PropertyTable.init_eq]
  refine PropertyTable.ClocksIn.mergeLww (fun k c' h => ?_) hc ps
  rw [Std.ExtTreeMap.getElem?_empty] at h
  cases h

theorem laterClock_mem {old new : HybridClock} (ho : P old) (hn : P new) :
    P (laterClock old new) := by
  rw [laterClock]
  split
  · exact hn
  · exact ho

/-- Every clock of the node satisfies `P`. -/
structure Node.ClocksIn (P : HybridClock → Prop) (nd : Node) : Prop where
  last : P nd.lastClock
  lastAdd : P nd.lastAddClock
  table : nd.table.ClocksIn P

/-- Every clock of the edge satisfies `P`. -/
structure Edge.ClocksIn (P : HybridClock → Prop) (ed : Edge) : Prop where
  last : P ed.lastClock
  lastAdd : P ed.lastAddClock
  table : ed.table.ClocksIn P

namespace Node.ClocksIn

variable {nd : Node}

theorem create (hc : P c) (id ty : String) (st : Option String) (lb : String)
    (ps : BTreeMap String Value) : (Node.create id ty st lb ps c).ClocksIn P :=
  ⟨hc, hc, PropertyTable.clocksIn_init hc ps⟩

theorem readd (h : nd.ClocksIn P) (hc : P c) (st : Option String) (lb : String)
    (ps : BTreeMap String Value) : (nd.readd st lb ps c).ClocksIn P :=
  ⟨laterClock_mem h.last hc, laterClock_mem h.lastAdd hc, h.table.mergeLww hc ps⟩

theorem update (h : nd.ClocksIn P) (hc : P c) (k : String) (v : Value) :
    (nd.update k v c).ClocksIn P :=
  ⟨laterClock_mem h.last hc, h.lastAdd, h.table.write hc k v⟩

theorem remove (h : nd.ClocksIn P) (hc : P c) : (nd.remove c).ClocksIn P := by
  rw [Node.remove]
  split
  · exact ⟨hc, h.lastAdd, h.table⟩
  · exact h

theorem iff : nd.ClocksIn P ↔ ∀ c, nd.HoldsClock c → P c := by
  constructor
  · rintro ⟨h₁, h₂, h₃⟩ c (rfl | rfl | ⟨k, hk⟩)
    · exact h₁
    · exact h₂
    · exact h₃ k c hk
  · exact fun h => ⟨h _ (.inl rfl), h _ (.inr (.inl rfl)), fun k c hk => h c (.inr (.inr ⟨k, hk⟩))⟩

end Node.ClocksIn

namespace Edge.ClocksIn

variable {ed : Edge}

theorem create (hc : P c) (id ty src tgt : String) (ps : BTreeMap String Value) :
    (Edge.create id ty src tgt ps c).ClocksIn P :=
  ⟨hc, hc, PropertyTable.clocksIn_init hc ps⟩

theorem readd (h : ed.ClocksIn P) (hc : P c) (ps : BTreeMap String Value) :
    (ed.readd ps c).ClocksIn P :=
  ⟨laterClock_mem h.last hc, laterClock_mem h.lastAdd hc, h.table.mergeLww hc ps⟩

theorem update (h : ed.ClocksIn P) (hc : P c) (k : String) (v : Value) :
    (ed.update k v c).ClocksIn P :=
  ⟨laterClock_mem h.last hc, h.lastAdd, h.table.write hc k v⟩

theorem remove (h : ed.ClocksIn P) (hc : P c) : (ed.remove c).ClocksIn P := by
  rw [Edge.remove]
  split
  · exact ⟨hc, h.lastAdd, h.table⟩
  · exact h

theorem iff : ed.ClocksIn P ↔ ∀ c, ed.HoldsClock c → P c := by
  constructor
  · rintro ⟨h₁, h₂, h₃⟩ c (rfl | rfl | ⟨k, hk⟩)
    · exact h₁
    · exact h₂
    · exact h₃ k c hk
  · exact fun h => ⟨h _ (.inl rfl), h _ (.inr (.inl rfl)), fun k c hk => h c (.inr (.inr ⟨k, hk⟩))⟩

end Edge.ClocksIn

namespace MaterializedGraph

/-- Every clock of the graph satisfies `P`, and so do the clocks of the edges it holds
back. -/
structure ClocksIn (P : HybridClock → Prop) (g : MaterializedGraph) : Prop where
  nodes : ∀ (id : String) (nd : Node), g.nodes[id]? = some nd → nd.ClocksIn P
  edges : ∀ (id : String) (ed : Edge), g.edges[id]? = some ed → ed.ClocksIn P
  pending : ∀ (h : Hash) (e : Entry), g.pendingEdges[h]? = some e → P e.clock

variable {g g' : MaterializedGraph} {e : Entry}

namespace ClocksIn

theorem holds (h : g.ClocksIn P) : ∀ c, g.HoldsClock c → P c := by
  rintro c (⟨id, nd, hnd, hc⟩ | ⟨id, ed, hed, hc⟩)
  · exact Node.ClocksIn.iff.mp (h.nodes id nd hnd) c hc
  · exact Edge.ClocksIn.iff.mp (h.edges id ed hed) c hc

theorem mono {Q : HybridClock → Prop} (h : g.ClocksIn P) (hPQ : ∀ c, P c → Q c) : g.ClocksIn Q := by
  refine ⟨fun id nd hnd => ?_, fun id ed hed => ?_, fun x e he => hPQ _ (h.pending x e he)⟩
  · obtain ⟨h₁, h₂, h₃⟩ := h.nodes id nd hnd
    exact ⟨hPQ _ h₁, hPQ _ h₂, fun k c hk => hPQ c (h₃ k c hk)⟩
  · obtain ⟨h₁, h₂, h₃⟩ := h.edges id ed hed
    exact ⟨hPQ _ h₁, hPQ _ h₂, fun k c hk => hPQ c (h₃ k c hk)⟩

theorem new (o : Ontology) : (MaterializedGraph.new o).ClocksIn P := by
  refine ⟨fun id nd h => ?_, fun id ed h => ?_, fun x e h => ?_⟩
  all_goals
    rw [MaterializedGraph.new, Std.ExtTreeMap.getElem?_empty] at h
    cases h

/-- Only the entities and the held edges matter. -/
theorem congr (h : g.ClocksIn P) (hn : g'.nodes = g.nodes) (he : g'.edges = g.edges)
    (hp : g'.pendingEdges = g.pendingEdges) : g'.ClocksIn P :=
  ⟨fun id nd hnd => h.nodes id nd (hn ▸ hnd), fun id ed hed => h.edges id ed (he ▸ hed),
    fun x e hx => h.pending x e (hp ▸ hx)⟩

theorem insertNode (h : g.ClocksIn P) {id : String} {nd : Node} (hnd : nd.ClocksIn P)
    (byType : HashMap String (HashSet String)) :
    ({ g with byType, nodes := g.nodes.insert id nd } : MaterializedGraph).ClocksIn P := by
  refine ⟨fun id' nd' h' => ?_, h.edges, h.pending⟩
  rw [HashMap.getElem?_insert] at h'
  split at h'
  · obtain rfl := Option.some.inj h'
    exact hnd
  · exact h.nodes id' nd' h'

theorem insertEdge (h : g.ClocksIn P) {id : String} {ed : Edge} (hed : ed.ClocksIn P)
    (outgoing incoming : HashMap String (HashSet String)) :
    ({ g with outgoing, incoming, edges := g.edges.insert id ed } : MaterializedGraph).ClocksIn P := by
  refine ⟨h.nodes, fun id' ed' h' => ?_, h.pending⟩
  rw [HashMap.getElem?_insert] at h'
  split at h'
  · obtain rfl := Option.some.inj h'
    exact hed
  · exact h.edges id' ed' h'

/-! ### The arms -/

theorem release (h : g.ClocksIn P) (x : Hash) : (g.release x).ClocksIn P := h.congr rfl rfl rfl

theorem applyAddNode (h : g.ClocksIn P) (hc : P c) (id ty : String) (st : Option String)
    (lb : String) (ps : BTreeMap String Value) : (g.applyAddNode id ty st lb ps c).ClocksIn P := by
  rw [MaterializedGraph.applyAddNode]
  split
  · rename_i nd hnd
    exact h.insertNode ((h.nodes id nd hnd).readd hc st lb ps) g.byType
  · exact h.insertNode (.create hc id ty st lb ps) _

theorem applyAddEdge (h : g.ClocksIn P) (hc : P c) (id ty src tgt : String)
    (ps : BTreeMap String Value) : (g.applyAddEdge id ty src tgt ps c).ClocksIn P := by
  rw [MaterializedGraph.applyAddEdge]
  split
  · rename_i ed hed
    exact h.insertEdge ((h.edges id ed hed).readd hc ps) g.outgoing g.incoming
  · exact h.insertEdge (.create hc id ty src tgt ps) _ _

theorem applyUpdateProperty (h : g.ClocksIn P) (hc : P c) (id k : String) (v : Value) :
    (g.applyUpdateProperty id k v c).ClocksIn P := by
  rw [MaterializedGraph.applyUpdateProperty]
  split
  · rename_i nd hnd
    exact h.insertNode ((h.nodes id nd hnd).update hc k v) g.byType
  · split
    · rename_i ed hed
      exact h.insertEdge ((h.edges id ed hed).update hc k v) g.outgoing g.incoming
    · exact h

theorem applyRemoveNode (h : g.ClocksIn P) (hc : P c) (id : String) :
    (g.applyRemoveNode id c).ClocksIn P := by
  rw [MaterializedGraph.applyRemoveNode]
  split
  · rename_i nd hnd
    exact h.insertNode ((h.nodes id nd hnd).remove hc) g.byType
  · exact h

theorem applyRemoveEdge (h : g.ClocksIn P) (hc : P c) (id : String) :
    (g.applyRemoveEdge id c).ClocksIn P := by
  rw [MaterializedGraph.applyRemoveEdge]
  split
  · rename_i ed hed
    exact h.insertEdge ((h.edges id ed hed).remove hc) g.outgoing g.incoming
  · exact h

variable [Crates]

theorem addEdgeArm (h : g.ClocksIn P) (hc : P e.clock) (mode : ValidationMode)
    (id ty src tgt : String) (ps : BTreeMap String Value) :
    (g.addEdgeArm e mode id ty src tgt ps).ClocksIn P := by
  obtain ⟨-, -, hg⟩ | ⟨-, -, r, hg⟩ | ⟨-, -, r, hg⟩ := addEdgeArm_cases g e mode id ty src tgt ps <;>
    rw [hg]
  · exact (h.release e.hash).applyAddEdge hc id ty src tgt ps
  · refine ⟨h.nodes, h.edges, fun x e' he' => ?_⟩
    -- the edge itself is held back
    change (g.pendingEdges.insert e.hash e)[x]? = some e' at he'
    rw [HashMap.getElem?_insert] at he'
    split at he'
    · obtain rfl := Option.some.inj he'
      exact hc
    · exact h.pending x e' he'
  · exact h.congr rfl rfl rfl

theorem retryEdge (h : g.ClocksIn P) (hc : P e.clock) : (g.retryEdge e).ClocksIn P := by
  have herase : ({ g with pendingEdges := g.pendingEdges.erase e.hash } : MaterializedGraph).ClocksIn P := by
    refine ⟨h.nodes, h.edges, fun x e' he' => ?_⟩
    rw [HashMap.getElem?_erase] at he'
    split at he'
    · cases he'
    · exact h.pending x e' he'
  rw [MaterializedGraph.retryEdge]
  split
  · exact herase.addEdgeArm hc ..
  · exact herase

theorem retryPendingEdges (h : g.ClocksIn P) (σ : HashOrder) : (g.retryPendingEdges σ).ClocksIn P := by
  have hready : ∀ p ∈ g.readyEdges σ, P p.clock := fun p hp => by
    obtain ⟨⟨x, hx⟩, -⟩ := mem_readyEdges.mp hp
    exact h.pending x p hx
  rw [retryPendingEdges_eq]
  generalize g.readyEdges σ = l at hready
  induction l generalizing g with
  | nil => exact h
  | cons p l ih =>
    exact ih (h.retryEdge (hready p List.mem_cons_self)) fun q hq =>
      hready q (List.mem_cons_of_mem p hq)

theorem addNodeArm (h : g.ClocksIn P) (hc : P e.clock) (σ : HashOrder) (mode : ValidationMode)
    (id ty : String) (st : Option String) (lb : String) (ps : BTreeMap String Value) :
    (g.addNodeArm σ e mode id ty st lb ps).ClocksIn P := by
  rw [MaterializedGraph.addNodeArm]
  split
  · exact h.congr rfl rfl rfl
  · exact ((h.release e.hash).applyAddNode hc id ty st lb ps).retryPendingEdges σ

theorem updatePropertyArm (h : g.ClocksIn P) (hc : P e.clock) (id k : String) (v : Value) :
    (g.updatePropertyArm e id k v).ClocksIn P := by
  rw [MaterializedGraph.updatePropertyArm]
  split
  · exact h.congr rfl rfl rfl
  · exact (h.release e.hash).applyUpdateProperty hc id k v

theorem extendOntologyArm (h : g.ClocksIn P) (extension : OntologyExtension) :
    (g.extendOntologyArm e extension).ClocksIn P := by
  rw [MaterializedGraph.extendOntologyArm]
  split <;> exact h.congr rfl rfl rfl

end ClocksIn

/-! ### Entries -/

/-- The clock of the `i`-th operation is among those of the entry. -/
theorem opClock_mem {opClocks : List (ℕ × ℕ)} (hc : P e.clock)
    (htimes : ∀ t ∈ opClocks, P (HybridClock.withValues e.author t.1 t.2)) (i : ℕ) :
    P (opClock e opClocks i) := by
  rw [opClock]
  split
  · rename_i t ht
    exact htimes t (List.mem_of_getElem? ht)
  · exact hc

variable [Crates]

mutual

/-- **Step.** Applying an operation, one case for each kind. -/
theorem ClocksIn.applyPayload (σ : HashOrder) (mode : ValidationMode) (adopt : Bool) (e : Entry)
    (hc : P e.clock) : ∀ (op : GraphOp) (g : MaterializedGraph),
      (∀ t ∈ op.opTimes, P (HybridClock.withValues e.author t.1 t.2)) → g.ClocksIn P →
        (MaterializedGraph.applyPayload σ mode adopt e op g).ClocksIn P
  | .checkpoint ops opClocks _ _, g, ht, h => by
    rw [GraphOp.opTimes] at ht
    rw [MaterializedGraph.applyPayload]
    exact (ClocksIn.applyOps σ adopt e opClocks hc
      (fun t h => ht t (List.mem_append_left _ h)) ops 0 g
      (fun t h => ht t (List.mem_append_right _ h)) h).release _
  | .defineOntology _, g, _, h => h
  | .defineLens _, g, _, h => h
  | .extendOntology extension, g, _, h => h.extendOntologyArm extension
  | .addNode id ty st lb ps, g, _, h => h.addNodeArm hc σ mode id ty st lb ps
  | .addEdge id ty src tgt ps, g, _, h => h.addEdgeArm hc mode id ty src tgt ps
  | .updateProperty id k v, g, _, h => h.updatePropertyArm hc id k v
  | .removeNode id, g, _, h => (h.release e.hash).applyRemoveNode hc id
  | .removeEdge id, g, _, h => (h.release e.hash).applyRemoveEdge hc id

/-- **Step.** Applying the operations of a checkpoint. -/
theorem ClocksIn.applyOps (σ : HashOrder) (adopt : Bool) (e : Entry) (opClocks : List (ℕ × ℕ))
    (hc : P e.clock) (hclocks : ∀ t ∈ opClocks, P (HybridClock.withValues e.author t.1 t.2)) :
    ∀ (ops : List GraphOp) (i : ℕ) (g : MaterializedGraph),
      (∀ t ∈ GraphOp.opTimesAll ops, P (HybridClock.withValues e.author t.1 t.2)) → g.ClocksIn P →
        (MaterializedGraph.applyOps σ adopt e opClocks ops i g).ClocksIn P
  | [], i, g, _, h => by
    rw [MaterializedGraph.applyOps]
    exact h
  | op :: ops, i, g, ht, h => by
    rw [GraphOp.opTimesAll] at ht
    have hrest := fun g' => ClocksIn.applyOps σ adopt e opClocks hc hclocks ops (i + 1) g'
      fun t h => ht t (List.mem_append_right _ h)
    have hop := ClocksIn.applyPayload σ .skipRequired true
      (Entry.new op [] [] (opClock e opClocks i) e.author) (opClock_mem hc hclocks i) op g
      (fun t h => ht t (List.mem_append_left _ h)) h
    cases op with
    | defineOntology carried =>
      rw [MaterializedGraph.applyOps]
      refine hrest _ ?_
      split
      · exact h.congr rfl rfl rfl
      · exact h
    | _ =>
      rw [MaterializedGraph.applyOps]
      · exact hrest _ hop
      all_goals exact fun _ h => by cases h

end

theorem ClocksIn.applyInner (h : g.ClocksIn P) (he : ∀ c ∈ e.clocks, P c) (σ : HashOrder)
    (mode : ValidationMode) (adopt : Bool) : (g.applyInner σ e mode adopt).ClocksIn P :=
  ClocksIn.applyPayload σ mode adopt e (he _ List.mem_cons_self) e.payload g
    (fun _ ht => he _ (List.mem_cons_of_mem _ (List.mem_map_of_mem ht))) h

theorem ClocksIn.apply (h : g.ClocksIn P) (he : ∀ c ∈ e.clocks, P c) (σ : HashOrder) :
    (g.apply σ e).ClocksIn P := h.applyInner he σ .full true

theorem ClocksIn.materialize (h : g.ClocksIn P) (he : ∀ c ∈ e.clocks, P c) (σ : HashOrder) :
    (MaterializedGraph.materialize σ g e).ClocksIn P := by
  rw [MaterializedGraph.materialize]
  split
  · exact h
  · exact h.applyInner he σ .full false

theorem ClocksIn.foldOntology (h : g.ClocksIn P) : (g.foldOntology e).ClocksIn P := by
  rw [MaterializedGraph.foldOntology]
  split
  · split <;> exact h.congr rfl rfl rfl
  · exact h.congr rfl rfl rfl
  · exact h

/-- **Run.** The clocks of a rebuilt graph are clocks of the entries. -/
theorem clocksIn_rebuild (g : MaterializedGraph) (σ : HashOrder) {es : List Entry}
    (hes : ∀ e ∈ es, ∀ c ∈ e.clocks, P c) : (g.rebuild σ es).ClocksIn P := by
  have hfold : ∀ (l : List Entry) (g : MaterializedGraph), g.ClocksIn P →
      (l.foldl MaterializedGraph.foldOntology g).ClocksIn P := by
    intro l
    induction l with
    | nil => exact fun g h => h
    | cons e l ih => exact fun g h => ih _ h.foldOntology
  have hstart := hfold es _ (ClocksIn.new g.baseOntology)
  rw [rebuild]
  generalize es.foldl MaterializedGraph.foldOntology (MaterializedGraph.new g.baseOntology) = g₀ at hstart
  induction es generalizing g₀ with
  | nil => exact hstart
  | cons e es ih =>
    exact ih (fun x hx => hes x (List.mem_cons_of_mem e hx)) _
      (hstart.materialize (hes e List.mem_cons_self) σ)

end MaterializedGraph

end SilkGraph
