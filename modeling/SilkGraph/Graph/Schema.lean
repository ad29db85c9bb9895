import SilkGraph.Graph.Basic

/-!
# The ontology along a replay

What an entry does to the ontology of a graph depends on its payload and that ontology
alone (`applyInner_schema`): extensions are merged, a checkpoint brings the ontology it
carries, everything else leaves it. So the ontology a rebuild ends with is computed from the
schema entries of the list, in their order (`effectiveOntology`).
-/

namespace SilkGraph

/-! ### What an operation does to an ontology -/

mutual

/-- What applying an operation does to the ontology. -/
def GraphOp.evolve (adoptCheckpointOntology : Bool) : GraphOp → Ontology → Ontology
  | .checkpoint ops _ _ _, ontology => GraphOp.evolveAll adoptCheckpointOntology ops ontology
  | .extendOntology extension, ontology => (ontology.mergeExtension extension).2
  | _, ontology => ontology

/-- What applying the operations of a checkpoint does to the ontology. -/
def GraphOp.evolveAll (adoptCheckpointOntology : Bool) : List GraphOp → Ontology → Ontology
  | [], ontology => ontology
  | .defineOntology carried :: ops, ontology =>
    GraphOp.evolveAll adoptCheckpointOntology ops
      (if adoptCheckpointOntology then carried else ontology)
  | op :: ops, ontology =>
    GraphOp.evolveAll adoptCheckpointOntology ops (GraphOp.evolve true op ontology)

end

/-- What the first pass of a rebuild does to the ontology. -/
def GraphOp.declare : GraphOp → Ontology → Ontology
  | .extendOntology extension, ontology => (ontology.mergeExtension extension).2
  | .checkpoint ops _ _ _, ontology =>
    ops.foldl (fun ontology op => match op with
      | .defineOntology ontology => ontology
      | _ => ontology) ontology
  | _, ontology => ontology

/-- What the second pass of a rebuild does to the ontology: an extension is not applied
again. -/
def GraphOp.redeclare (op : GraphOp) (ontology : Ontology) : Ontology :=
  if op.isExtendOntology then ontology else op.evolve false ontology

/-- The ontology a list of entries leads to from a base. -/
def effectiveOntology (base : Ontology) (entries : List Entry) : Ontology :=
  entries.foldl (fun o e => e.payload.redeclare o) (entries.foldl (fun o e => e.payload.declare o) base)

/-- The entry can change the ontology of a graph. -/
def Entry.isSchema (e : Entry) : Bool := e.payload.isExtendOntology || e.payload.isCheckpoint

theorem GraphOp.declare_of_plain {op : GraphOp} (h : (op.isExtendOntology || op.isCheckpoint) = false)
    (ontology : Ontology) : op.declare ontology = ontology := by
  cases op <;> first | rfl | cases h

theorem GraphOp.redeclare_of_plain {op : GraphOp}
    (h : (op.isExtendOntology || op.isCheckpoint) = false) (ontology : Ontology) :
    op.redeclare ontology = ontology := by
  cases op <;> first | rfl | cases h

/-- Only schema entries count. -/
theorem effectiveOntology_filter (base : Ontology) (entries : List Entry) :
    effectiveOntology base (entries.filter Entry.isSchema) = effectiveOntology base entries := by
  have hfold : ∀ (f : Ontology → Entry → Ontology), (∀ o e, e.isSchema = false → f o e = o) →
      ∀ (l : List Entry) (o : Ontology), (l.filter Entry.isSchema).foldl f o = l.foldl f o := by
    intro f hf l
    induction l with
    | nil => exact fun o => rfl
    | cons e l ih =>
      intro o
      cases he : e.isSchema with
      | true => rw [List.filter_cons_of_pos he, List.foldl_cons, List.foldl_cons, ih]
      | false => rw [List.filter_cons_of_neg (by simp [he]), List.foldl_cons, hf o e he, ih]
  rw [effectiveOntology, effectiveOntology,
    hfold _ fun o e he => GraphOp.redeclare_of_plain he o,
    hfold _ fun o e he => GraphOp.declare_of_plain he o]

namespace MaterializedGraph

/-- The ontologies of two graphs, the current and the base one, are the same. -/
structure SameSchema (g g' : MaterializedGraph) : Prop where
  ontology : g.ontology = g'.ontology
  base : g.baseOntology = g'.baseOntology

variable {g g' g'' : MaterializedGraph}

theorem SameSchema.refl (g : MaterializedGraph) : SameSchema g g := ⟨rfl, rfl⟩

theorem SameSchema.trans (h : SameSchema g g') (h' : SameSchema g' g'') : SameSchema g g'' :=
  ⟨h.ontology.trans h'.ontology, h.base.trans h'.base⟩

theorem applyAddNode_schema (g : MaterializedGraph) (id ty : String) (st : Option String)
    (lb : String) (ps : BTreeMap String Value) (c : HybridClock) :
    SameSchema (g.applyAddNode id ty st lb ps c) g := by
  rw [applyAddNode]
  split <;> exact ⟨rfl, rfl⟩

theorem applyAddEdge_schema (g : MaterializedGraph) (id ty src tgt : String)
    (ps : BTreeMap String Value) (c : HybridClock) :
    SameSchema (g.applyAddEdge id ty src tgt ps c) g := by
  rw [applyAddEdge]
  split <;> exact ⟨rfl, rfl⟩

theorem applyUpdateProperty_schema (g : MaterializedGraph) (id k : String) (v : Value)
    (c : HybridClock) : SameSchema (g.applyUpdateProperty id k v c) g := by
  rw [applyUpdateProperty]
  repeat' split
  all_goals exact ⟨rfl, rfl⟩

theorem applyRemoveNode_schema (g : MaterializedGraph) (id : String) (c : HybridClock) :
    SameSchema (g.applyRemoveNode id c) g := by
  rw [applyRemoveNode]
  split <;> exact ⟨rfl, rfl⟩

theorem applyRemoveEdge_schema (g : MaterializedGraph) (id : String) (c : HybridClock) :
    SameSchema (g.applyRemoveEdge id c) g := by
  rw [applyRemoveEdge]
  split <;> exact ⟨rfl, rfl⟩

variable [Crates]

theorem addEdgeArm_schema (g : MaterializedGraph) (e : Entry) (mode : ValidationMode)
    (id ty src tgt : String) (ps : BTreeMap String Value) :
    SameSchema (g.addEdgeArm e mode id ty src tgt ps) g := by
  rw [addEdgeArm]
  split
  · exact ⟨rfl, rfl⟩
  · split
    · split
      · exact ⟨rfl, rfl⟩
      · exact (applyAddEdge_schema _ id ty src tgt ps e.clock).trans ⟨rfl, rfl⟩
    · exact ⟨rfl, rfl⟩

theorem retryEdge_schema (g : MaterializedGraph) (e : Entry) : SameSchema (g.retryEdge e) g := by
  rw [retryEdge]
  split
  · exact (addEdgeArm_schema ..).trans ⟨rfl, rfl⟩
  · exact ⟨rfl, rfl⟩

theorem retryPendingEdges_schema (g : MaterializedGraph) (σ : HashOrder) :
    SameSchema (g.retryPendingEdges σ) g := by
  have hfold : ∀ (l : List Entry) (g : MaterializedGraph), SameSchema (l.foldl retryEdge g) g := by
    intro l
    induction l with
    | nil => exact .refl
    | cons e l ih => exact fun g => (ih _).trans (retryEdge_schema g e)
  exact hfold _ g

theorem addNodeArm_schema (g : MaterializedGraph) (σ : HashOrder) (e : Entry)
    (mode : ValidationMode) (id ty : String) (st : Option String) (lb : String)
    (ps : BTreeMap String Value) : SameSchema (g.addNodeArm σ e mode id ty st lb ps) g := by
  rw [addNodeArm]
  split
  · exact ⟨rfl, rfl⟩
  · exact (retryPendingEdges_schema _ σ).trans ((applyAddNode_schema ..).trans ⟨rfl, rfl⟩)

theorem updatePropertyArm_schema (g : MaterializedGraph) (e : Entry) (id k : String) (v : Value) :
    SameSchema (g.updatePropertyArm e id k v) g := by
  rw [updatePropertyArm]
  split
  · exact ⟨rfl, rfl⟩
  · exact (applyUpdateProperty_schema ..).trans ⟨rfl, rfl⟩

mutual

/-- Applying an operation evolves the ontology by the operation and keeps the base. -/
theorem applyPayload_schema (σ : HashOrder) (mode : ValidationMode) (adopt : Bool) (e : Entry) :
    ∀ (op : GraphOp) (g : MaterializedGraph),
      (applyPayload σ mode adopt e op g).ontology = op.evolve adopt g.ontology ∧
      (applyPayload σ mode adopt e op g).baseOntology = g.baseOntology
  | .checkpoint ops opClocks _ _, g => by
    rw [applyPayload, GraphOp.evolve]
    exact applyOps_schema σ adopt e opClocks ops 0 g
  | .extendOntology extension, g => by
    rw [applyPayload, GraphOp.evolve, extendOntologyArm]
    split <;> rename_i h <;> rw [h] <;> exact ⟨rfl, rfl⟩
  | .defineOntology _, g => ⟨rfl, rfl⟩
  | .defineLens _, g => ⟨rfl, rfl⟩
  | .addNode .., g => ⟨(addNodeArm_schema ..).ontology, (addNodeArm_schema ..).base⟩
  | .addEdge .., g => ⟨(addEdgeArm_schema ..).ontology, (addEdgeArm_schema ..).base⟩
  | .updateProperty .., g =>
    ⟨(updatePropertyArm_schema ..).ontology, (updatePropertyArm_schema ..).base⟩
  | .removeNode .., g =>
    ⟨(applyRemoveNode_schema ..).ontology, (applyRemoveNode_schema ..).base⟩
  | .removeEdge .., g =>
    ⟨(applyRemoveEdge_schema ..).ontology, (applyRemoveEdge_schema ..).base⟩

/-- Applying the operations of a checkpoint evolves the ontology by them. -/
theorem applyOps_schema (σ : HashOrder) (adopt : Bool) (e : Entry) (opClocks : List (ℕ × ℕ)) :
    ∀ (ops : List GraphOp) (i : ℕ) (g : MaterializedGraph),
      (applyOps σ adopt e opClocks ops i g).ontology = GraphOp.evolveAll adopt ops g.ontology ∧
      (applyOps σ adopt e opClocks ops i g).baseOntology = g.baseOntology
  | [], i, g => by
    rw [applyOps, GraphOp.evolveAll]
    exact ⟨rfl, rfl⟩
  | op :: ops, i, g => by
    have hrest := applyOps_schema σ adopt e opClocks ops (i + 1)
    have hop := applyPayload_schema σ .skipRequired true
      (Entry.new op [] [] (opClock e opClocks i) e.author) op g
    cases op with
    | defineOntology carried =>
      rw [applyOps, GraphOp.evolveAll, (hrest _).1, (hrest _).2]
      cases adopt <;> exact ⟨rfl, rfl⟩
    | _ =>
      rw [applyOps, GraphOp.evolveAll, (hrest _).1, (hrest _).2, hop.1, hop.2]
      · exact ⟨rfl, rfl⟩
      all_goals exact fun _ h => by cases h

end

theorem applyInner_schema (g : MaterializedGraph) (σ : HashOrder) (e : Entry)
    (mode : ValidationMode) (adopt : Bool) :
    (g.applyInner σ e mode adopt).ontology = e.payload.evolve adopt g.ontology ∧
      (g.applyInner σ e mode adopt).baseOntology = g.baseOntology :=
  applyPayload_schema σ mode adopt e e.payload g

theorem foldOntology_schema (g : MaterializedGraph) (e : Entry) :
    (g.foldOntology e).ontology = e.payload.declare g.ontology ∧
      (g.foldOntology e).baseOntology = g.baseOntology := by
  obtain ⟨hash, payload, next, refs, clock, author, signature⟩ := e
  cases payload with
  | extendOntology extension =>
    simp only [foldOntology, GraphOp.declare]
    split <;> rename_i h <;> rw [h] <;> exact ⟨rfl, rfl⟩
  | _ => exact ⟨rfl, rfl⟩

theorem materialize_schema (σ : HashOrder) (g : MaterializedGraph) (e : Entry) :
    (materialize σ g e).ontology = e.payload.redeclare g.ontology ∧
      (materialize σ g e).baseOntology = g.baseOntology := by
  rw [materialize, GraphOp.redeclare]
  split
  · exact ⟨rfl, rfl⟩
  · exact applyInner_schema g σ e .full false

/-- What each step does to the ontology, and that it leaves the base, goes through a replay. -/
theorem foldl_schema {f : MaterializedGraph → Entry → MaterializedGraph}
    (step : Ontology → Entry → Ontology)
    (hf : ∀ g e, (f g e).ontology = step g.ontology e ∧ (f g e).baseOntology = g.baseOntology)
    (es : List Entry) (g : MaterializedGraph) :
    (es.foldl f g).ontology = es.foldl step g.ontology ∧
      (es.foldl f g).baseOntology = g.baseOntology := by
  induction es generalizing g with
  | nil => exact ⟨rfl, rfl⟩
  | cons e es ih =>
    rw [List.foldl_cons, List.foldl_cons, (ih _).1, (ih _).2, (hf g e).1, (hf g e).2]
    exact ⟨rfl, rfl⟩

theorem applyAll_schema (g : MaterializedGraph) (σ : HashOrder) (es : List Entry) :
    (g.applyAll σ es).ontology = es.foldl (fun o e => e.payload.evolve true o) g.ontology ∧
      (g.applyAll σ es).baseOntology = g.baseOntology :=
  foldl_schema _ (fun g e => applyInner_schema g σ e .full true) es g

/-- **The ontology of a rebuild** depends on the base and the schema entries only. -/
theorem rebuild_schema (g : MaterializedGraph) (σ : HashOrder) (es : List Entry) :
    (g.rebuild σ es).ontology = effectiveOntology g.baseOntology es ∧
      (g.rebuild σ es).baseOntology = g.baseOntology := by
  have h₁ := foldl_schema (fun o e => e.payload.declare o) foldOntology_schema es
    (new g.baseOntology)
  have h₂ := foldl_schema (fun o e => e.payload.redeclare o) (materialize_schema σ) es
    (es.foldl foldOntology (new g.baseOntology))
  rw [rebuild, h₂.1, h₂.2, h₁.1, h₁.2]
  exact ⟨rfl, rfl⟩

/-- The graph that the second pass of a rebuild starts from. -/
def secondPass (base : Ontology) (es : List Entry) : MaterializedGraph :=
  es.foldl foldOntology (new base)

/-- The first pass builds no nodes and no edges, and holds none. -/
theorem entities_secondPass (base : Ontology) (es : List Entry) :
    (secondPass base es).nodes = ∅ ∧ (secondPass base es).edges = ∅ ∧
      (secondPass base es).pendingEdges = ∅ := by
  suffices h : ∀ g : MaterializedGraph,
      (es.foldl foldOntology g).nodes = g.nodes ∧ (es.foldl foldOntology g).edges = g.edges ∧
        (es.foldl foldOntology g).pendingEdges = g.pendingEdges from h (new base)
  induction es with
  | nil => exact fun g => ⟨rfl, rfl, rfl⟩
  | cons e es ih =>
    intro g
    have hone : (g.foldOntology e).nodes = g.nodes ∧ (g.foldOntology e).edges = g.edges ∧
        (g.foldOntology e).pendingEdges = g.pendingEdges := by
      rw [foldOntology]
      split
      · split <;> exact ⟨rfl, rfl, rfl⟩
      · exact ⟨rfl, rfl, rfl⟩
      · exact ⟨rfl, rfl, rfl⟩
    rw [List.foldl_cons, (ih _).1, (ih _).2.1, (ih _).2.2]
    exact hone

end MaterializedGraph

end SilkGraph
