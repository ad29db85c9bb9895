import SilkGraph.Graph.Schema

/-!
# What quarantine does not feed back

Quarantine records and the base ontology are written and never read while entries are
applied. Two graphs that differ in nothing else stay so (`applyInner_visible`), so what a
rebuild shows depends on its base only through the ontology the first pass ends with
(`rebuild_visible`).
-/

namespace SilkGraph

namespace MaterializedGraph

/-- The second graph is the first up to quarantine records and base ontology. -/
def Visible (g g' : MaterializedGraph) : Prop :=
  ∃ q base, g' = { g with quarantined := q, baseOntology := base }

variable {g g' g'' : MaterializedGraph}

theorem Visible.refl (g : MaterializedGraph) : Visible g g := ⟨g.quarantined, g.baseOntology, rfl⟩

theorem Visible.trans (h : Visible g g') (h' : Visible g' g'') : Visible g g'' := by
  obtain ⟨q, base, rfl⟩ := h
  obtain ⟨q', base', rfl⟩ := h'
  exact ⟨q', base', rfl⟩

theorem Visible.symm (h : Visible g g') : Visible g' g := by
  obtain ⟨q, base, rfl⟩ := h
  exact ⟨g.quarantined, g.baseOntology, rfl⟩

theorem Visible.release (h : Visible g g') (hash : Hash) :
    Visible (g.release hash) (g'.release hash) := by
  obtain ⟨q, base, rfl⟩ := h
  exact ⟨_, _, rfl⟩

theorem Visible.applyAddNode (h : Visible g g') (id ty : String) (st : Option String) (lb : String)
    (ps : BTreeMap String Value) (c : HybridClock) :
    Visible (g.applyAddNode id ty st lb ps c) (g'.applyAddNode id ty st lb ps c) := by
  obtain ⟨q, base, rfl⟩ := h
  simp only [MaterializedGraph.applyAddNode]
  split <;> exact ⟨_, _, rfl⟩

theorem Visible.applyAddEdge (h : Visible g g') (id ty src tgt : String)
    (ps : BTreeMap String Value) (c : HybridClock) :
    Visible (g.applyAddEdge id ty src tgt ps c) (g'.applyAddEdge id ty src tgt ps c) := by
  obtain ⟨q, base, rfl⟩ := h
  simp only [MaterializedGraph.applyAddEdge]
  split <;> exact ⟨_, _, rfl⟩

theorem Visible.applyUpdateProperty (h : Visible g g') (id k : String) (v : Value)
    (c : HybridClock) : Visible (g.applyUpdateProperty id k v c) (g'.applyUpdateProperty id k v c) := by
  obtain ⟨q, base, rfl⟩ := h
  simp only [MaterializedGraph.applyUpdateProperty]
  repeat' split
  all_goals exact ⟨_, _, rfl⟩

theorem Visible.applyRemoveNode (h : Visible g g') (id : String) (c : HybridClock) :
    Visible (g.applyRemoveNode id c) (g'.applyRemoveNode id c) := by
  obtain ⟨q, base, rfl⟩ := h
  simp only [MaterializedGraph.applyRemoveNode]
  split <;> exact ⟨_, _, rfl⟩

theorem Visible.applyRemoveEdge (h : Visible g g') (id : String) (c : HybridClock) :
    Visible (g.applyRemoveEdge id c) (g'.applyRemoveEdge id c) := by
  obtain ⟨q, base, rfl⟩ := h
  simp only [MaterializedGraph.applyRemoveEdge]
  split <;> exact ⟨_, _, rfl⟩

variable [Crates]

theorem Visible.addEdgeArm (h : Visible g g') (e : Entry) (mode : ValidationMode)
    (id ty src tgt : String) (ps : BTreeMap String Value) :
    Visible (g.addEdgeArm e mode id ty src tgt ps) (g'.addEdgeArm e mode id ty src tgt ps) := by
  have hadd := (h.release e.hash).applyAddEdge id ty src tgt ps e.clock
  obtain ⟨q, base, rfl⟩ := h
  simp only [MaterializedGraph.addEdgeArm]
  split
  · exact ⟨_, _, rfl⟩
  · split
    · split
      · exact ⟨_, _, rfl⟩
      · exact hadd
    · exact ⟨_, _, rfl⟩

theorem Visible.retryEdge (h : Visible g g') (e : Entry) :
    Visible (g.retryEdge e) (g'.retryEdge e) := by
  have hout : Visible { g with pendingEdges := g.pendingEdges.erase e.hash }
      { g' with pendingEdges := g'.pendingEdges.erase e.hash } := by
    obtain ⟨q, base, rfl⟩ := h
    exact ⟨q, base, rfl⟩
  have harm := hout.addEdgeArm e .full
  simp only [MaterializedGraph.retryEdge]
  split
  · exact harm _ _ _ _ _
  · obtain ⟨q, base, rfl⟩ := h
    exact ⟨q, base, rfl⟩

theorem Visible.retryPendingEdges (h : Visible g g') (σ : HashOrder) :
    Visible (g.retryPendingEdges σ) (g'.retryPendingEdges σ) := by
  have hfold : ∀ (l : List Entry) (g g' : MaterializedGraph), Visible g g' →
      Visible (l.foldl MaterializedGraph.retryEdge g) (l.foldl MaterializedGraph.retryEdge g') := by
    intro l
    induction l with
    | nil => exact fun _ _ h => h
    | cons e l ih => exact fun _ _ h => ih _ _ (h.retryEdge e)
  have hready : ((σ.walk g'.pendingEdges.toList).map Prod.snd).filter (fun e => g'.isReady e) =
      ((σ.walk g.pendingEdges.toList).map Prod.snd).filter fun e => g.isReady e := by
    obtain ⟨q, base, rfl⟩ := h
    rfl
  rw [MaterializedGraph.retryPendingEdges, MaterializedGraph.retryPendingEdges, hready]
  exact hfold _ g g' h

theorem Visible.addNodeArm (h : Visible g g') (σ : HashOrder) (e : Entry) (mode : ValidationMode)
    (id ty : String) (st : Option String) (lb : String) (ps : BTreeMap String Value) :
    Visible (g.addNodeArm σ e mode id ty st lb ps) (g'.addNodeArm σ e mode id ty st lb ps) := by
  have hadd := ((h.release e.hash).applyAddNode id ty st lb ps e.clock).retryPendingEdges σ
  have hont : g'.ontology = g.ontology := by
    obtain ⟨q, base, rfl⟩ := h
    rfl
  simp only [MaterializedGraph.addNodeArm, hont]
  split
  · obtain ⟨q, base, rfl⟩ := h
    exact ⟨_, _, rfl⟩
  · exact hadd

theorem Visible.updatePropertyArm (h : Visible g g') (e : Entry) (id k : String) (v : Value) :
    Visible (g.updatePropertyArm e id k v) (g'.updatePropertyArm e id k v) := by
  have hadd := (h.release e.hash).applyUpdateProperty id k v e.clock
  have hverdict : g'.updateVerdict id k v = g.updateVerdict id k v := by
    obtain ⟨q, base, rfl⟩ := h
    rfl
  simp only [MaterializedGraph.updatePropertyArm, hverdict]
  split
  · obtain ⟨q, base, rfl⟩ := h
    exact ⟨_, _, rfl⟩
  · exact hadd

theorem Visible.extendOntologyArm (h : Visible g g') (e : Entry) (x : OntologyExtension) :
    Visible (g.extendOntologyArm e x) (g'.extendOntologyArm e x) := by
  obtain ⟨q, base, rfl⟩ := h
  simp only [MaterializedGraph.extendOntologyArm]
  split <;> exact ⟨_, _, rfl⟩

mutual

theorem applyPayload_visible (σ : HashOrder) (mode : ValidationMode) (adopt : Bool) (e : Entry) :
    ∀ (op : GraphOp) {g g' : MaterializedGraph}, Visible g g' →
      Visible (applyPayload σ mode adopt e op g) (applyPayload σ mode adopt e op g')
  | .checkpoint ops opClocks _ _, _, _, h => by
    rw [applyPayload, applyPayload]
    exact (applyOps_visible σ adopt e opClocks ops 0 h).release e.hash
  | .extendOntology x, _, _, h => by
    rw [applyPayload, applyPayload]
    exact h.extendOntologyArm e x
  | .defineOntology _, _, _, h => h
  | .defineLens _, _, _, h => h
  | .addNode .., _, _, h => h.addNodeArm ..
  | .addEdge .., _, _, h => h.addEdgeArm ..
  | .updateProperty .., _, _, h => h.updatePropertyArm ..
  | .removeNode .., _, _, h => (h.release e.hash).applyRemoveNode ..
  | .removeEdge .., _, _, h => (h.release e.hash).applyRemoveEdge ..

theorem applyOps_visible (σ : HashOrder) (adopt : Bool) (e : Entry) (opClocks : List (ℕ × ℕ)) :
    ∀ (ops : List GraphOp) (i : ℕ) {g g' : MaterializedGraph}, Visible g g' →
      Visible (applyOps σ adopt e opClocks ops i g) (applyOps σ adopt e opClocks ops i g')
  | [], i, _, _, h => by
    rw [applyOps, applyOps]
    exact h
  | op :: ops, i, g, g', h => by
    have hop := applyPayload_visible σ .skipRequired true
      (Entry.new op [] [] (opClock e opClocks i) e.author) op h
    cases op with
    | defineOntology carried =>
      rw [applyOps, applyOps]
      refine applyOps_visible σ adopt e opClocks ops (i + 1) ?_
      obtain ⟨q, base, rfl⟩ := h
      cases adopt <;> exact ⟨q, base, rfl⟩
    | _ =>
      rw [applyOps, applyOps]
      · exact applyOps_visible σ adopt e opClocks ops (i + 1) hop
      all_goals exact fun _ h => by cases h

end

/-- The first pass of a rebuild builds nothing. -/
theorem foldOntology_visible (base : Ontology) (es : List Entry) :
    Visible (new (es.foldl (fun o e => e.payload.declare o) base))
      (es.foldl foldOntology (new base)) := by
  have hfold : ∀ (es : List Entry) (g : MaterializedGraph),
      Visible { g with ontology := es.foldl (fun o e => e.payload.declare o) g.ontology }
        (es.foldl foldOntology g) := by
    intro es
    induction es with
    | nil => exact fun g => .refl g
    | cons e es ih =>
      intro g
      obtain ⟨q, base, heq⟩ := ih (g.foldOntology e)
      have hstep : ∃ q, g.foldOntology e =
          { g with ontology := e.payload.declare g.ontology, quarantined := q } := by
        obtain ⟨hash, payload, next, refs, clock, author, signature⟩ := e
        cases payload with
        | extendOntology x =>
          simp only [foldOntology, GraphOp.declare]
          split <;> rename_i h <;> rw [h] <;> exact ⟨_, rfl⟩
        | _ => exact ⟨_, rfl⟩
      obtain ⟨q', hstep⟩ := hstep
      refine ⟨q, base, ?_⟩
      rw [List.foldl_cons, List.foldl_cons, heq, hstep]
  obtain ⟨q, b, heq⟩ := hfold es (new base)
  exact ⟨q, b, heq⟩

end MaterializedGraph

end SilkGraph
