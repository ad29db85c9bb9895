import Mathlib.Logic.Relation
import SilkGraph.Graph.Slots

/-!
# The elementary changes of a graph

However an entry reaches the graph, on its own, inside a checkpoint or as a held edge that
is retried, the graph changes by a sequence of elementary `Change`s, each of which says what
was checked before it was made (`applyPayload_changes`). A property that every `Change`
keeps is kept by every entry and holds after every rebuild.
-/

namespace SilkGraph

namespace MaterializedGraph

variable [Crates]

/-- An elementary change of a graph, with the check in front of it. -/
inductive Change : MaterializedGraph → MaterializedGraph → Prop where
  | quarantine (g : MaterializedGraph) (quarantined : HashMap Hash QuarantineRecord) :
      Change g { g with quarantined }
  | hold (g : MaterializedGraph) (pendingEdges : HashMap Hash Entry) :
      Change g { g with pendingEdges }
  | ontology (g : MaterializedGraph) (ontology : Ontology) : Change g { g with ontology }
  | addNode (g : MaterializedGraph) (mode : ValidationMode) (id ty : String) (st : Option String)
      (lb : String) (ps : BTreeMap String Value) (c : HybridClock)
      (valid : (g.ontology.validateNodeMode ty st ps mode).isOk) :
      Change g (g.applyAddNode id ty st lb ps c)
  | addEdge (g : MaterializedGraph) (mode : ValidationMode) (id ty src tgt : String)
      (ps : BTreeMap String Value) (c : HybridClock) (valid : g.acceptsEdge mode ty src tgt ps) :
      Change g (g.applyAddEdge id ty src tgt ps c)
  | updateProperty (g : MaterializedGraph) (id k : String) (v : Value) (c : HybridClock)
      (valid : (g.slot id).accepts g.ontology k v) : Change g (g.applyUpdateProperty id k v c)
  | removeNode (g : MaterializedGraph) (id : String) (c : HybridClock) :
      Change g (g.applyRemoveNode id c)
  | removeEdge (g : MaterializedGraph) (id : String) (c : HybridClock) :
      Change g (g.applyRemoveEdge id c)

/-- Any number of elementary changes. -/
abbrev Changes : MaterializedGraph → MaterializedGraph → Prop := Relation.ReflTransGen Change

variable {g g' : MaterializedGraph} {σ : HashOrder} {e : Entry}

/-- What every elementary change keeps is kept by any number of them. -/
theorem Changes.keep {P : MaterializedGraph → Prop} (step : ∀ g g', Change g g' → P g → P g')
    (h : Changes g g') (hg : P g) : P g' := by
  induction h with
  | refl => exact hg
  | tail _ hstep ih => exact step _ _ hstep ih

theorem release_changes (g : MaterializedGraph) (h : Hash) : Changes g (g.release h) :=
  .single (.quarantine g _)

theorem addEdgeArm_changes (g : MaterializedGraph) (e : Entry) (mode : ValidationMode)
    (id ty src tgt : String) (ps : BTreeMap String Value) :
    Changes g (g.addEdgeArm e mode id ty src tgt ps) := by
  obtain ⟨ha, -, h⟩ | ⟨-, -, r, h⟩ | ⟨-, -, r, h⟩ := addEdgeArm_cases g e mode id ty src tgt ps <;>
    rw [h]
  · exact .tail (release_changes g e.hash) (.addEdge (g.release e.hash) mode id ty src tgt ps e.clock ha)
  · exact .tail (.single (.hold g _)) (.quarantine _ _)
  · exact .single (.quarantine g _)

theorem retryEdge_changes (g : MaterializedGraph) (e : Entry) : Changes g (g.retryEdge e) := by
  rw [retryEdge]
  split
  · exact .head (.hold g _) (addEdgeArm_changes ..)
  · exact .single (.hold g _)

theorem foldl_changes {α : Type} {f : MaterializedGraph → α → MaterializedGraph}
    (hf : ∀ g a, Changes g (f g a)) (l : List α) (g : MaterializedGraph) :
    Changes g (l.foldl f g) := by
  induction l generalizing g with
  | nil => exact .refl
  | cons a l ih => exact (hf g a).trans (ih (f g a))

theorem addNodeArm_changes (g : MaterializedGraph) (σ : HashOrder) (e : Entry)
    (mode : ValidationMode) (id ty : String) (st : Option String) (lb : String)
    (ps : BTreeMap String Value) : Changes g (g.addNodeArm σ e mode id ty st lb ps) := by
  obtain ⟨-, r, h⟩ | ⟨hv, h⟩ := addNodeArm_spec g σ e mode id ty st lb ps <;> rw [h]
  · exact .single (.quarantine g _)
  · refine .trans (.tail (release_changes g e.hash) ?_) (foldl_changes retryEdge_changes _ _)
    exact .addNode (g.release e.hash) mode id ty st lb ps e.clock hv

theorem updatePropertyArm_changes (g : MaterializedGraph) (e : Entry) (id k : String) (v : Value) :
    Changes g (g.updatePropertyArm e id k v) := by
  have hverdict := isOk_updateVerdict g id k v
  rw [updatePropertyArm]
  split <;> rename_i h <;> rw [h] at hverdict
  · exact .single (.quarantine g _)
  · exact .tail (release_changes g e.hash) (.updateProperty (g.release e.hash) id k v e.clock hverdict.symm)

theorem extendOntologyArm_changes (g : MaterializedGraph) (e : Entry)
    (extension : OntologyExtension) : Changes g (g.extendOntologyArm e extension) := by
  rw [extendOntologyArm]
  split <;> rename_i o _
  · exact .tail (.single (.ontology g o)) (.quarantine _ _)
  · exact .tail (.single (.ontology g o)) (.quarantine _ _)

mutual

/-- Applying an operation is a sequence of elementary changes. -/
theorem applyPayload_changes (σ : HashOrder) (mode : ValidationMode) (adopt : Bool) (e : Entry) :
    ∀ (op : GraphOp) (g : MaterializedGraph), Changes g (applyPayload σ mode adopt e op g)
  | .checkpoint ops opClocks _ _, g => by
    rw [applyPayload]
    exact (applyOps_changes σ adopt e opClocks ops 0 g).trans (release_changes _ _)
  | .defineOntology _, g => .refl
  | .defineLens _, g => .refl
  | .extendOntology extension, g => extendOntologyArm_changes g e extension
  | .addNode id ty st lb ps, g => addNodeArm_changes g σ e mode id ty st lb ps
  | .addEdge id ty src tgt ps, g => addEdgeArm_changes g e mode id ty src tgt ps
  | .updateProperty id k v, g => updatePropertyArm_changes g e id k v
  | .removeNode id, g => .tail (release_changes g e.hash) (.removeNode _ id e.clock)
  | .removeEdge id, g => .tail (release_changes g e.hash) (.removeEdge _ id e.clock)

/-- So is applying the operations of a checkpoint. -/
theorem applyOps_changes (σ : HashOrder) (adopt : Bool) (e : Entry) (opClocks : List (ℕ × ℕ)) :
    ∀ (ops : List GraphOp) (i : ℕ) (g : MaterializedGraph),
      Changes g (applyOps σ adopt e opClocks ops i g)
  | [], i, g => by
    rw [applyOps]
  | op :: ops, i, g => by
    have hrest := applyOps_changes σ adopt e opClocks ops (i + 1)
    have hop := applyPayload_changes σ .skipRequired true
      (Entry.new op [] [] (opClock e opClocks i) e.author) op g
    cases op with
    | defineOntology carried =>
      rw [applyOps]
      refine .trans ?_ (hrest _)
      split
      · exact .single (.ontology g carried)
      · exact .refl
    | _ =>
      rw [applyOps]
      · exact hop.trans (hrest _)
      all_goals exact fun _ h => by cases h

end

theorem apply_changes (g : MaterializedGraph) (σ : HashOrder) (e : Entry) :
    Changes g (g.apply σ e) := applyPayload_changes σ .full true e e.payload g

theorem materialize_changes (σ : HashOrder) (g : MaterializedGraph) (e : Entry) :
    Changes g (materialize σ g e) := by
  rw [materialize]
  split
  · exact .refl
  · exact applyPayload_changes σ .full false e e.payload g

theorem foldOntology_changes (g : MaterializedGraph) (e : Entry) :
    Changes g (g.foldOntology e) := by
  rw [foldOntology]
  split
  · split <;> rename_i o _
    · exact .tail (.single (.ontology g o)) (.quarantine _ _)
    · exact .single (.ontology g o)
  · exact .single (.ontology g _)
  · exact .refl

/-- **Rebuilds.** A rebuilt graph comes about from an empty one by elementary changes. -/
theorem rebuild_changes (g : MaterializedGraph) (σ : HashOrder) (es : List Entry) :
    Changes (new g.baseOntology) (g.rebuild σ es) :=
  (foldl_changes foldOntology_changes es _).trans (foldl_changes (materialize_changes σ) es _)

end MaterializedGraph

end SilkGraph
