import SilkGraph.Graph.Determinism
import SilkGraph.Graph.Rebuild

/-!
# The indexes of a graph

Three maps are kept by hand beside the nodes and the edges: the ids of the nodes by type and
of the edges by source and by target. `Indexed` says that they are what they are meant to be;
every call keeps it (`indexed_run`). So the indexes follow from the nodes and the edges
(`Indexed.ext`), and an entity that is made once is listed under what it was made with.
-/

namespace SilkGraph

/-! ### One index -/

/-- The index lists under a key what the relation puts there, and has no empty rows. -/
structure IndexOf (index : HashMap String (HashSet String)) (R : String → String → Prop) : Prop where
  mem : ∀ k id, id ∈ index[k]?.getD ∅ ↔ R k id
  rows : ∀ (k : String) (s : HashSet String), index[k]? = some s → s ≠ ∅

namespace IndexOf

variable {index index' : HashMap String (HashSet String)} {R R' : String → String → Prop}
  {k id : String}

theorem empty : IndexOf ∅ fun _ _ => False := by
  refine ⟨fun k id => ?_, fun k s hs => ?_⟩
  · rw [Std.ExtTreeMap.getElem?_empty, Option.getD_none]
    simp
  · rw [Std.ExtTreeMap.getElem?_empty] at hs
    cases hs

theorem congr (h : IndexOf index R) (hR : ∀ k id, R' k id ↔ R k id) : IndexOf index R' :=
  ⟨fun k id => (h.mem k id).trans (hR k id).symm, h.rows⟩

theorem add (h : IndexOf index R) (k id : String) :
    IndexOf (addToIndex index k id) fun k' id' => R k' id' ∨ k = k' ∧ id = id' := by
  refine ⟨fun k' id' => ?_, fun k' s hs => ?_⟩
  · rw [addToIndex, HashMap.getElem?_insert]
    split
    · rename_i hk
      subst hk
      rw [Option.getD_some, HashSet.mem_insert, h.mem]
      tauto
    · rename_i hk
      rw [h.mem]
      tauto
  · rw [addToIndex, HashMap.getElem?_insert] at hs
    split at hs
    · obtain rfl := Option.some.inj hs
      intro hempty
      have : id ∈ (index[k]?.getD ∅).insert id := HashSet.mem_insert.mpr (.inl rfl)
      rw [hempty] at this
      exact Std.ExtTreeSet.not_mem_empty this
    · exact h.rows k' s hs

/-- An index is decided by its relation. -/
theorem unique (h : IndexOf index R) (h' : IndexOf index' R) : index = index' := by
  have hget : ∀ {index : HashMap String (HashSet String)}, IndexOf index R → ∀ k : String,
      index[k]? = if index[k]?.getD ∅ = ∅ then none else some (index[k]?.getD ∅) := by
    intro index h k
    cases hk : index[k]? with
    | none => simp
    | some s => simp [h.rows k s hk]
  refine Std.ExtTreeMap.ext_getElem? fun k => ?_
  have hrow : index[k]?.getD (∅ : HashSet String) = index'[k]?.getD ∅ := by
    ext id
    rw [h.mem, h'.mem]
  rw [hget h, hget h', hrow]

end IndexOf

namespace MaterializedGraph

/-! ### The indexes of a graph -/

/-- The indexes list every node under its type and every edge under its endpoints. -/
structure Indexed (g : MaterializedGraph) : Prop where
  byType : IndexOf g.byType fun ty id => ∃ nd, g.nodes[id]? = some nd ∧ nd.nodeType = ty
  outgoing : IndexOf g.outgoing fun src id => ∃ ed, g.edges[id]? = some ed ∧ ed.sourceId = src
  incoming : IndexOf g.incoming fun tgt id => ∃ ed, g.edges[id]? = some ed ∧ ed.targetId = tgt

namespace Indexed

variable {g g' : MaterializedGraph} {id : String} {nd nd' : Node} {ed ed' : Edge}

theorem new (o : Ontology) : (MaterializedGraph.new o).Indexed := by
  refine ⟨?_, ?_, ?_⟩ <;> refine IndexOf.empty.congr fun k id => ?_ <;> simp [MaterializedGraph.new]

/-- Only the entities and the indexes matter. -/
theorem congr (h : g.Indexed) (hn : g'.nodes = g.nodes) (he : g'.edges = g.edges)
    (hb : g'.byType = g.byType) (ho : g'.outgoing = g.outgoing) (hi : g'.incoming = g.incoming) :
    g'.Indexed := by
  refine ⟨?_, ?_, ?_⟩
  · rw [hb, hn]
    exact h.byType
  · rw [ho, he]
    exact h.outgoing
  · rw [hi, he]
    exact h.incoming

/-- The graph with the same entities has the same indexes. -/
theorem ext (h : g.Indexed) (h' : g'.Indexed) (hn : g'.nodes = g.nodes) (he : g'.edges = g.edges) :
    g'.byType = g.byType ∧ g'.outgoing = g.outgoing ∧ g'.incoming = g.incoming := by
  refine ⟨?_, ?_, ?_⟩
  · exact (hn ▸ h'.byType).unique h.byType
  · exact (he ▸ h'.outgoing).unique h.outgoing
  · exact (he ▸ h'.incoming).unique h.incoming

/-- A node that is rewritten keeps its type. -/
theorem setNode (h : g.Indexed) (hnd : g.nodes[id]? = some nd) (hty : nd'.nodeType = nd.nodeType) :
    ({ g with nodes := g.nodes.insert id nd' } : MaterializedGraph).Indexed := by
  refine ⟨h.byType.congr fun ty i => ?_, h.outgoing, h.incoming⟩
  rw [HashMap.getElem?_insert]
  split
  · rename_i hi
    subst hi
    simp [hnd, hty]
  · rfl

/-- An edge that is rewritten keeps its endpoints. -/
theorem setEdge (h : g.Indexed) (hed : g.edges[id]? = some ed) (hsrc : ed'.sourceId = ed.sourceId)
    (htgt : ed'.targetId = ed.targetId) :
    ({ g with edges := g.edges.insert id ed' } : MaterializedGraph).Indexed := by
  refine ⟨h.byType, h.outgoing.congr fun src i => ?_, h.incoming.congr fun tgt i => ?_⟩
  all_goals
    rw [HashMap.getElem?_insert]
    split
    · rename_i hi
      subst hi
      simp [hed, hsrc, htgt]
    · rfl

theorem applyAddNode (h : g.Indexed) (id ty : String) (st : Option String) (lb : String)
    (ps : BTreeMap String Value) (c : HybridClock) : (g.applyAddNode id ty st lb ps c).Indexed := by
  rw [MaterializedGraph.applyAddNode]
  split
  · rename_i nd hnd
    exact h.setNode hnd rfl
  · rename_i hnd
    refine ⟨(h.byType.add ty id).congr fun ty' i => ?_, h.outgoing, h.incoming⟩
    rw [HashMap.getElem?_insert]
    split
    · rename_i hi
      subst hi
      simp [hnd, Node.create]
    · rename_i hi
      simp [hi]

theorem applyAddEdge (h : g.Indexed) (id ty src tgt : String) (ps : BTreeMap String Value)
    (c : HybridClock) : (g.applyAddEdge id ty src tgt ps c).Indexed := by
  rw [MaterializedGraph.applyAddEdge]
  split
  · rename_i ed hed
    exact h.setEdge hed rfl rfl
  · rename_i hed
    refine ⟨h.byType, (h.outgoing.add src id).congr fun src' i => ?_,
      (h.incoming.add tgt id).congr fun tgt' i => ?_⟩
    all_goals
      rw [HashMap.getElem?_insert]
      split
      · rename_i hi
        subst hi
        simp [hed, Edge.create]
      · rename_i hi
        simp [hi]

theorem applyUpdateProperty (h : g.Indexed) (id k : String) (v : Value) (c : HybridClock) :
    (g.applyUpdateProperty id k v c).Indexed := by
  rw [MaterializedGraph.applyUpdateProperty]
  split
  · rename_i nd hnd
    exact h.setNode hnd rfl
  · split
    · rename_i ed hed
      exact h.setEdge hed rfl rfl
    · exact h

theorem applyRemoveNode (h : g.Indexed) (id : String) (c : HybridClock) :
    (g.applyRemoveNode id c).Indexed := by
  rw [MaterializedGraph.applyRemoveNode]
  split
  · rename_i nd hnd
    exact h.setNode hnd Node.remove_nodeType
  · exact h

theorem applyRemoveEdge (h : g.Indexed) (id : String) (c : HybridClock) :
    (g.applyRemoveEdge id c).Indexed := by
  rw [MaterializedGraph.applyRemoveEdge]
  split
  · rename_i ed hed
    have hends : (ed.remove c).sourceId = ed.sourceId ∧ (ed.remove c).targetId = ed.targetId := by
      rw [Edge.remove]
      split <;> exact ⟨rfl, rfl⟩
    exact h.setEdge hed hends.1 hends.2
  · exact h

theorem release (h : g.Indexed) (x : Hash) : (g.release x).Indexed := h.congr rfl rfl rfl rfl rfl

variable [Crates] {σ : HashOrder} {e : Entry}

theorem quarantine (h : g.Indexed) (x : Hash) (kind reason : String) :
    (g.quarantine x kind reason).Indexed := h.congr rfl rfl rfl rfl rfl

theorem addEdgeArm (h : g.Indexed) (e : Entry) (mode : ValidationMode) (id ty src tgt : String)
    (ps : BTreeMap String Value) : (g.addEdgeArm e mode id ty src tgt ps).Indexed := by
  obtain ⟨-, -, hg⟩ | ⟨-, -, r, hg⟩ | ⟨-, -, r, hg⟩ := addEdgeArm_cases g e mode id ty src tgt ps <;>
    rw [hg]
  · exact (h.release e.hash).applyAddEdge ..
  · exact h.congr rfl rfl rfl rfl rfl
  · exact h.quarantine ..

theorem retryPendingEdges (h : g.Indexed) (σ : HashOrder) : (g.retryPendingEdges σ).Indexed := by
  rw [retryPendingEdges_eq]
  generalize g.readyEdges σ = l
  induction l generalizing g with
  | nil => exact h
  | cons p l ih =>
    refine ih ?_
    have herase : ({ g with pendingEdges := g.pendingEdges.erase p.hash } : MaterializedGraph).Indexed :=
      h.congr rfl rfl rfl rfl rfl
    rw [retryEdge]
    split
    · exact herase.addEdgeArm ..
    · exact herase

/-- **Step.** An entry that is no checkpoint keeps the indexes. -/
theorem applyInner (h : g.Indexed) (σ : HashOrder) (hplain : e.payload.isCheckpoint = false)
    (mode : ValidationMode) (adopt : Bool) : (g.applyInner σ e mode adopt).Indexed := by
  rw [MaterializedGraph.applyInner]
  cases hp : e.payload with
  | checkpoint => rw [hp] at hplain; cases hplain
  | defineOntology | defineLens => exact h
  | extendOntology x =>
    rw [applyPayload, extendOntologyArm]
    split <;> exact h.congr rfl rfl rfl rfl rfl
  | addNode id ty st lb ps =>
    rw [applyPayload, addNodeArm]
    split
    · exact h.quarantine ..
    · exact ((h.release e.hash).applyAddNode ..).retryPendingEdges σ
  | addEdge id ty src tgt ps =>
    rw [applyPayload]
    exact h.addEdgeArm ..
  | updateProperty id k v =>
    rw [applyPayload, updatePropertyArm]
    split
    · exact h.quarantine ..
    · exact (h.release e.hash).applyUpdateProperty ..
  | removeNode id =>
    rw [applyPayload]
    exact (h.release e.hash).applyRemoveNode ..
  | removeEdge id =>
    rw [applyPayload]
    exact (h.release e.hash).applyRemoveEdge ..

/-- The indexes are kept by every action. -/
theorem invariant : Invariant Indexed where
  start o _ _ := (new o).congr rfl rfl rfl rfl rfl
  entry σ _ mode hplain h := h.applyInner σ hplain mode true
  adopt _ h := h.congr rfl rfl rfl rfl rfl
  release hash h := h.release hash

end Indexed

/-- **Run.** What every action keeps holds after any calls. -/
theorem Invariant.calls [Crates] {I : MaterializedGraph → Prop} (hI : Invariant I) (σ : HashOrder)
    (o : Ontology) (calls : List GraphCall) : I (calls.foldl (GraphCall.run σ) (new o)) := by
  suffices h : ∀ g : MaterializedGraph, I g → I (calls.foldl (GraphCall.run σ) g) from
    h _ (hI.start o o ∅)
  induction calls with
  | nil => exact fun g h => h
  | cons call calls ih =>
    intro g h
    refine ih _ ?_
    cases call with
    | apply entry => exact hI.applyAny h σ entry true
    | rebuild entries => exact hI.rebuild g σ entries

/-- The indexes are in step after any calls. -/
theorem indexed_run [Crates] (σ : HashOrder) (o : Ontology) (calls : List GraphCall) :
    (calls.foldl (GraphCall.run σ) (new o)).Indexed := Indexed.invariant.calls σ o calls

end MaterializedGraph

end SilkGraph
