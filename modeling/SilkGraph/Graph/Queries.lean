import SilkGraph.Graph.Restored
import SilkGraph.Ontology.Hierarchy

/-!
# The queries of a graph

`nodes_by_type`, `outgoing_edges` and `incoming_edges` go through the indexes and drop what is
tombstoned on the way. In every graph that calls lead to the indexes are in step and the
entities lie under their identifiers (`Coherent`), so the three come down to the tables of
nodes and edges: types are looked up with their subclasses (`nodes_by_type_exact`), and the
edges of a live node are those of `all_edges`. `outgoing_edges` does not ask whether the node
itself is live, though, so a removed node keeps its edges to live ones (`edges_agree_iff`).
-/

namespace SilkGraph

namespace MaterializedGraph

/-- Query all live nodes of a given type, including descendants. -/
def nodesByType (self : MaterializedGraph) (σ : HashOrder) (nodeType : String) : List Node :=
  ((nodeType :: self.ontology.descendants nodeType).flatMap fun t =>
    match self.byType[t]? with
    | some ids => σ.walk ids.toList
    | none => []).filterMap self.getNode

/-- Outgoing edges of a node: the live ones with a live target. -/
def outgoingEdges (self : MaterializedGraph) (σ : HashOrder) (nodeId : String) : List Edge :=
  match self.outgoing[nodeId]? with
  | some edgeIds =>
    ((σ.walk edgeIds.toList).filterMap self.getEdge).filter fun e => self.isNodeLive e.targetId
  | none => []

/-- Incoming edges of a node: the live ones with a live source. -/
def incomingEdges (self : MaterializedGraph) (σ : HashOrder) (nodeId : String) : List Edge :=
  match self.incoming[nodeId]? with
  | some edgeIds =>
    ((σ.walk edgeIds.toList).filterMap self.getEdge).filter fun e => self.isNodeLive e.sourceId
  | none => []

variable {b g g' : MaterializedGraph} {σ : HashOrder} {id : String}

/-! ### What is visible -/

/-- An edge by id, if it is one of `allEdges`. -/
def visibleEdge (self : MaterializedGraph) (edgeId : String) : Option Edge :=
  self.edges[edgeId]?.filter fun e =>
    !e.tombstoned && self.isNodeLive e.sourceId && self.isNodeLive e.targetId

theorem isNodeLive_iff : g.isNodeLive id = true ↔ (g.getNode id).isSome = true := by
  rw [isNodeLive, getNode]
  cases g.nodes[id]? with
  | none => simp
  | some nd => cases h : nd.tombstoned <;> simp [h, Option.filter]

theorem visibleEdge_eq_some {ed : Edge} : g.visibleEdge id = some ed ↔ g.edges[id]? = some ed ∧
    ed.tombstoned = false ∧ (g.getNode ed.sourceId).isSome = true ∧
      (g.getNode ed.targetId).isSome = true := by
  rw [visibleEdge, Option.filter_eq_some_iff, Bool.and_eq_true, Bool.and_eq_true, isNodeLive_iff,
    isNodeLive_iff, Bool.not_eq_true', and_assoc]

/-- A walk of a map passes each key once. -/
theorem filter_walk {V : Type} (σ : HashOrder) (m : HashMap String V) (k : String) :
    (σ.walk m.toList).filter (fun kv => kv.1 = k) = (m[k]?.map (Prod.mk k)).toList := by
  have hnd : m.toList.Nodup := Std.ExtTreeMap.distinct_keys_toList.imp fun h heq =>
    h (Std.compare_eq_iff_eq.mpr (congrArg Prod.fst heq))
  have hperm := ((σ.perm m.toList).filter fun kv => decide (kv.1 = k))
  have hmem : ∀ kv, kv ∈ (σ.walk m.toList).filter (fun kv => decide (kv.1 = k)) ↔
      m[k]? = some kv.2 ∧ kv.1 = k := by
    rintro ⟨a, v⟩
    rw [List.mem_filter, HashOrder.mem_walk, HashMap.mem_toList, decide_eq_true_eq]
    refine and_congr_left fun ha => ?_
    subst ha
    rfl
  have hnd' : ((σ.walk m.toList).filter fun kv => decide (kv.1 = k)).Nodup :=
    hperm.nodup_iff.mpr (hnd.filter _)
  cases hk : m[k]? with
  | none =>
    refine List.eq_nil_iff_forall_not_mem.mpr fun kv hkv => ?_
    rw [hmem, hk] at hkv
    cases hkv.1
  | some v =>
    refine List.perm_singleton.mp ((List.perm_ext_iff_of_nodup hnd' (List.nodup_singleton _)).mpr ?_)
    rintro ⟨a, w⟩
    rw [hmem, hk, List.mem_singleton, Prod.mk.injEq, Option.some.injEq]
    exact ⟨fun h => ⟨h.2, h.1.symm⟩, fun h => ⟨h.2.symm, h.1⟩⟩

/-- Of the live nodes one at most has an identifier. -/
theorem filter_allNodes (hg : ∀ id, (g.slot id).Sound id) (σ : HashOrder) (id : String) :
    (g.allNodes σ).filter (fun n => n.nodeId = id) = (g.getNode id).toList := by
  have hkeys : ∀ kv ∈ σ.walk g.nodes.toList, (decide (kv.2.nodeId = id)) = decide (kv.1 = id) := by
    rintro ⟨a, nd⟩ hkv
    rw [HashOrder.mem_walk, HashMap.mem_toList] at hkv
    rw [((hg a).node nd hkv).1]
  have hswap : (g.allNodes σ).filter (fun n => n.nodeId = id) =
      (((σ.walk g.nodes.toList).filter fun kv => decide (kv.2.nodeId = id)).map Prod.snd).filter
        fun n => !n.tombstoned := by
    rw [allNodes, List.filter_filter, List.filter_map, List.filter_map, List.filter_filter]
    exact congrArg _ (List.filter_congr fun kv _ => Bool.and_comm ..)
  rw [hswap, List.filter_congr hkeys, filter_walk, getNode]
  cases g.nodes[id]? with
  | none => rfl
  | some nd => cases h : nd.tombstoned <;> simp [h, Option.filter]

/-- Of the visible edges one at most has an identifier. -/
theorem filter_allEdges (hg : ∀ id, (g.slot id).Sound id) (σ : HashOrder) (id : String) :
    (g.allEdges σ).filter (fun e => e.edgeId = id) = (g.visibleEdge id).toList := by
  have hkeys : ∀ kv ∈ σ.walk g.edges.toList, (decide (kv.2.edgeId = id)) = decide (kv.1 = id) := by
    rintro ⟨a, ed⟩ hkv
    rw [HashOrder.mem_walk, HashMap.mem_toList] at hkv
    rw [((hg a).edge ed hkv).1]
  let seen : Edge → Bool := fun e =>
    !e.tombstoned && g.isNodeLive e.sourceId && g.isNodeLive e.targetId
  have hswap : (g.allEdges σ).filter (fun e => e.edgeId = id) =
      (((σ.walk g.edges.toList).filter fun kv => decide (kv.2.edgeId = id)).map Prod.snd).filter seen := by
    rw [allEdges, List.filter_filter, List.filter_map, List.filter_map, List.filter_filter]
    exact congrArg _ (List.filter_congr fun kv _ => Bool.and_comm ..)
  rw [hswap, List.filter_congr hkeys, filter_walk, visibleEdge]
  change _ = (g.edges[id]?.filter seen).toList
  cases g.edges[id]? with
  | none => rfl
  | some ed => cases h : seen ed <;> simp [h, Option.filter]

theorem mem_allNodes (hg : ∀ id, (g.slot id).Sound id) {nd : Node} :
    nd ∈ g.allNodes σ ↔ g.getNode nd.nodeId = some nd := by
  have := filter_allNodes hg σ nd.nodeId
  rw [← Option.mem_toList, ← this, List.mem_filter]
  simp

theorem mem_allEdges (hg : ∀ id, (g.slot id).Sound id) {ed : Edge} :
    ed ∈ g.allEdges σ ↔ g.visibleEdge ed.edgeId = some ed := by
  have := filter_allEdges hg σ ed.edgeId
  rw [← Option.mem_toList, ← this, List.mem_filter]
  simp

/-! ### What the queries rely on -/

/-- The indexes are in step, and what lies under an identifier has it. -/
structure Coherent (g : MaterializedGraph) : Prop where
  indexed : g.Indexed
  sound : ∀ id, (g.slot id).Sound id

/-- **Run.** Every graph that calls lead to is coherent. -/
theorem coherent_run [Crates] (σ : HashOrder) (o : Ontology) (calls : List GraphCall) :
    (calls.foldl (GraphCall.run σ) (new o)).Coherent :=
  ⟨indexed_run σ o calls, sound_invariant.calls σ o calls⟩

/-- Looking identifiers up gives entities that have them. -/
theorem map_filterMap_sublist {β : Type} {look : String → Option β} {key : β → String}
    (h : ∀ id x, look id = some x → key x = id) (ids : List String) :
    ((ids.filterMap look).map key).Sublist ids := by
  induction ids with
  | nil => exact List.Sublist.refl []
  | cons id ids ih =>
    rw [List.filterMap_cons]
    cases hx : look id with
    | none => exact ih.cons id
    | some x =>
      rw [List.map_cons, h id x hx]
      exact ih.cons_cons id

/-- A walk of a map passes each key once. -/
theorem nodup_walk_keys {V : Type} (σ : HashOrder) (m : HashMap String V) :
    ((σ.walk m.toList).map Prod.fst).Nodup := by
  refine ((σ.perm m.toList).map Prod.fst).nodup_iff.mpr (List.pairwise_map.mpr ?_)
  exact Std.ExtTreeMap.distinct_keys_toList.imp fun h heq => h (Std.compare_eq_iff_eq.mpr heq)

/-- The ids in the row of an index. -/
def row (index : HashMap String (HashSet String)) (σ : HashOrder) (key : String) : List String :=
  match index[key]? with
  | some ids => σ.walk ids.toList
  | none => []

theorem mem_row {index : HashMap String (HashSet String)} {R : String → String → Prop}
    (h : IndexOf index R) {key : String} : id ∈ row index σ key ↔ R key id := by
  rw [← h.mem, row]
  cases index[key]? with
  | none => simp
  | some ids => rw [HashOrder.mem_walk, Std.ExtTreeSet.mem_toList, Option.getD_some]

theorem nodup_row (index : HashMap String (HashSet String)) (σ : HashOrder) (key : String) :
    (row index σ key).Nodup := by
  rw [row]
  cases index[key]? with
  | none => exact List.nodup_nil
  | some ids => exact (σ.perm _).nodup_iff.mpr HashSet.nodup_toList

namespace Coherent

variable {nd : Node} {ed : Edge} {n ty : String}

theorem edgeId_of_getEdge (hg : g.Coherent) (h : g.getEdge id = some ed) : ed.edgeId = id :=
  ((hg.sound id).edge ed (getEdge_eq_some_iff.mp h).1).1

theorem nodeId_of_getNode (hg : g.Coherent) (h : g.getNode id = some nd) : nd.nodeId = id :=
  ((hg.sound id).node nd (getNode_eq_some_iff.mp h).1).1

/-- Every live node is listed once. -/
theorem nodup_allNodes (hg : g.Coherent) (σ : HashOrder) :
    ((g.allNodes σ).map Node.nodeId).Nodup := by
  have hkeys : ((σ.walk g.nodes.toList).map Prod.snd).map Node.nodeId =
      (σ.walk g.nodes.toList).map Prod.fst := by
    rw [List.map_map]
    refine List.map_congr_left fun kv hkv => ?_
    rw [HashOrder.mem_walk, HashMap.mem_toList] at hkv
    exact ((hg.sound kv.1).node kv.2 hkv).1
  exact (hkeys ▸ nodup_walk_keys σ g.nodes).sublist (List.filter_sublist.map Node.nodeId)

/-- Every visible edge is listed once. -/
theorem nodup_allEdges (hg : g.Coherent) (σ : HashOrder) :
    ((g.allEdges σ).map Edge.edgeId).Nodup := by
  have hkeys : ((σ.walk g.edges.toList).map Prod.snd).map Edge.edgeId =
      (σ.walk g.edges.toList).map Prod.fst := by
    rw [List.map_map]
    refine List.map_congr_left fun kv hkv => ?_
    rw [HashOrder.mem_walk, HashMap.mem_toList] at hkv
    exact ((hg.sound kv.1).edge kv.2 hkv).1
  exact (hkeys ▸ nodup_walk_keys σ g.edges).sublist (List.filter_sublist.map Edge.edgeId)

theorem mem_allEdges_iff (hg : g.Coherent) : ed ∈ g.allEdges σ ↔ g.getEdge ed.edgeId = some ed ∧
    g.isNodeLive ed.sourceId = true ∧ g.isNodeLive ed.targetId = true := by
  rw [mem_allEdges hg.sound, visibleEdge_eq_some, getEdge_eq_some_iff, isNodeLive_iff, isNodeLive_iff,
    and_assoc]

/-! ### Types -/

theorem nodesByType_eq (g : MaterializedGraph) (σ : HashOrder) (ty : String) :
    g.nodesByType σ ty =
      ((ty :: g.ontology.descendants ty).flatMap (row g.byType σ)).filterMap g.getNode := rfl

/-- No type is its own descendant, so the rows that are read are different ones. -/
theorem nodup_types (o : Ontology) (ty : String) : (ty :: o.descendants ty).Nodup := by
  refine List.nodup_cons.mpr ⟨fun h => (Ontology.mem_descendants.mp h).1 rfl, ?_⟩
  exact Std.ExtTreeMap.nodup_keys.filter _

/-- No node is listed twice, since it has one type. -/
theorem nodup_nodesByType (hg : g.Coherent) (σ : HashOrder) (ty : String) :
    ((g.nodesByType σ ty).map Node.nodeId).Nodup := by
  refine List.Nodup.sublist (map_filterMap_sublist (fun id nd => hg.nodeId_of_getNode) _) ?_
  refine List.nodup_flatMap.mpr ⟨fun t _ => nodup_row g.byType σ t, ?_⟩
  refine (nodup_types g.ontology ty).imp fun {t t'} hne id hid hid' => hne ?_
  obtain ⟨nd, hnd, rfl⟩ := (mem_row hg.indexed.byType).mp hid
  obtain ⟨nd', hnd', rfl⟩ := (mem_row hg.indexed.byType).mp hid'
  rw [Option.some.inj (hnd.symm.trans hnd')]

theorem mem_nodesByType (hg : g.Coherent) : nd ∈ g.nodesByType σ ty ↔ nd ∈ g.allNodes σ ∧
    (nd.nodeType = ty ∨ ty ∈ g.ontology.ancestors nd.nodeType) := by
  have htypes : ∀ t, t ∈ ty :: g.ontology.descendants ty ↔ t = ty ∨ ty ∈ g.ontology.ancestors t := by
    intro t
    rw [List.mem_cons, Ontology.mem_descendants, Ontology.isSubtypeOf_iff]
    tauto
  rw [mem_allNodes hg.sound, nodesByType_eq, List.mem_filterMap, ← htypes]
  simp only [List.mem_flatMap, mem_row hg.indexed.byType]
  constructor
  · rintro ⟨id, ⟨t, ht, nd', hnd', rfl⟩, hnd⟩
    obtain rfl := Option.some.inj (hnd'.symm.trans (getNode_eq_some_iff.mp hnd).1)
    exact ⟨hg.nodeId_of_getNode hnd ▸ hnd, ht⟩
  · rintro ⟨hnd, ht⟩
    exact ⟨nd.nodeId, ⟨nd.nodeType, ht, nd, (getNode_eq_some_iff.mp hnd).1, rfl⟩, hnd⟩

/-! ### Edges -/

theorem outgoingEdges_eq (g : MaterializedGraph) (σ : HashOrder) (n : String) :
    g.outgoingEdges σ n =
      ((row g.outgoing σ n).filterMap g.getEdge).filter fun e => g.isNodeLive e.targetId := by
  rw [outgoingEdges, row]
  cases g.outgoing[n]? <;> rfl

theorem incomingEdges_eq (g : MaterializedGraph) (σ : HashOrder) (n : String) :
    g.incomingEdges σ n =
      ((row g.incoming σ n).filterMap g.getEdge).filter fun e => g.isNodeLive e.sourceId := by
  rw [incomingEdges, row]
  cases g.incoming[n]? <;> rfl

theorem mem_outgoingEdges (hg : g.Coherent) : ed ∈ g.outgoingEdges σ n ↔
    g.getEdge ed.edgeId = some ed ∧ ed.sourceId = n ∧ g.isNodeLive ed.targetId = true := by
  rw [outgoingEdges_eq, List.mem_filter, List.mem_filterMap]
  simp only [mem_row hg.indexed.outgoing]
  constructor
  · rintro ⟨⟨id, ⟨ed', hed', rfl⟩, hed⟩, hlive⟩
    obtain rfl := Option.some.inj (hed'.symm.trans (getEdge_eq_some_iff.mp hed).1)
    exact ⟨hg.edgeId_of_getEdge hed ▸ hed, rfl, hlive⟩
  · rintro ⟨hed, hsrc, hlive⟩
    exact ⟨⟨ed.edgeId, ⟨ed, (getEdge_eq_some_iff.mp hed).1, hsrc⟩, hed⟩, hlive⟩

theorem mem_incomingEdges (hg : g.Coherent) : ed ∈ g.incomingEdges σ n ↔
    g.getEdge ed.edgeId = some ed ∧ ed.targetId = n ∧ g.isNodeLive ed.sourceId = true := by
  rw [incomingEdges_eq, List.mem_filter, List.mem_filterMap]
  simp only [mem_row hg.indexed.incoming]
  constructor
  · rintro ⟨⟨id, ⟨ed', hed', rfl⟩, hed⟩, hlive⟩
    obtain rfl := Option.some.inj (hed'.symm.trans (getEdge_eq_some_iff.mp hed).1)
    exact ⟨hg.edgeId_of_getEdge hed ▸ hed, rfl, hlive⟩
  · rintro ⟨hed, htgt, hlive⟩
    exact ⟨⟨ed.edgeId, ⟨ed, (getEdge_eq_some_iff.mp hed).1, htgt⟩, hed⟩, hlive⟩

theorem nodup_outgoingEdges (hg : g.Coherent) (σ : HashOrder) (n : String) :
    ((g.outgoingEdges σ n).map Edge.edgeId).Nodup := by
  rw [outgoingEdges_eq]
  refine List.Nodup.sublist (List.filter_sublist.map Edge.edgeId) ?_
  exact (nodup_row _ σ n).sublist (map_filterMap_sublist (fun id ed => hg.edgeId_of_getEdge) _)

theorem nodup_incomingEdges (hg : g.Coherent) (σ : HashOrder) (n : String) :
    ((g.incomingEdges σ n).map Edge.edgeId).Nodup := by
  rw [incomingEdges_eq]
  refine List.Nodup.sublist (List.filter_sublist.map Edge.edgeId) ?_
  exact (nodup_row _ σ n).sublist (map_filterMap_sublist (fun id ed => hg.edgeId_of_getEdge) _)

end Coherent

/-- **Types are queried with their subclasses.** After any calls, the live nodes of a type and
of the types below it are listed, each once and no others. -/
theorem nodes_by_type_exact [Crates] (σ σ' : HashOrder) (o : Ontology) (calls : List GraphCall)
    (ty : String) :
    let g := calls.foldl (GraphCall.run σ) (new o)
    (∀ nd, nd ∈ g.nodesByType σ' ty ↔ nd ∈ g.allNodes σ' ∧
        (nd.nodeType = ty ∨ ty ∈ g.ontology.ancestors nd.nodeType)) ∧
      ((g.nodesByType σ' ty).map Node.nodeId).Nodup := by
  intro g
  have hg : g.Coherent := coherent_run σ o calls
  exact ⟨fun nd => hg.mem_nodesByType, hg.nodup_nodesByType σ' ty⟩

/-! ### Edges of removed nodes -/

/-- The two indexes give the edges of a node that `all_edges` has, each once. -/
structure EdgesAgree (g : MaterializedGraph) (σ : HashOrder) (n : String) : Prop where
  outgoing : ∀ ed, ed ∈ g.outgoingEdges σ n ↔ ed ∈ g.allEdges σ ∧ ed.sourceId = n
  incoming : ∀ ed, ed ∈ g.incomingEdges σ n ↔ ed ∈ g.allEdges σ ∧ ed.targetId = n
  outgoingOnce : ((g.outgoingEdges σ n).map Edge.edgeId).Nodup
  incomingOnce : ((g.incomingEdges σ n).map Edge.edgeId).Nodup

/-- The node is live, or no edge that is left joins it to a live one. -/
def LiveOrApart (g : MaterializedGraph) (n : String) : Prop :=
  g.isNodeLive n = true ∨ ∀ id ed, g.getEdge id = some ed →
    (ed.sourceId = n → g.isNodeLive ed.targetId = false) ∧
      (ed.targetId = n → g.isNodeLive ed.sourceId = false)

/-- **The edge indexes** of a node agree with the edge table, in a graph after any calls, if
and only if the node is live or no untombstoned edge joins it to a live node. -/
theorem edges_agree_iff [Crates] (σ σ' : HashOrder) (o : Ontology) (calls : List GraphCall)
    (n : String) :
    let g := calls.foldl (GraphCall.run σ) (new o)
    g.EdgesAgree σ' n ↔ g.LiveOrApart n := by
  intro g
  have hg : g.Coherent := coherent_run σ o calls
  constructor
  · intro h
    by_cases hn : g.isNodeLive n = true
    · exact .inl hn
    refine .inr fun id ed hed => ⟨fun hsrc => ?_, fun htgt => ?_⟩
    · -- else the index has the edge, and with it `all_edges`, which asks for both endpoints
      by_contra hlive
      have hin := (hg.mem_outgoingEdges (σ := σ')).mpr
        ⟨hg.edgeId_of_getEdge hed ▸ hed, hsrc, Bool.not_eq_false _ ▸ hlive⟩
      have hall := (hg.mem_allEdges_iff.mp ((h.outgoing ed).mp hin).1).2.1
      exact hn (hsrc ▸ hall)
    · by_contra hlive
      have hin := (hg.mem_incomingEdges (σ := σ')).mpr
        ⟨hg.edgeId_of_getEdge hed ▸ hed, htgt, Bool.not_eq_false _ ▸ hlive⟩
      have hall := (hg.mem_allEdges_iff.mp ((h.incoming ed).mp hin).1).2.2
      exact hn (htgt ▸ hall)
  · intro h
    refine ⟨fun ed => ?_, fun ed => ?_, hg.nodup_outgoingEdges σ' n, hg.nodup_incomingEdges σ' n⟩
    · rw [hg.mem_outgoingEdges, hg.mem_allEdges_iff]
      constructor
      · rintro ⟨hed, rfl, hlive⟩
        obtain hn | happart := h
        · exact ⟨⟨hed, hn, hlive⟩, rfl⟩
        · exact absurd hlive (by rw [(happart _ ed hed).1 rfl]; exact Bool.false_ne_true)
      · rintro ⟨⟨hed, -, hlive⟩, hsrc⟩
        exact ⟨hed, hsrc, hlive⟩
    · rw [hg.mem_incomingEdges, hg.mem_allEdges_iff]
      constructor
      · rintro ⟨hed, rfl, hlive⟩
        obtain hn | happart := h
        · exact ⟨⟨hed, hlive, hn⟩, rfl⟩
        · exact absurd hlive (by rw [(happart _ ed hed).2 rfl]; exact Bool.false_ne_true)
      · rintro ⟨⟨hed, hlive, -⟩, htgt⟩
        exact ⟨hed, htgt, hlive⟩

end MaterializedGraph

namespace Sample

/-- Ann knows Bob. -/
def meeting : List MaterializedGraph.GraphCall :=
  [.apply (.new (.addNode "ann" "person" none "Ann" ∅) [] [] ⟨"a", 1, 0⟩ "a"),
    .apply (.new (.addNode "bob" "person" none "Bob" ∅) [] [] ⟨"a", 2, 0⟩ "a"),
    .apply (.new (.addEdge "e" "knows" "ann" "bob" ∅) [] [] ⟨"a", 3, 0⟩ "a")]

/-- And then Ann is removed. -/
def departure : List MaterializedGraph.GraphCall :=
  meeting ++ [.apply (.new (.removeNode "ann") [] [] ⟨"a", 4, 0⟩ "a")]

end Sample

namespace MaterializedGraph

open Sample in
/-- The edge still leaves Ann, and is none of all edges. -/
theorem departed_keeps_edges : ¬ ∀ (σ : HashOrder) (o : Ontology) (calls : List GraphCall) (n : String),
    (calls.foldl (GraphCall.run σ) (new o)).EdgesAgree σ n := by
  intro h
  have hagree := (h .keyOrder guests departure "ann").outgoing
  have hall : ((departure.foldl (GraphCall.run .keyOrder) (new guests)).allEdges .keyOrder).isEmpty = true := by
    decide +kernel
  have hout : ((departure.foldl (GraphCall.run .keyOrder) (new guests)).outgoingEdges .keyOrder
      "ann").isEmpty = false := by
    decide +kernel
  obtain ⟨ed, hed⟩ := List.exists_mem_of_ne_nil _ (List.isEmpty_eq_false_iff.mp hout)
  have hin := ((hagree ed).mp hed).1
  rw [List.isEmpty_iff.mp hall] at hin
  cases hin

end MaterializedGraph

end SilkGraph
