import SilkGraph.Graph.Actions
import SilkGraph.Graph.Changes
import SilkGraph.Graph.Schema
import SilkGraph.GraphStore.ReadBack

/-!
# The map of node types

`node_types` is to hold the live nodes of the graph with their types. A rebuild computes it
from the graph, but single entries update it from their payload, whatever the graph made of
them. `node_types_mirror` gives the condition on every step under which the two agree
throughout a run: an added node is accepted and keeps its type, a removed one is no younger
than the removal.
-/

namespace SilkGraph

namespace MaterializedGraph

/-- The type of the live node of an identifier. -/
def liveType (self : MaterializedGraph) (id : String) : Option String :=
  (self.getNode id).map Node.nodeType

/-- Every node is stored under its own identifier. -/
def Keyed (self : MaterializedGraph) : Prop :=
  ∀ (id : String) (nd : Node), self.nodes[id]? = some nd → nd.nodeId = id

variable {g g' : MaterializedGraph} {id ty lb k i : String} {st : Option String}
  {ps : BTreeMap String Value} {c : HybridClock} {v : Value} {nd : Node}

theorem liveType_congr (h : g.nodes = g'.nodes) : g.liveType = g'.liveType := by
  funext i
  rw [liveType, liveType, getNode, getNode, h]

theorem liveType_of_nodes (h : g.nodes[i]? = some nd) :
    g.liveType i = if nd.tombstoned then none else some nd.nodeType := by
  rw [liveType, getNode, h]
  cases ht : nd.tombstoned <;> simp [ht]

theorem liveType_of_none (h : g.nodes[i]? = none) : g.liveType i = none := by
  rw [liveType, getNode, h]
  rfl

theorem liveType_insert (g : MaterializedGraph) (id : String) (nd : Node) (i : String) :
    ({ g with nodes := g.nodes.insert id nd } : MaterializedGraph).liveType i =
      if id = i then (if nd.tombstoned then none else some nd.nodeType) else g.liveType i := by
  split
  · rename_i h
    exact liveType_of_nodes (by simp [h])
  · rename_i h
    have hget : ({ g with nodes := g.nodes.insert id nd } : MaterializedGraph).nodes[i]? =
        g.nodes[i]? := by simp [HashMap.getElem?_insert, h]
    rw [liveType, getNode, hget]
    rfl

/-- An `AddNode` leaves a live node, of the type it had. -/
theorem liveType_applyAddNode (g : MaterializedGraph) (id ty : String) (st : Option String)
    (lb : String) (ps : BTreeMap String Value) (c : HybridClock) (i : String) :
    (g.applyAddNode id ty st lb ps c).liveType i =
      if id = i then some ((g.typeOf id).getD ty) else g.liveType i := by
  rw [applyAddNode, typeOf]
  split <;> rename_i h
  · rw [liveType_insert, h]
    rfl
  · rw [h]
    exact liveType_insert { g with byType := addToIndex g.byType ty id } id
      (Node.create id ty st lb ps c) i

/-- A removal at the clock leaves no live node: it is later than the last add. -/
def Removes (self : MaterializedGraph) (id : String) (c : HybridClock) : Prop :=
  ∀ nd ∈ self.getNode id, nd.lastAddClock < c

instance (g : MaterializedGraph) (id : String) (c : HybridClock) : Decidable (g.Removes id c) :=
  inferInstanceAs (Decidable (∀ nd ∈ g.getNode id, nd.lastAddClock < c))

theorem liveType_applyRemoveNode (g : MaterializedGraph) (id : String) (c : HybridClock)
    (i : String) : (g.applyRemoveNode id c).liveType i =
      if id = i ∧ g.Removes id c then none else g.liveType i := by
  rw [applyRemoveNode]
  by_cases hid : id = i
  · subst hid
    split <;> rename_i hn
    · rename_i nd
      rw [liveType_insert, if_pos rfl, liveType_of_nodes hn]
      have hlive : g.Removes id c ↔ (nd.tombstoned = false → nd.lastAddClock < c) := by
        simp only [Removes, Option.mem_def, getNode_eq_some_iff, hn, Option.some.injEq]
        constructor
        · exact fun h ht => h nd ⟨rfl, ht⟩
        · rintro h n ⟨rfl, ht⟩
          exact h ht
      simp only [true_and, hlive]
      obtain hlt | hle := lt_or_ge nd.lastAddClock c
      · rw [Node.remove_of_lt hlt]
        simp [hlt]
      · rw [Node.remove_of_le hle]
        cases nd.tombstoned <;> simp [not_lt.mpr hle]
    · simp [liveType_of_none hn]
  · rw [if_neg fun h => hid h.1]
    split
    · rw [liveType_insert, if_neg hid]
    · rfl

/-- Nothing else concerns a live node. -/
theorem liveType_applyUpdateProperty (g : MaterializedGraph) (id k : String) (v : Value)
    (c : HybridClock) : (g.applyUpdateProperty id k v c).liveType = g.liveType := by
  funext i
  rw [applyUpdateProperty]
  split <;> rename_i hn
  · rw [liveType_insert]
    split
    · rename_i hid
      rw [← hid, liveType_of_nodes hn]
      rfl
    · rfl
  · split <;> rfl

/-! ### Nodes and their keys -/

theorem Keyed.insert (hg : g.Keyed) (hid : nd.nodeId = id) :
    ({ g with nodes := g.nodes.insert id nd } : MaterializedGraph).Keyed := by
  intro i n hn
  change (g.nodes.insert id nd)[i]? = some n at hn
  rw [HashMap.getElem?_insert] at hn
  split at hn
  · rename_i h
    obtain rfl := Option.some.inj hn
    exact hid.trans h
  · exact hg i n hn

variable [Crates]

theorem Change.keyed (h : Change g g') (hg : g.Keyed) : g'.Keyed := by
  cases h with
  | quarantine | hold | ontology => exact hg
  | addNode _ id ty st lb ps c =>
    rw [applyAddNode]
    split <;> rename_i hn
    · have hid := hg id _ hn
      refine hg.insert ?_
      exact hid
    · have hg' : ({ g with byType := addToIndex g.byType ty id } : MaterializedGraph).Keyed := hg
      exact hg'.insert rfl
  | addEdge _ id ty src tgt ps c =>
    have hnodes := (nodes_applyAddEdge g id ty src tgt ps c).1
    exact fun i n hn => hg i n (hnodes ▸ hn)
  | updateProperty id k v c =>
    rw [applyUpdateProperty]
    split <;> rename_i hn
    · have hid := hg id _ hn
      refine hg.insert ?_
      exact hid
    · split <;> exact hg
  | removeNode id c =>
    rw [applyRemoveNode]
    split <;> rename_i hn
    · exact hg.insert (Node.remove_nodeId.trans (hg id _ hn))
    · exact hg
  | removeEdge id c =>
    rw [applyRemoveEdge]
    split <;> exact hg

omit [Crates] in
theorem keyed_new (base : Ontology) : (new base).Keyed := fun i nd hn => by
  have hnone : (new base).nodes[i]? = none := Std.ExtTreeMap.getElem?_empty
  rw [hnone] at hn
  cases hn

theorem keyed_rebuild (g : MaterializedGraph) (σ : HashOrder) (es : List Entry) :
    (g.rebuild σ es).Keyed :=
  (rebuild_changes g σ es).keep (fun _ _ h => h.keyed) (keyed_new _)

/-! ### The map and the graph -/

omit [Crates] in
/-- The map holds the live nodes with their types. -/
def Mirrors (nodeTypes : HashMap String String) (g : MaterializedGraph) : Prop :=
  ∀ id : String, nodeTypes[id]? = g.liveType id

/-- An `AddNode` leaves a live node of its type: the ontology accepts it and a node that is
there, live or removed, has the type; or it is refused, and the live node has the type. -/
def AddsType (self : MaterializedGraph) (mode : ValidationMode) (nodeId nodeType : String)
    (subtype : Option String) (properties : BTreeMap String Value) : Prop :=
  if (self.ontology.validateNodeMode nodeType subtype properties mode).isOk then
    ∀ t ∈ self.typeOf nodeId, t = nodeType
  else self.liveType nodeId = some nodeType

/-- What an operation does to the map of node types, it does to the live nodes. -/
def FollowsOp (self : MaterializedGraph) (clock : HybridClock) : GraphOp → Prop
  | .addNode nodeId nodeType subtype _ properties => self.AddsType .full nodeId nodeType subtype properties
  | .removeNode nodeId => self.Removes nodeId clock
  | .checkpoint .. => False
  | _ => True

/-- The same inside a checkpoint, where the map does not see removals. -/
def FollowsInner (self : MaterializedGraph) (clock : HybridClock) : GraphOp → Prop
  | .addNode nodeId nodeType subtype _ properties =>
    self.AddsType .skipRequired nodeId nodeType subtype properties
  | .removeNode nodeId => self.liveType nodeId = none ∨ ¬ self.Removes nodeId clock
  | .checkpoint .. => False
  | _ => True

variable {m : HashMap String String} {mode : ValidationMode} {adopt : Bool} {e : Entry}
  {σ : HashOrder} {op : GraphOp}

theorem liveType_addNodeArm (σ : HashOrder) (e : Entry) (h : g.AddsType mode id ty st ps) (i : String) :
    (g.addNodeArm σ e mode id ty st lb ps).liveType i =
      if id = i then some ty else g.liveType i := by
  obtain ⟨hv, r, heq⟩ | ⟨hv, heq⟩ := addNodeArm_spec g σ e mode id ty st lb ps <;>
    rw [heq] <;> rw [AddsType, hv] at h
  · -- refused, so the live node is what the map makes of it
    split
    · rename_i hid
      subst hid
      exact h
    · rfl
  · rw [liveType_congr (foldl_retryEdge_spec _ _ fun p hp => (mem_readyEdges.mp hp).2).1,
      liveType_applyAddNode]
    have htype : (g.typeOf id).getD ty = ty := by
      cases ht : g.typeOf id with
      | none => rfl
      | some t => exact h t ht
    split
    · exact congrArg some htype
    · rfl

theorem liveType_updatePropertyArm (g : MaterializedGraph) (e : Entry) (id k : String) (v : Value) :
    (g.updatePropertyArm e id k v).liveType = g.liveType := by
  rw [updatePropertyArm]
  split
  · rfl
  · exact (liveType_applyUpdateProperty ..).trans rfl

omit [Crates] in
theorem liveType_removeEdge (g : MaterializedGraph) (id : String) (c : HybridClock) :
    (g.applyRemoveEdge id c).liveType = g.liveType := by
  refine liveType_congr ?_
  rw [applyRemoveEdge]
  split <;> rfl

theorem liveType_extendOntologyArm (g : MaterializedGraph) (e : Entry) (x : OntologyExtension) :
    (g.extendOntologyArm e x).liveType = g.liveType := by
  refine liveType_congr ?_
  rw [extendOntologyArm]
  split <;> rfl

/-- No other operation concerns the live nodes. -/
theorem liveType_applyPayload (σ : HashOrder) (mode : ValidationMode) (adopt : Bool) (e : Entry)
    (hadd : ∀ id ty st lb ps, op ≠ .addNode id ty st lb ps) (hrem : ∀ id, op ≠ .removeNode id)
    (hop : op.isCheckpoint = false) : (applyPayload σ mode adopt e op g).liveType = g.liveType := by
  cases op with
  | addNode id ty st lb ps => exact absurd rfl (hadd id ty st lb ps)
  | removeNode id => exact absurd rfl (hrem id)
  | checkpoint => cases hop
  | defineOntology | defineLens => rfl
  | extendOntology x => exact liveType_extendOntologyArm g e x
  | addEdge id ty src tgt ps => exact liveType_congr (nodes_addEdgeArm ..).1
  | updateProperty id k v => exact liveType_updatePropertyArm g e id k v
  | removeEdge id => exact liveType_removeEdge (g.release e.hash) id e.clock

open PyGraphStore in
/-- **Step.** An operation that does the same to both keeps them together. -/
theorem Mirrors.applyPayload (hm : Mirrors m g) (σ : HashOrder) (adopt : Bool) (e : Entry)
    (hop : g.FollowsOp e.clock op) :
    Mirrors (noteType m op) (applyPayload σ .full adopt e op g) := by
  intro i
  cases op with
  | addNode id ty st lb ps =>
    rw [MaterializedGraph.applyPayload, liveType_addNodeArm σ e hop, noteType,
      HashMap.getElem?_insert, hm i]
  | removeNode id =>
    have hop : (g.release e.hash).Removes id e.clock := hop
    rw [MaterializedGraph.applyPayload, liveType_applyRemoveNode, noteType, HashMap.getElem?_erase,
      hm i]
    simp only [hop, and_true]
    rfl
  | checkpoint => exact absurd hop not_false
  | _ =>
    rw [liveType_applyPayload]
    · exact hm i
    all_goals simp [GraphOp.isCheckpoint]

/-- The operations of a checkpoint do to the live nodes what the replay makes of them. -/
def FollowsOps (σ : HashOrder) (adopt : Bool) (e : Entry) (opClocks : List (ℕ × ℕ)) :
    List GraphOp → ℕ → MaterializedGraph → Prop
  | [], _, _ => True
  | op :: ops, i, g => g.FollowsInner (opClock e opClocks i) op ∧
    FollowsOps σ adopt e opClocks ops (i + 1) (applyOps σ adopt e opClocks [op] i g)

omit [Crates] in
/-- What the replay makes of an operation inside a checkpoint. -/
def noteInner (nodeTypes : HashMap String String) : GraphOp → HashMap String String
  | .addNode nodeId nodeType _ _ _ => nodeTypes.insert nodeId nodeType
  | _ => nodeTypes

/-- **Step**, inside a checkpoint. -/
theorem Mirrors.applyOp (hm : Mirrors m g) (σ : HashOrder) (adopt : Bool) (e : Entry)
    (opClocks : List (ℕ × ℕ)) (i : ℕ) (hop : g.FollowsInner (opClock e opClocks i) op) :
    Mirrors (noteInner m op) (applyOps σ adopt e opClocks [op] i g) := by
  intro id
  cases op with
  | defineOntology o =>
    rw [applyOps, applyOps]
    split <;> exact hm id
  | addNode nid ty st lb ps =>
    rw [applyOps_singleton rfl i adopt, MaterializedGraph.applyPayload, liveType_addNodeArm _ _ hop,
      noteInner, HashMap.getElem?_insert, hm id]
  | removeNode nid =>
    have hop : g.liveType nid = none ∨ ¬ g.Removes nid (opClock e opClocks i) := hop
    rw [applyOps_singleton rfl i adopt, MaterializedGraph.applyPayload, liveType_applyRemoveNode]
    split
    · rename_i h
      obtain ⟨rfl, hrem⟩ := h
      exact (hm nid).trans (hop.resolve_right (not_not_intro hrem))
    · exact hm id
  | checkpoint => exact absurd hop not_false
  | _ =>
    rw [applyOps_singleton rfl i adopt, liveType_applyPayload]
    · exact hm id
    all_goals simp [GraphOp.isCheckpoint]

theorem Mirrors.applyOps (hm : Mirrors m g) (σ : HashOrder) (adopt : Bool) (e : Entry)
    (opClocks : List (ℕ × ℕ)) (ops : List GraphOp) (i : ℕ)
    (hops : FollowsOps σ adopt e opClocks ops i g) :
    Mirrors (ops.foldl noteInner m) (applyOps σ adopt e opClocks ops i g) := by
  induction ops generalizing m g i with
  | nil =>
    rw [MaterializedGraph.applyOps]
    exact hm
  | cons op ops ih =>
    rw [applyOps_cons]
    exact ih (hm.applyOp σ adopt e opClocks i hops.1) (i + 1) hops.2

/-! ### Lists of entries -/

/-- What a replayed entry does to the map, it does to the live nodes. -/
def FollowsReplayed (σ : HashOrder) (g : MaterializedGraph) (e : Entry) : Prop :=
  match e.payload with
  | .checkpoint ops opClocks _ _ => FollowsOps σ false e opClocks ops 0 g
  | op => g.FollowsOp e.clock op

/-- The same for a list of entries that a constructor replays. -/
def FollowsReplay (σ : HashOrder) : MaterializedGraph → List Entry → Prop
  | _, [] => True
  | g, e :: es => FollowsReplayed σ g e ∧ FollowsReplay σ (materialize σ g e) es

/-- The same for a list of entries that a merge applies one by one. -/
def FollowsApplied (σ : HashOrder) : MaterializedGraph → List Entry → Prop
  | _, [] => True
  | g, e :: es => g.FollowsOp e.clock e.payload ∧ FollowsApplied σ (g.apply σ e) es

theorem Mirrors.materialize (hm : Mirrors m g) (he : FollowsReplayed σ g e) :
    Mirrors (PyGraphStore.replayNodeType m e) (materialize σ g e) := by
  have hmat : e.payload.isExtendOntology = false → MaterializedGraph.materialize σ g e =
      MaterializedGraph.applyPayload σ .full false e e.payload g := fun h => by
    rw [MaterializedGraph.materialize, h]
    rfl
  rw [FollowsReplayed] at he
  rw [PyGraphStore.replayNodeType]
  cases hp : e.payload with
  | checkpoint ops opClocks p c =>
    rw [hp] at he
    rw [hmat (by rw [hp]; rfl), hp, MaterializedGraph.applyPayload]
    exact hm.applyOps σ false e opClocks ops 0 he
  | extendOntology x =>
    rw [MaterializedGraph.materialize, hp]
    exact hm
  | _ =>
    rw [hp] at he
    rw [hmat (by rw [hp]; rfl), hp]
    exact hm.applyPayload σ false e he

theorem Mirrors.replay {es : List Entry} (hm : Mirrors m g) (hes : FollowsReplay σ g es) :
    Mirrors (es.foldl PyGraphStore.replayNodeType m) (es.foldl (MaterializedGraph.materialize σ) g) := by
  induction es generalizing m g with
  | nil => exact hm
  | cons e es ih => exact ih (hm.materialize hes.1) hes.2

omit [Crates] in
theorem mirrors_empty (h : g.nodes = ∅) : Mirrors ∅ g := fun id => by
  rw [liveType_of_none (by rw [h]; exact Std.ExtTreeMap.getElem?_empty)]
  exact Std.ExtTreeMap.getElem?_empty

/-- A constructor leaves map and graph together if every entry it replays follows. -/
theorem mirrors_rebuild (base : Ontology) {es : List Entry}
    (hes : FollowsReplay σ (secondPass base es) es) :
    Mirrors (es.foldl PyGraphStore.replayNodeType ∅) ((new base).rebuild σ es) :=
  (mirrors_empty (entities_secondPass base es).1).replay hes

omit [Crates] in
/-- The map a revalidation computes. -/
theorem mirrors_liveNodeTypes (hg : g.Keyed) (σ : HashOrder) :
    Mirrors (PyGraphStore.liveNodeTypes σ g) g := by
  intro id
  have hmem : ∀ n, n ∈ g.allNodes σ → g.getNode n.nodeId = some n := fun n hn => by
    simp only [allNodes, List.mem_filter, List.mem_map, HashOrder.mem_walk, Prod.exists,
      HashMap.mem_toList, exists_eq_right, Bool.not_eq_true'] at hn
    obtain ⟨⟨k, hk⟩, hlive⟩ := hn
    rw [hg k n hk]
    exact getNode_eq_some_iff.mpr ⟨hk, hlive⟩
  have hin : ∀ n, g.getNode id = some n → n ∈ g.allNodes σ ∧ n.nodeId = id := fun n hn => by
    obtain ⟨hget, hlive⟩ := getNode_eq_some_iff.mp hn
    refine ⟨?_, hg id n hget⟩
    simp only [allNodes, List.mem_filter, List.mem_map, HashOrder.mem_walk, Prod.exists,
      HashMap.mem_toList, exists_eq_right, Bool.not_eq_true']
    exact ⟨⟨id, hget⟩, hlive⟩
  -- every node of the list is the live node of its identifier
  have hfold : ∀ (l : List Node) (m : HashMap String String),
      (∀ n ∈ l, g.getNode n.nodeId = some n) →
      (l.foldl (fun m n => m.insert n.nodeId n.nodeType) m)[id]? =
        if ∃ n ∈ l, n.nodeId = id then g.liveType id else m[id]? := by
    intro l
    induction l with
    | nil => simp
    | cons a l ih =>
      intro m hl
      rw [List.foldl_cons, ih _ fun n hn => hl n (List.mem_cons_of_mem _ hn)]
      by_cases hrest : ∃ n ∈ l, n.nodeId = id
      · rw [if_pos hrest, if_pos (hrest.imp fun n h => ⟨List.mem_cons_of_mem _ h.1, h.2⟩)]
      · rw [if_neg hrest, HashMap.getElem?_insert]
        by_cases ha : a.nodeId = id
        · have hlive := hl a List.mem_cons_self
          rw [ha] at hlive
          rw [if_pos ha, if_pos ⟨a, List.mem_cons_self, ha⟩, liveType, hlive]
          rfl
        · rw [if_neg ha, if_neg]
          rintro ⟨n, hn, heq⟩
          obtain rfl | hn := List.mem_cons.mp hn
          · exact ha heq
          · exact hrest ⟨n, hn, heq⟩
  rw [PyGraphStore.liveNodeTypes, hfold _ _ hmem]
  split
  · rfl
  · rename_i hno
    have hnone : g.getNode id = none := by
      by_contra h
      obtain ⟨n, hn⟩ := Option.ne_none_iff_exists'.mp h
      exact hno ⟨n, hin n hn⟩
    rw [liveType, hnone]
    exact Std.ExtTreeMap.getElem?_empty

end MaterializedGraph

namespace PyGraphStore

open MaterializedGraph

section

variable [Crates] {s s' : PyGraphStore} {env : Env} {op : GraphOp} {L L' : OpLog} {g : Entry}

/-! ### When an append goes through -/

omit [Crates] in
theorem headsStored_new (e : Entry) : ∀ x ∈ (OpLog.new e).heads, x ∈ (OpLog.new e).entries := by
  intro x hx
  rw [OpLog.new, HashSet.mem_insert] at hx
  obtain rfl | hx := hx
  · exact HashMap.mem_insert.mpr (.inl rfl)
  · exact absurd hx Std.ExtTreeSet.not_mem_empty

theorem LogStep.headsStored (h : LogStep L L') (hne : L.entries ≠ ∅)
    (hL : ∀ x ∈ L.heads, x ∈ L.entries) : ∀ x ∈ L'.heads, x ∈ L'.entries := by
  cases h with
  | replace c => exact headsStored_new _
  | append e =>
    obtain ⟨-, heq⟩ | ⟨-, -, heq⟩ | ⟨-, -, -, heq⟩ | ⟨-, -, -, p, -, -, heq⟩ | ⟨-, -, -, -, heq⟩ :=
      OpLog.append_cases hne e <;> rw [heq]
    · exact hL
    · exact hL
    · exact headsStored_new e
    · exact hL
    · intro x hx
      rw [OpLog.insertEntry, HashSet.mem_insert, OpLog.mem_foldl_erase] at hx
      exact HashMap.mem_insert.mpr (hx.imp_right fun h => hL x h.1)

/-- The heads of a log that started from one entry are in it. -/
theorem LogSteps.headsStored (h : LogSteps (OpLog.new g) L) : ∀ x ∈ L.heads, x ∈ L.entries := by
  induction h with
  | refl => exact headsStored_new g
  | tail hsteps hstep ih =>
    exact hstep.headsStored (LogSteps.nonempty hsteps (OpLog.entries_new_ne_empty g)) ih

/-- The transaction of an append, if it takes one, commits. -/
def Commits (self : PyGraphStore) (env : Env) (op : GraphOp) : Prop :=
  match self.backend with
  | .memory _ => True
  | .persistent store => store.flushMode = .deferred ∨ env.txn 0 = .ok () ∨
      (self.writtenEntry env op).hash ∈ store.oplog.entries

/-- The append goes through: the payload validates, and the transaction commits. -/
def Writes (self : PyGraphStore) (env : Env) (op : GraphOp) : Prop :=
  self.validateEntryPayload (self.writtenEntry env op) = .ok () ∧ self.Commits env op

theorem mem_of_append_false {e : Entry} (h : (L.append e).1 = .ok false) : e.hash ∈ L.entries := by
  rw [OpLog.append] at h
  split at h
  · cases h
  · split at h
    · rename_i hmem
      exact Std.ExtTreeMap.contains_iff_mem.mp hmem
    · split at h
      · cases h
      · split at h <;> cases h

theorem Store.append_fst {st : Store} (σ : HashOrder) (txn : TxnResult) {e : Entry} {b : Bool}
    (hlog : (st.oplog.append e).1 = .ok b) : (st.append σ txn e).1 =
      if b = false ∨ st.flushMode = .deferred then .ok b
      else (txn.map fun _ => true).mapError StoreError.io := by
  rw [Store.append]
  generalize st.oplog.append e = r at hlog
  obtain ⟨r, L'⟩ := r
  obtain rfl : r = .ok b := hlog
  cases b with
  | false => rfl
  | true =>
    cases hm : st.flushMode with
    | deferred => rfl
    | immediate => cases txn <;> rfl

theorem writes_of_append {hex : String} (run : (s.append env op).1 = .ok hex) : s.Writes env op := by
  obtain ⟨_, -, h⟩ | ⟨-, _, -, h⟩ | ⟨hv, b, hb, h⟩ := s.append_cases env op
  · rw [h] at run
    cases run
  · rw [h] at run
    cases run
  · refine ⟨hv, ?_⟩
    rw [Commits]
    split
    · trivial
    · rename_i store hbackend
      rw [hbackend, Backend.append] at hb
      by_contra hno
      push Not at hno
      obtain ⟨hmode, htxn, hhash⟩ := hno
      cases hlog : (store.oplog.append (s.writtenEntry env op)).1 with
      | error err =>
        have herr : (store.append env.order (env.txn 0) (s.writtenEntry env op)).1 =
            .error (.opLog err) := by
          rw [Store.append]
          generalize store.oplog.append (s.writtenEntry env op) = r at hlog
          obtain ⟨r, L'⟩ := r
          obtain rfl : r = .error err := hlog
          rfl
        simp [herr, Except.mapError] at hb
      | ok b' =>
        cases b' with
        | false => exact hhash (mem_of_append_false hlog)
        | true =>
          have hfst := Store.append_fst env.order (env.txn 0) hlog
          simp only [hmode, or_self, Bool.true_eq_false, if_false] at hfst
          cases htx : env.txn 0 with
          | ok => exact htxn htx
          | error msg =>
            rw [htx] at hfst hb
            simp [hfst, Except.mapError, Except.map] at hb

/-- The log takes an entry that is written on its heads, or holds it already. -/
theorem append_log_ok (hne : s.oplog.entries ≠ ∅) (hheads : ∀ x ∈ s.oplog.heads, x ∈ s.oplog.entries)
    (hop : op.isCheckpoint = false) : ∃ b, (s.oplog.append (s.writtenEntry env op)).1 = .ok b ∧
      (b = false ↔ (s.writtenEntry env op).hash ∈ s.oplog.entries) := by
  set e := s.writtenEntry env op with he
  have hroot : ¬ e.isRootCheckpoint := by
    rw [Entry.isRootCheckpoint, he, writtenEntry_payload, hop]
    simp
  have hvalid : e.verifyHash := verifyHash_createEntry ..
  have hnext : ∀ p ∈ e.next, p ∈ s.oplog.entries := fun p hp => by
    rw [he, writtenEntry, createEntry_next, HashOrder.mem_walk, Std.ExtTreeSet.mem_toList] at hp
    exact hheads p hp
  obtain ⟨hv', -⟩ | ⟨-, hmem, heq⟩ | ⟨-, -, hc, -⟩ | ⟨-, -, -, p, hp, hpL, -⟩ | ⟨-, hmem, -, -, heq⟩ :=
    OpLog.append_cases hne e
  · exact absurd hvalid hv'
  · exact ⟨false, by rw [heq], by simpa using hmem⟩
  · exact absurd hc hroot
  · exact absurd (hnext p hp) hpL
  · exact ⟨true, by rw [heq], by simpa using hmem⟩

/-- An append whose payload validates and whose transaction commits returns. -/
theorem append_of_writes (hne : s.oplog.entries ≠ ∅) (hheads : ∀ x ∈ s.oplog.heads, x ∈ s.oplog.entries)
    (hop : op.isCheckpoint = false) (h : s.Writes env op) : ∃ hex, (s.append env op).1 = .ok hex := by
  obtain ⟨hv, hcommit⟩ := h
  set e := s.writtenEntry env op with he
  have hlog : ∃ b, (s.oplog.append e).1 = .ok b ∧ (b = false ↔ e.hash ∈ s.oplog.entries) :=
    append_log_ok hne hheads hop
  obtain ⟨b, hb, hfalse⟩ := hlog
  have hback : ∃ b, (s.backend.append env.order (env.txn 0) e).1 = .ok b := by
    rw [Commits] at hcommit
    split at hcommit <;> rename_i held hbackend <;> rw [hbackend, Backend.append]
    · have hb : (held.append e).1 = .ok b := by
        rw [oplog, hbackend] at hb
        exact hb
      exact ⟨b, by simp [hb, Except.mapError]⟩
    · have hb : (held.oplog.append e).1 = .ok b := by
        rw [oplog, hbackend] at hb
        exact hb
      have hfalse : b = false ↔ e.hash ∈ held.oplog.entries := by
        rw [oplog, hbackend] at hfalse
        exact hfalse
      have hfst := Store.append_fst env.order (env.txn 0) hb
      split at hfst
      · exact ⟨b, by simp [hfst, Except.mapError]⟩
      · rename_i hno
        obtain hmode | htxn | hmem := hcommit
        · exact absurd (.inr hmode) hno
        · rw [htxn] at hfst
          exact ⟨true, by simp [htxn, hfst, Except.mapError, Except.map]⟩
        · exact absurd (.inl (hfalse.mpr hmem)) hno
  obtain ⟨_, hv', -⟩ | ⟨-, msg, hmsg, -⟩ | ⟨-, b, -, heq⟩ := s.append_cases env op
  · rw [hv] at hv'
    cases hv'
  · obtain ⟨b, hb⟩ := hback
    rw [hb] at hmsg
    cases hmsg
  · exact ⟨_, by rw [heq]⟩

/-- An append in a reachable store returns exactly if it goes through. -/
theorem append_ok_iff (hs : Reachable s) (hop : op.isCheckpoint = false) :
    (∃ hex, (s.append env op).1 = .ok hex) ↔ s.Writes env op := by
  refine ⟨fun ⟨hex, h⟩ => writes_of_append h, fun h => ?_⟩
  obtain ⟨g, hlog⟩ := hs.log
  exact append_of_writes hs.nonempty hlog.headsStored hop h

/-! ### Runs -/

/-- The entries that a constructor replayed do to the map what they do to the live nodes. -/
def FollowsLog (self : PyGraphStore) (env : Env) : Prop :=
  ∀ all, self.oplog.entriesSince none = some all →
    FollowsReplay env.order (secondPass self.graph.baseOntology all) all

/-- So do the entries that a merge applies one by one. -/
def FollowsMerge (self : PyGraphStore) (env : Env) (entries : List Entry) : Prop :=
  let batch := entries.filter self.admits
  let merged := self.backend.merge env.order (env.txn 0) batch
  ∀ n all, merged.1 = .ok (n + 1) → merged.2.oplog.entriesSince none = some all →
    batch.any isSchemaChange = false → FollowsApplied env.order self.graph (listedOf all batch)

/-- The condition on a call: a node it adds is accepted and keeps its type, and a live node
it removes is removed in the graph as well, which takes an append that goes through and a
clock after the node's last add. -/
def Follows (self : PyGraphStore) (env : Env) : Call → Prop
  | .addNode nodeId nodeType label properties subtype =>
    let op := .addNode nodeId nodeType subtype label properties
    self.Writes env op → self.graph.FollowsOp (self.clock.tick (env.wall 0)) op
  | .removeNode nodeId =>
    self.graph.liveType nodeId = none ∨ self.Writes env (.removeNode nodeId) ∧
      self.graph.Removes nodeId (self.clock.tick (env.wall 0))
  | .drain op =>
    (op.isDefineOntology || op.isExtendOntology || op.isCheckpoint) = false → self.Writes env op →
      self.graph.FollowsOp (self.clock.tick (env.wall 0)) op
  | .merge entries => self.FollowsMerge env entries
  | _ => True

/-- The runs whose steps all meet the condition. -/
inductive Following : PyGraphStore → Prop where
  | memory {s : PyGraphStore} (env : Env) (instanceId : String) (ontology : Ontology)
      (run : new env instanceId ontology none = .ok s) : Following s
  | file {s : PyGraphStore} (env : Env) (instanceId : String) (ontology : Ontology)
      (run : new env instanceId ontology (some Db.empty) = .ok s) : Following s
  | fromSnapshot {s : PyGraphStore} (env : Env) (instanceId : String) (snapshot : List Entry)
      (run : fromSnapshot env instanceId snapshot = .ok s) (follows : s.FollowsLog env) :
      Following s
  | reopen {s : PyGraphStore} (env : Env) (db : Db) (run : «open» env db = .ok s)
      (follows : s.FollowsLog env) : Following s
  | reopenNew {s : PyGraphStore} (env : Env) (instanceId : String) (ontology : Ontology) (db : Db)
      (run : new env instanceId ontology (some db) = .ok s) (follows : s.FollowsLog env) :
      Following s
  | call {s : PyGraphStore} (h : Following s) (env : Env) (c : Call) (follows : s.Follows env c) :
      Following (s.exec env c).2

/-- What holds along such a run. -/
structure NodeTypesHold (s : PyGraphStore) : Prop where
  mirrors : Mirrors s.nodeTypes s.graph
  keyed : s.graph.Keyed
  grown : ∃ g, LogSteps (OpLog.new g) s.oplog

theorem NodeTypesHold.nonempty (h : s.NodeTypesHold) : s.oplog.entries ≠ ∅ := by
  obtain ⟨g, hg⟩ := h.grown
  exact hg.nonempty (OpLog.entries_new_ne_empty g)

theorem NodeTypesHold.headsStored (h : s.NodeTypesHold) :
    ∀ x ∈ s.oplog.heads, x ∈ s.oplog.entries := by
  obtain ⟨g, hg⟩ := h.grown
  exact hg.headsStored

/-! ### Constructors -/

/-- A store whose graph is a rebuild of its listed log and whose map is the replay of it. -/
theorem NodeTypesHold.of_replay {all : List Entry} {base : Ontology}
    (hlog : ∃ g, LogSteps (OpLog.new g) s.oplog) (hall : s.oplog.entriesSince none = some all)
    (hgraph : s.graph = (MaterializedGraph.new base).rebuild env.order all)
    (htypes : s.nodeTypes = all.foldl replayNodeType ∅) (hfollows : s.FollowsLog env) :
    s.NodeTypesHold := by
  have hbase : s.graph.baseOntology = base := by
    rw [hgraph, (rebuild_schema _ _ _).2]
    rfl
  have h := hfollows all hall
  rw [hbase] at h
  refine ⟨?_, ?_, hlog⟩
  · rw [htypes, hgraph]
    exact mirrors_rebuild base h
  · rw [hgraph]
    exact keyed_rebuild _ _ _

/-- A log without anything but ontology definitions follows. -/
theorem followsReplay_of_definitions {σ : HashOrder} {es : List Entry}
    (hes : ∀ e ∈ es, e.payload.isDefineOntology) (m : MaterializedGraph) : FollowsReplay σ m es := by
  induction es generalizing m with
  | nil => trivial
  | cons e es ih =>
    refine ⟨?_, ih (fun x hx => hes x (List.mem_cons_of_mem _ hx)) _⟩
    have he := hes e List.mem_cons_self
    rw [FollowsReplayed]
    cases hp : e.payload <;> rw [hp] at he <;> trivial

theorem NodeTypesHold.file {instanceId : String} {ontology : Ontology}
    (run : new env instanceId ontology (some Db.empty) = .ok s) : s.NodeTypesHold := by
  obtain ⟨store, all, hopen, hall, rfl⟩ := new_file run
  have hstore : store.oplog = OpLog.new (genesis env instanceId ontology) := by
    cases htxn : env.txn 0 with
    | error msg =>
      rw [htxn] at hopen
      cases hopen
    | ok =>
      rw [htxn, Store.openDb_empty] at hopen
      cases hopen
      rfl
  refine NodeTypesHold.of_replay ?_ hall rfl rfl fun all' hall' => ?_
  · exact ⟨_, by rw [oplog, Backend.oplog, hstore]⟩
  · refine followsReplay_of_definitions (fun e he => ?_) _
    obtain ⟨h, hget⟩ := OpLog.stored_of_entriesSince hall' he
    change store.oplog.entries[h]? = some e at hget
    rw [hstore, OpLog.getElem?_new] at hget
    split at hget
    · obtain rfl := Option.some.inj hget
      rfl
    · cases hget

/-! ### Calls -/

/-- The graph, the map and what the graph was are enough to carry the invariant over. -/
theorem NodeTypesHold.step (h : s.NodeTypesHold) (hlog : LogSteps s.oplog s'.oplog)
    (hgraph : Changes s.graph s'.graph) (hm : Mirrors s'.nodeTypes s'.graph) : s'.NodeTypesHold := by
  obtain ⟨g, hg⟩ := h.grown
  exact ⟨hm, hgraph.keep (fun _ _ hc => hc.keyed) h.keyed, g, hg.trans hlog⟩

/-- A failed append leaves graph and map alone. -/
theorem append_of_error {err : PyErr} (run : (s.append env op).1 = .error err) :
    (s.append env op).2.graph = s.graph ∧ (s.append env op).2.nodeTypes = s.nodeTypes := by
  obtain ⟨_, -, h⟩ | ⟨-, _, -, h⟩ | ⟨-, b, -, h⟩ := s.append_cases env op
  · rw [h]
    exact ⟨rfl, rfl⟩
  · rw [h]
    exact ⟨rfl, rfl⟩
  · rw [h] at run
    cases run

theorem graph_of_append {hex : String} (run : (s.append env op).1 = .ok hex) :
    (s.append env op).2.graph = s.graph.apply env.order (s.writtenEntry env op) ∧
      (s.append env op).2.nodeTypes = s.nodeTypes := by
  obtain ⟨-, -, h⟩ := s.append_of_ok env op (Prod.ext run rfl)
  exact ⟨congrArg graph h, (congrArg nodeTypes h).trans rfl⟩

theorem append_changes (s : PyGraphStore) (env : Env) (op : GraphOp) :
    Changes s.graph (s.append env op).2.graph := by
  cases hr : (s.append env op).1 with
  | error err =>
    rw [(append_of_error hr).1]
  | ok hex =>
    rw [(graph_of_append hr).1]
    exact apply_changes ..

/-- An append whose operation follows keeps map and graph together, if the map is updated
when it returns. -/
theorem mirrors_append {hex : String} (h : s.NodeTypesHold) (run : (s.append env op).1 = .ok hex)
    (hop : s.graph.FollowsOp (s.clock.tick (env.wall 0)) op) :
    Mirrors (noteType s.nodeTypes op) (s.append env op).2.graph := by
  rw [(graph_of_append run).1, MaterializedGraph.apply, applyInner, writtenEntry_payload]
  refine h.mirrors.applyPayload env.order true (s.writtenEntry env op) ?_
  rw [writtenEntry_clock]
  exact hop

theorem NodeTypesHold.revalidate (h : s.NodeTypesHold) (env : Env) :
    (s.revalidate env).2.NodeTypesHold := by
  have hlog := revalidate_log s env
  rw [PyGraphStore.revalidate] at hlog ⊢
  split at hlog
  · exact h
  · exact ⟨mirrors_liveNodeTypes (keyed_rebuild _ _ _) _, keyed_rebuild _ _ _, h.grown⟩

/-- An append the map takes no notice of. -/
theorem NodeTypesHold.append (h : s.NodeTypesHold) (env : Env)
    (hop : s.graph.FollowsOp (s.clock.tick (env.wall 0)) op)
    (hnote : noteType s.nodeTypes op = s.nodeTypes) : (s.append env op).2.NodeTypesHold := by
  refine h.step (append_log s env op) (append_changes ..) ?_
  cases hr : (s.append env op).1 with
  | error err =>
    obtain ⟨hg, hm⟩ := append_of_error hr
    rw [hg, hm]
    exact h.mirrors
  | ok hex =>
    rw [(graph_of_append hr).2, ← hnote]
    exact mirrors_append h hr hop

omit [Crates] in
theorem removes_of_liveType {g : MaterializedGraph} {id : String} {c : HybridClock}
    (h : g.liveType id = none) : g.Removes id c := fun nd hnd => by
  rw [liveType, hnd] at h
  cases h

/-- The removal of a node forgets its type first. -/
theorem NodeTypesHold.removeNode {id : String} (h : s.NodeTypesHold)
    (hc : s.Follows env (.removeNode id)) : (s.removeNode env id).2.NodeTypesHold := by
  set t : PyGraphStore := { s with nodeTypes := s.nodeTypes.erase id } with ht
  have hremoves : s.graph.Removes id (s.clock.tick (env.wall 0)) :=
    hc.elim removes_of_liveType fun h => h.2
  refine h.step (append_log t env (.removeNode id)) (append_changes t env (.removeNode id)) ?_
  rw [PyGraphStore.removeNode, ← ht]
  cases hr : (t.append env (.removeNode id)).1 with
  | error err =>
    obtain ⟨hg, hm⟩ := append_of_error hr
    rw [hg, hm]
    obtain hnone | ⟨hw, -⟩ := hc
    · intro i
      change (s.nodeTypes.erase id)[i]? = s.graph.liveType i
      rw [HashMap.getElem?_erase, h.mirrors i]
      split
      · rename_i hid
        rw [← hid, hnone]
      · rfl
    · obtain ⟨hex, hok⟩ := append_of_writes (s := t) h.nonempty h.headsStored rfl hw
      rw [hok] at hr
      cases hr
  | ok hex =>
    rw [(graph_of_append hr).1, (graph_of_append hr).2, MaterializedGraph.apply, applyInner,
      writtenEntry_payload]
    have hfollows : t.graph.FollowsOp (t.writtenEntry env (.removeNode id)).clock (.removeNode id) := by
      rw [writtenEntry_clock]
      exact hremoves
    exact h.mirrors.applyPayload env.order true (t.writtenEntry env _) hfollows

/-- A merge that applies its entries one by one. -/
theorem mirrors_foldl_applyMerged {es : List Entry} (hm : Mirrors s.nodeTypes s.graph)
    (hes : FollowsApplied env.order s.graph es) :
    Mirrors (es.foldl (applyMerged env) s).nodeTypes (es.foldl (applyMerged env) s).graph := by
  induction es generalizing s with
  | nil => exact hm
  | cons e es ih =>
    rw [List.foldl_cons]
    have hstep := hm.applyPayload env.order true e hes.1
    refine ih ?_ ?_
    · rw [applyMerged_eq]
      exact hstep
    · exact hes.2

theorem changes_foldl_applyMerged (es : List Entry) (s : PyGraphStore) :
    Changes s.graph (es.foldl (applyMerged env) s).graph := by
  induction es generalizing s with
  | nil => exact .refl
  | cons e es ih => exact (apply_changes s.graph env.order e).trans (ih (applyMerged env s e))

theorem NodeTypesHold.merge {es : List Entry} (h : s.NodeTypesHold) (hc : s.FollowsMerge env es) :
    (s.mergeEntriesVec env es).2.NodeTypesHold := by
  have hlog : LogSteps s.oplog (s.mergeEntriesVec env es).2.oplog := by
    rw [mergeEntriesVec_log]
    exact mergeBatch_log _ _
  obtain ⟨msg, -, heq⟩ | ⟨-, heq⟩ | ⟨n, -, -, heq⟩ | ⟨n, all, hn, hall, heq⟩ :=
    s.mergeEntriesVec_cases env es
  all_goals rw [heq] at hlog ⊢
  · exact h.step hlog .refl h.mirrors
  · exact h.step hlog .refl h.mirrors
  · exact h.step hlog .refl h.mirrors
  · set t : PyGraphStore := { s with backend := (s.backend.merge env.order (env.txn 0)
      (es.filter s.admits)).2 } with ht
    have hlog' : LogSteps s.oplog t.oplog := by
      have hb : t.oplog = (mergeBatch s.oplog (es.filter s.admits)).2 := Backend.merge_oplog ..
      rw [hb]
      exact mergeBatch_log _ _
    have hht : t.NodeTypesHold := h.step hlog' .refl h.mirrors
    have hint : (t.integrated env all (es.filter s.admits)).NodeTypesHold := by
      rw [integrated]
      split
      · exact hht.revalidate env
      · rename_i hschema
        refine hht.step ?_ (changes_foldl_applyMerged _ t)
          (mirrors_foldl_applyMerged hht.mirrors (hc n all hn hall (by simpa using hschema)))
        rw [oplog, oplog, foldl_applyMerged_backend]
    exact ⟨hint.mirrors, hint.keyed, hint.grown⟩

theorem NodeTypesHold.compact (h : s.NodeTypesHold) (env : Env) :
    (s.compact env).2.NodeTypesHold := by
  have hlog : LogSteps s.oplog (s.compact env).2.oplog := compact_log s env
  obtain ⟨msg, -, hrun⟩ | ⟨-, ⟨err, -, hrun⟩ | ⟨-, hrun, -⟩⟩ := s.compact_cases env
  · rw [hrun] at hlog ⊢
    exact h.step hlog .refl h.mirrors
  · obtain ⟨b, hb⟩ := carryOver_frame _ env (s.checkpointEntry env).hash 1 (s.carried env)
    rw [hrun, hb] at hlog ⊢
    exact h.step hlog .refl h.mirrors
  · obtain ⟨b, hb⟩ := carryOver_frame _ env (s.checkpointEntry env).hash 1 (s.carried env)
    rw [hrun, hb, revalidate_log] at hlog
    rw [hrun, hb]
    have hcarried : NodeTypesHold { s.ticked env with backend := b } := h.step hlog .refl h.mirrors
    exact hcarried.revalidate env

/-- An append that fails leaves map and graph. -/
theorem NodeTypesHold.append_error (h : s.NodeTypesHold) {op : GraphOp} {err : PyErr}
    (hlog : LogSteps s.oplog (s.append env op).2.oplog) (herr : (s.append env op).1 = .error err) :
    (s.append env op).2.NodeTypesHold := by
  obtain ⟨hg, hm⟩ := append_of_error herr
  refine h.step hlog (append_changes ..) ?_
  rw [hg, hm]
  exact h.mirrors

/-- **Step.** A call that meets the condition keeps map and graph together. -/
theorem NodeTypesHold.exec (h : s.NodeTypesHold) (env : Env) (c : Call) (hc : s.Follows env c) :
    (s.exec env c).2.NodeTypesHold := by
  have hlog := exec_log s env c
  cases c with
  | addNode id ty lb ps st =>
    obtain ⟨_, -, hrun⟩ | ⟨-, ⟨err, herr, hrun⟩ | ⟨hex, hok, hrun⟩⟩ := s.addNode_cases env id ty lb ps st
    all_goals
      simp only [PyGraphStore.exec, done_snd, hrun] at hlog ⊢
    · exact h
    · exact h.append_error hlog herr
    · refine h.step hlog (append_changes ..) ?_
      change Mirrors ((s.append env _).2.nodeTypes.insert id ty) _
      rw [(graph_of_append hok).2]
      exact mirrors_append h hok (hc (writes_of_append hok))
  | addEdge id ty src tgt ps =>
    obtain ⟨err, hrun⟩ | ⟨_, _, -, -, -, hrun⟩ := s.addEdge_cases env id ty src tgt ps
    all_goals
      simp only [PyGraphStore.exec, done_snd, hrun]
    · exact h
    · exact h.append env trivial rfl
  | updateProperty id k v => exact h.append env trivial rfl
  | removeNode id => exact h.removeNode hc
  | removeEdge id => exact h.append env trivial rfl
  | drain op =>
    obtain ⟨err, hrun⟩ | ⟨hop, ⟨err, herr, hrun⟩ | ⟨hex, hok, hrun⟩⟩ := s.drainOp_cases env op
    all_goals
      simp only [PyGraphStore.exec, done_snd, hrun] at hlog ⊢
    · exact h
    · exact h.append_error hlog herr
    · refine h.step hlog (append_changes ..) ?_
      change Mirrors (noteType (s.append env op).2.nodeTypes op) _
      rw [(graph_of_append hok).2]
      exact mirrors_append h hok (hc hop (writes_of_append hok))
  | extendOntology x =>
    have happ : (s.append env (.extendOntology x)).2.NodeTypesHold := h.append env trivial rfl
    obtain ⟨err, hrun⟩ | ⟨-, -, ⟨err, -, hrun⟩ | ⟨hex, -, hrun, -⟩⟩ := s.extendOntology_cases env x
    all_goals
      simp only [PyGraphStore.exec, done_snd, hrun]
    · exact h
    · exact happ
    · have hext : ({ (s.append env (.extendOntology x)).2 with
          ontology := ((s.append env (.extendOntology x)).2.ontology.mergeExtension x).2 } :
          PyGraphStore).NodeTypesHold := ⟨happ.mirrors, happ.keyed, happ.grown⟩
      exact hext.revalidate env
  | merge es => exact h.merge hc
  | revalidate => exact h.revalidate env
  | compact => exact h.compact env
  | setFlushMode mode =>
    obtain ⟨b, hrun, -⟩ := s.setFlushMode_frame mode
    simp only [PyGraphStore.exec, hrun] at hlog ⊢
    exact h.step hlog .refl h.mirrors
  | flush =>
    obtain ⟨b, hrun, -⟩ := s.flush_frame env
    simp only [PyGraphStore.exec, done_snd, hrun] at hlog ⊢
    exact h.step hlog .refl h.mirrors
  | setSigningKey | registerTrustedAuthor | setRequireSignatures =>
    exact ⟨h.mirrors, h.keyed, h.grown⟩

/-- **Run.** In every run whose steps meet the condition, the map of node types holds
exactly the live nodes of the graph, with their types. -/
theorem node_types_mirror (s : PyGraphStore) (hs : Following s) : Mirrors s.nodeTypes s.graph := by
  suffices h : s.NodeTypesHold from h.mirrors
  induction hs with
  | memory env instanceId ontology run =>
    obtain ⟨-, rfl⟩ := new_memory run
    exact ⟨mirrors_empty rfl, keyed_new ontology, _, .refl⟩
  | file env instanceId ontology run => exact .file run
  | fromSnapshot env instanceId snapshot run follows =>
    obtain ⟨genesis, rest, base, n, L, all, -, -, -, hall, rfl⟩ := from_snapshot run
    exact .of_replay (fromSnapshot_log run) hall rfl rfl follows
  | reopen env db run follows =>
    obtain ⟨store, genesis, rest, base, -, hall, -, rfl⟩ := open_file run
    exact .of_replay (open_log run) hall rfl rfl follows
  | reopenNew env instanceId ontology db run follows =>
    obtain ⟨store, all, -, hall, rfl⟩ := new_file run
    exact .of_replay (new_log run) hall rfl rfl follows
  | call _ env c follows ih => exact ih.exec env c follows

end

open Sample in
/-- A new store that adds a node. -/
theorem node_types_mirror_added :
    let s := ((freshStore "ann" fleet).exec env (.addNode "a" "person" "A" ∅ none)).2
    Mirrors s.nodeTypes s.graph ∧ s.nodeTypes.toList = [("a", "person")] := by
  intro s
  refine ⟨node_types_mirror s (.call (.memory env "ann" fleet ?_) env _ fun _ => ?_), by decide +kernel⟩
  · have hvalid : fleet.validateSelf = .ok () := by decide +kernel
    simp only [new, hvalid]
    rfl
  · have hnone : (freshStore "ann" fleet).graph.typeOf "a" = none := by decide +kernel
    change MaterializedGraph.AddsType _ _ _ _ _ _
    rw [AddsType, hnone]
    split
    · exact fun t ht => by cases ht
    · rename_i hno
      exact absurd (by decide +kernel) hno

open Sample in
/-- After a merge the map holds a node whose `AddNode` was quarantined, and after a second
`add_node` of another type it holds a type the node does not have. -/
theorem node_types_drift :
    let s := ((freshStore "ann" fleet).exec env (.addNode "a" "person" "A" ∅ none)).2
    let robot := (∅ : BTreeMap String Value).insert "serial" (.string "1")
    let unfit := Entry.new (.addNode "b" "robot" none "B" ∅)
      [(genesis env "ann" fleet).hash] [] ⟨"bob", 1, 0⟩ "bob"
    let t := (s.exec env (.merge [unfit])).2
    let u := (s.exec env (.addNode "a" "robot" "A" robot none)).2
    Reachable t ∧ ¬ Mirrors t.nodeTypes t.graph ∧ Reachable u ∧ ¬ Mirrors u.nodeTypes u.graph := by
  intro s robot unfit t u
  have hs : Reachable s := .call (reachable_freshStore (by decide +kernel)) env _
  refine ⟨.call hs env _, fun h => ?_, .call hs env _, fun h => ?_⟩
  · have hb : t.nodeTypes["b"]? = some "robot" ∧ t.graph.liveType "b" = none := by decide +kernel
    rw [h "b", hb.2] at hb
    exact absurd hb.1 (by simp)
  · have ha : u.nodeTypes["a"]? = some "robot" ∧ u.graph.liveType "a" = some "person" := by
      decide +kernel
    rw [h "a", ha.2] at ha
    exact absurd ha.1 (by decide)

end PyGraphStore

end SilkGraph
