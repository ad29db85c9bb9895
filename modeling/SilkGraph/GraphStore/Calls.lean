import SilkGraph.GraphStore.Reachable
import SilkGraph.OpLog.Enumeration

/-!
# What one call does

Every local write goes through `append`, which has three ways to end: the payload is
refused, the backend refuses the entry, or the entry is applied. `append_cases` says what
each of them leaves behind; the calls that wrap it are read off from there.
-/

namespace SilkGraph

namespace PyGraphStore

variable [Crates]

/-! ### Making a store -/

theorem new_memory {env : Env} {instanceId : String} {ontology : Ontology} {s : PyGraphStore}
    (run : new env instanceId ontology none = .ok s) : ontology.validateSelf = .ok () ∧
      s = { backend := .memory (OpLog.new (genesis env instanceId ontology))
            graph := .new ontology, nodeTypes := ∅, instanceId
            clock := (genesis env instanceId ontology).clock, ontology } := by
  unfold new at run
  split at run
  · cases run
  · rename_i hvalid
    cases run
    exact ⟨hvalid, rfl⟩

theorem new_file {env : Env} {instanceId : String} {ontology : Ontology} {db : Db}
    {s : PyGraphStore} (run : new env instanceId ontology (some db) = .ok s) :
    ∃ store all, Store.openDb env.order (env.txn 0) db (some (genesis env instanceId ontology)) =
        .ok store ∧ store.oplog.entriesSince none = some all ∧
      let graph := (MaterializedGraph.new ontology).rebuild env.order all
      s = { backend := .persistent store, graph
            nodeTypes := all.foldl replayNodeType ∅, instanceId
            clock := mergeClocks env.wall 2 (genesis env instanceId ontology).clock all
            ontology := graph.ontology } := by
  unfold new at run
  split at run
  · cases run
  · dsimp only at run
    split at run
    · cases run
    · rename_i store hopen
      split at run
      · cases run
      · rename_i all hall
        cases run
        exact ⟨store, all, hopen, hall, rfl⟩

theorem open_file {env : Env} {db : Db} {s : PyGraphStore} (run : «open» env db = .ok s) :
    ∃ store genesis rest ontology, Store.openDb env.order (env.txn 0) db none = .ok store ∧
      store.oplog.entriesSince none = some (genesis :: rest) ∧
      extractOntologyFromGenesis genesis = .ok ontology ∧
      let graph := (MaterializedGraph.new ontology).rebuild env.order (genesis :: rest)
      s = { backend := .persistent store, graph
            nodeTypes := (genesis :: rest).foldl replayNodeType ∅
            instanceId := genesis.author, clock := genesis.clock, ontology := graph.ontology } := by
  unfold «open» at run
  split at run
  · cases run
  · rename_i store hopen
    split at run
    · cases run
    · cases run
    · rename_i genesis rest hall
      split at run
      · cases run
      · rename_i ontology hont
        cases run
        exact ⟨store, genesis, rest, ontology, hopen, hall, hont, rfl⟩

theorem from_snapshot {env : Env} {instanceId : String} {snapshot : List Entry}
    {s : PyGraphStore} (run : fromSnapshot env instanceId snapshot = .ok s) :
    ∃ genesis rest ontology n oplog all, snapshot = genesis :: rest ∧
      extractOntologyFromGenesis genesis = .ok ontology ∧
      mergeEntries (OpLog.new genesis) rest = (.ok n, oplog) ∧
      oplog.entriesSince none = some all ∧
      let graph := (MaterializedGraph.new ontology).rebuild env.order all
      let maxPhysical := maxOf (all.map fun e => e.clock.physicalMs)
      let maxLogical := maxOf ((all.filter fun e => e.clock.physicalMs = maxPhysical).map
        fun e => e.clock.logical)
      s = { backend := .memory oplog, graph, nodeTypes := all.foldl replayNodeType ∅
            instanceId, clock := HybridClock.withValues instanceId maxPhysical maxLogical
            ontology := graph.ontology } := by
  unfold fromSnapshot at run
  split at run
  · cases run
  · rename_i genesis rest
    split at run
    · cases run
    · rename_i ontology hont
      split at run
      · cases run
      · rename_i n oplog hmerge
        split at run
        · cases run
        · rename_i all hall
          cases run
          exact ⟨genesis, rest, ontology, n, oplog, all, rfl, hont, hmerge, hall, rfl⟩

/-! ### Local writes -/

/-- The entry that `append` makes for an operation. -/
def writtenEntry (self : PyGraphStore) (env : Env) (op : GraphOp) : Entry :=
  self.createEntry op (env.order.walk self.oplog.heads.toList) [] (self.clock.tick (env.wall 0))
    self.instanceId

omit [Crates] in
/-- The store after the clock has ticked. -/
def ticked (self : PyGraphStore) (env : Env) : PyGraphStore :=
  { self with clock := self.clock.tick (env.wall 0) }

variable (s : PyGraphStore) (env : Env) (op : GraphOp)

@[simp]
theorem createEntry_clock (payload : GraphOp) (next refs : List Hash) (clock : HybridClock)
    (author : String) : (s.createEntry payload next refs clock author).clock = clock := by
  rw [createEntry]
  split <;> rfl

@[simp]
theorem createEntry_payload (payload : GraphOp) (next refs : List Hash) (clock : HybridClock)
    (author : String) : (s.createEntry payload next refs clock author).payload = payload := by
  rw [createEntry]
  split <;> rfl

@[simp]
theorem createEntry_next (payload : GraphOp) (next refs : List Hash) (clock : HybridClock)
    (author : String) : (s.createEntry payload next refs clock author).next = next := by
  rw [createEntry]
  split <;> rfl

@[simp]
theorem createEntry_refs (payload : GraphOp) (next refs : List Hash) (clock : HybridClock)
    (author : String) : (s.createEntry payload next refs clock author).refs = refs := by
  rw [createEntry]
  split <;> rfl

@[simp]
theorem createEntry_author (payload : GraphOp) (next refs : List Hash) (clock : HybridClock)
    (author : String) : (s.createEntry payload next refs clock author).author = author := by
  rw [createEntry]
  split <;> rfl

@[simp]
theorem writtenEntry_clock : (s.writtenEntry env op).clock = s.clock.tick (env.wall 0) :=
  createEntry_clock ..

@[simp]
theorem writtenEntry_payload : (s.writtenEntry env op).payload = op := createEntry_payload ..

/-- The three ways an append ends: the payload does not validate, the backend reports an
error (the log may hold the entry all the same), or the entry is applied. -/
theorem append_cases :
    (∃ reason, s.validateEntryPayload (s.writtenEntry env op) = .error reason ∧
      s.append env op = (.error (.valueError reason), s.ticked env)) ∨
    (s.validateEntryPayload (s.writtenEntry env op) = .ok () ∧ ∃ msg,
      (s.backend.append env.order (env.txn 0) (s.writtenEntry env op)).1 = .error msg ∧
      s.append env op = (.error (.runtimeError msg), { s.ticked env with
        backend := (s.backend.append env.order (env.txn 0) (s.writtenEntry env op)).2 })) ∨
    (s.validateEntryPayload (s.writtenEntry env op) = .ok () ∧ ∃ b,
      (s.backend.append env.order (env.txn 0) (s.writtenEntry env op)).1 = .ok b ∧
      s.append env op = (.ok (hexEncode (s.writtenEntry env op).hash), { s.ticked env with
        backend := (s.backend.append env.order (env.txn 0) (s.writtenEntry env op)).2
        graph := s.graph.apply env.order (s.writtenEntry env op) })) := by
  rw [append]
  split
  · rename_i reason hv
    exact .inl ⟨reason, hv, rfl⟩
  · rename_i hv
    right
    split
    · rename_i msg backend hb
      obtain rfl : _ = backend := congrArg Prod.snd hb
      exact .inl ⟨hv, msg, congrArg Prod.fst hb, rfl⟩
    · rename_i b backend hb
      obtain rfl : _ = backend := congrArg Prod.snd hb
      exact .inr ⟨hv, b, congrArg Prod.fst hb, rfl⟩

/-- An append that returns leaves the ticked store, the backend with the entry appended, and
the graph with it applied. -/
theorem append_of_ok {hex : String} {s' : PyGraphStore} (run : s.append env op = (.ok hex, s')) :
    s.validateEntryPayload (s.writtenEntry env op) = .ok () ∧
    hex = hexEncode (s.writtenEntry env op).hash ∧ s' = { s.ticked env with
      backend := (s.backend.append env.order (env.txn 0) (s.writtenEntry env op)).2
      graph := s.graph.apply env.order (s.writtenEntry env op) } := by
  rcases s.append_cases env op with ⟨_, -, h⟩ | ⟨-, _, -, h⟩ | ⟨hv, _, -, h⟩ <;> rw [run] at h
  · cases h
  · cases h
  · obtain ⟨h₁, h₂⟩ := Prod.mk.inj h
    exact ⟨hv, Except.ok.inj h₁, h₂⟩

/-- Whatever an append returns, the clock has ticked. -/
theorem append_clock : (s.append env op).2.clock = s.clock.tick (env.wall 0) := by
  rcases s.append_cases env op with ⟨_, -, h⟩ | ⟨-, _, -, h⟩ | ⟨-, _, -, h⟩ <;> rw [h] <;> rfl

/-- An append neither reads nor changes the map of node types. -/
theorem append_nodeTypes (s : PyGraphStore) (env : Env) (op : GraphOp)
    (nodeTypes : HashMap String String) : ({ s with nodeTypes } : PyGraphStore).append env op =
      ((s.append env op).1, { (s.append env op).2 with nodeTypes }) := by
  have hverdict : ({ s with nodeTypes } : PyGraphStore).validateEntryPayload
      (({ s with nodeTypes } : PyGraphStore).writtenEntry env op) =
      s.validateEntryPayload (s.writtenEntry env op) := rfl
  obtain ⟨reason, hv, h⟩ | ⟨hv, msg, hb, h⟩ | ⟨hv, b, hb, h⟩ := s.append_cases env op <;> rw [h] <;>
    obtain ⟨reason', hv', h'⟩ | ⟨hv', msg', hb', h'⟩ | ⟨hv', b', hb', h'⟩ :=
      ({ s with nodeTypes } : PyGraphStore).append_cases env op <;> rw [h'] <;>
    rw [hverdict, hv] at hv'
  · cases hv'
    rfl
  · cases hv'
  · cases hv'
  · cases hv'
  · cases hb.symm.trans hb'
    rfl
  · cases hb.symm.trans hb'
  · cases hv'
  · cases hb.symm.trans hb'
  · rfl

/-- `add_node` refuses the node, or appends it and, if that returns, notes its type. -/
theorem addNode_cases (nodeId nodeType label : String) (properties : BTreeMap String Value)
    (subtype : Option String) :
    let r := s.append env (.addNode nodeId nodeType subtype label properties)
    (∃ e, s.ontology.validateNode nodeType subtype properties = .error e ∧
      s.addNode env nodeId nodeType label properties subtype = (.error (.valueError e.display), s)) ∨
    s.ontology.validateNode nodeType subtype properties = .ok () ∧
      ((∃ e, r.1 = .error e ∧
        s.addNode env nodeId nodeType label properties subtype = (.error e, r.2)) ∨
      ∃ hex, r.1 = .ok hex ∧ s.addNode env nodeId nodeType label properties subtype =
        (.ok hex, { r.2 with nodeTypes := r.2.nodeTypes.insert nodeId nodeType })) := by
  intro r
  rw [addNode]
  split
  · rename_i e hv
    exact .inl ⟨e, hv, rfl⟩
  · rename_i hv
    refine .inr ⟨hv, ?_⟩
    split <;> rename_i t ha
    · exact .inl ⟨_, congrArg Prod.fst ha, congrArg (Prod.mk _) (congrArg Prod.snd ha).symm⟩
    · refine .inr ⟨_, congrArg Prod.fst ha, ?_⟩
      have ht : r.2 = t := congrArg Prod.snd ha
      rw [ht]

/-- `add_edge` refuses the edge, or both endpoints have a type, the edge validates against
these, and it is appended. -/
theorem addEdge_cases (edgeId edgeType sourceId targetId : String)
    (properties : BTreeMap String Value) :
    (∃ e, s.addEdge env edgeId edgeType sourceId targetId properties = (.error e, s)) ∨
    ∃ sourceType targetType, s.nodeTypes[sourceId]? = some sourceType ∧
      s.nodeTypes[targetId]? = some targetType ∧
      s.ontology.validateEdge edgeType sourceType targetType properties = .ok () ∧
      s.addEdge env edgeId edgeType sourceId targetId properties =
        s.append env (.addEdge edgeId edgeType sourceId targetId properties) := by
  rw [addEdge]
  split
  · exact .inl ⟨_, rfl⟩
  · split
    · exact .inl ⟨_, rfl⟩
    · rename_i sourceType hs _ targetType ht
      split
      · exact .inl ⟨_, rfl⟩
      · rename_i hv
        exact .inr ⟨sourceType, targetType, hs, ht, hv, rfl⟩

omit [Crates] in
/-- What an operation does to the map of node types when it is drained or merged. -/
def noteType (nodeTypes : HashMap String String) : GraphOp → HashMap String String
  | .addNode nodeId nodeType _ _ _ => nodeTypes.insert nodeId nodeType
  | .removeNode nodeId => nodeTypes.erase nodeId
  | _ => nodeTypes

theorem applyMerged_eq (e : Entry) : applyMerged env s e = { s with
    graph := s.graph.apply env.order e, nodeTypes := noteType s.nodeTypes e.payload } := by
  obtain ⟨hash, payload, next, refs, clock, author, sig⟩ := e
  cases payload <;> rfl

/-- Draining refuses the operation, or appends it and, if that returns, follows the types. -/
theorem drainOp_cases :
    let r := s.append env op
    (∃ e, s.drainOp env op = (.error e, s)) ∨
    (op.isDefineOntology || op.isExtendOntology || op.isCheckpoint) = false ∧
      ((∃ e, r.1 = .error e ∧ s.drainOp env op = (.error e, r.2)) ∨
      ∃ hex, r.1 = .ok hex ∧ s.drainOp env op = (.ok hex, { r.2 with
        nodeTypes := noteType r.2.nodeTypes op })) := by
  intro r
  rw [drainOp]
  split
  · exact .inl ⟨_, rfl⟩
  · rename_i hop
    refine .inr ⟨Bool.eq_false_iff.mpr hop, ?_⟩
    split <;> rename_i t ha
    · exact .inl ⟨_, congrArg Prod.fst ha, congrArg (Prod.mk _) (congrArg Prod.snd ha).symm⟩
    · refine .inr ⟨_, congrArg Prod.fst ha, ?_⟩
      have ht : r.2 = t := congrArg Prod.snd ha
      rw [ht]
      cases op <;> rfl

/-- `extend_ontology` refuses the extension, or appends it and, if that returns, takes it
over and re-materializes the graph. -/
theorem extendOntology_cases (extension : OntologyExtension) :
    let r := s.append env (.extendOntology extension)
    let extended := { r.2 with ontology := (r.2.ontology.mergeExtension extension).2 }
    (∃ e, s.extendOntology env extension = (.error e, s)) ∨
    (s.ontology.mergeExtension extension).1 = .ok () ∧
      (s.ontology.mergeExtension extension).2.validateSelf = .ok () ∧
      ((∃ e, r.1 = .error e ∧ s.extendOntology env extension = (.error e, r.2)) ∨
      ∃ hex, r.1 = .ok hex ∧ (s.extendOntology env extension).2 = (extended.revalidate env).2 ∧
        (s.extendOntology env extension).1 = (extended.revalidate env).1.map fun _ => hex) := by
  intro r extended
  rw [extendOntology]
  split
  · exact .inl ⟨_, rfl⟩
  · rename_i testOntology hmerge
    rw [hmerge]
    split
    · exact .inl ⟨_, rfl⟩
    · rename_i hvalid
      refine .inr ⟨rfl, hvalid, ?_⟩
      split <;> rename_i t ha
      · exact .inl ⟨_, congrArg Prod.fst ha, congrArg (Prod.mk _) (congrArg Prod.snd ha).symm⟩
      · refine .inr ⟨_, congrArg Prod.fst ha, ?_⟩
        have ht : { t with ontology := (t.ontology.mergeExtension extension).2 } = extended := by
          simp only [extended, r, ha]
        dsimp only
        rw [ht]
        generalize extended.revalidate env = q
        obtain ⟨_ | _, u⟩ := q <;> exact ⟨rfl, rfl⟩

theorem revalidate_clock : (s.revalidate env).2.clock = s.clock := by
  rw [revalidate]
  split <;> rfl

/-! ### Merging -/

omit [Crates] in
/-- The listed entries whose hash is in the batch: what a merge applies. -/
def listedOf (all batch : List Entry) : List Entry :=
  all.filter fun e => (Std.ExtTreeSet.ofList (batch.map Entry.hash) compare : HashSet Hash).contains
    e.hash

omit [Crates] in
theorem mem_listedOf {all batch : List Entry} {e : Entry} :
    e ∈ listedOf all batch ↔ e ∈ all ∧ e.hash ∈ batch.map Entry.hash := by
  rw [listedOf, List.mem_filter, Std.ExtTreeSet.contains_iff_mem, HashSet.mem_ofList]

/-- The store after the graph has been brought up to a merged log with the given listing. -/
def integrated (self : PyGraphStore) (env : Env) (all batch : List Entry) : PyGraphStore :=
  if batch.any isSchemaChange then (self.revalidate env).2
  else (listedOf all batch).foldl (applyMerged env) self

variable {all batch : List Entry}

theorem integrated_clock : (s.integrated env all batch).clock = s.clock := by
  rw [integrated]
  split
  · exact revalidate_clock s env
  · generalize listedOf all batch = l
    induction l generalizing s with
    | nil => rfl
    | cons e l ih => rw [List.foldl_cons, ih]; rfl

theorem integrate_of_some (hall : s.oplog.entriesSince none = some all) :
    s.integrate env batch = (.ok (), { s.integrated env all batch with
      clock := mergeClocks env.wall 0 s.clock (listedOf all batch) }) := by
  have hrun : s.integrate env batch = (.ok (), { s.integrated env all batch with
      clock := mergeClocks env.wall 0 (s.integrated env all batch).clock (listedOf all batch) }) := by
    simp only [integrate, hall]
    rfl
  rw [hrun, integrated_clock]

theorem integrate_of_none (hall : s.oplog.entriesSince none = none) :
    s.integrate env batch = (.error .panic, s) := by
  simp only [integrate, hall]

/-- The four ways a merge ends: the backend reports an error, nothing is new, the merged log
cannot be listed, or the graph and the clock follow. -/
theorem mergeEntriesVec_cases (es : List Entry) :
    let batch := es.filter s.admits
    let r := s.backend.merge env.order (env.txn 0) batch
    (∃ msg, r.1 = .error msg ∧
      s.mergeEntriesVec env es = (.error (.runtimeError msg), { s with backend := r.2 })) ∨
    (r.1 = .ok 0 ∧ s.mergeEntriesVec env es = (.ok 0, { s with backend := r.2 })) ∨
    (∃ n, r.1 = .ok (n + 1) ∧ r.2.oplog.entriesSince none = none ∧
      s.mergeEntriesVec env es = (.error .panic, { s with backend := r.2 })) ∨
    ∃ n all, r.1 = .ok (n + 1) ∧ r.2.oplog.entriesSince none = some all ∧
      s.mergeEntriesVec env es = (.ok (n + 1), { integrated { s with backend := r.2 } env all batch with
        clock := mergeClocks env.wall 0 s.clock (listedOf all batch) }) := by
  intro batch r
  have hr : s.backend.merge env.order (env.txn 0) (es.filter s.admits) = r := rfl
  rw [mergeEntriesVec]
  dsimp only
  rw [hr]
  clear_value r
  obtain ⟨_ | _ | n, b⟩ := r
  · exact .inl ⟨_, rfl, rfl⟩
  · exact .inr (.inl ⟨rfl, rfl⟩)
  · right; right
    let t : PyGraphStore := { s with backend := b }
    cases hall : t.oplog.entriesSince none with
    | none => exact .inl ⟨n, rfl, hall, by simp only [t.integrate_of_none env hall, t]⟩
    | some all => exact .inr ⟨n, all, rfl, hall, by simp only [t.integrate_of_some env hall, t, batch]⟩

/-- Applying merged entries changes the graph and the map of node types. -/
theorem foldl_applyMerged_eq (es : List Entry) (s : PyGraphStore) :
    ∃ nodeTypes, es.foldl (applyMerged env) s =
      { s with graph := s.graph.applyAll env.order es, nodeTypes } := by
  induction es generalizing s with
  | nil => exact ⟨s.nodeTypes, rfl⟩
  | cons e es ih =>
    obtain ⟨nodeTypes, heq⟩ := ih (applyMerged env s e)
    refine ⟨nodeTypes, ?_⟩
    rw [List.foldl_cons, heq, applyMerged_eq]
    rfl

theorem graph_foldl_applyMerged (es : List Entry) (s : PyGraphStore) :
    (es.foldl (applyMerged env) s).graph = s.graph.applyAll env.order es := by
  obtain ⟨nodeTypes, heq⟩ := foldl_applyMerged_eq env es s
  rw [heq]

/-- The graph of a merged log is rebuilt, or the listed candidates are applied to it. -/
theorem graph_integrated (hall : s.oplog.entriesSince none = some all) :
    (s.integrated env all batch).graph = if batch.any isSchemaChange then s.graph.rebuild env.order all
      else s.graph.applyAll env.order (listedOf all batch) := by
  rw [integrated]
  split
  · rw [PyGraphStore.revalidate, hall]
  · exact graph_foldl_applyMerged ..

/-- A merge whose batch goes through, and whose log is listed afterwards. -/
theorem mergeEntriesVec_of_ok (es : List Entry) {n : ℕ} {b : Backend}
    (hrun : s.backend.merge env.order (env.txn 0) (es.filter s.admits) = (.ok n, b))
    (hall : b.oplog.entriesSince none = some all) : (s.mergeEntriesVec env es).1 = .ok n ∧
      (s.mergeEntriesVec env es).2.graph =
        if n = 0 then s.graph
        else if (es.filter s.admits).any isSchemaChange then s.graph.rebuild env.order all
        else s.graph.applyAll env.order (listedOf all (es.filter s.admits)) := by
  obtain ⟨msg, herr, -⟩ | ⟨hzero, h⟩ | ⟨m, -, hnone, -⟩ | ⟨m, all', hok, hall', h⟩ :=
    s.mergeEntriesVec_cases env es
  · rw [hrun] at herr
    cases herr
  · rw [hrun] at hzero
    obtain rfl : n = 0 := Except.ok.inj hzero
    rw [h]
    exact ⟨rfl, rfl⟩
  · rw [hrun, hall] at hnone
    cases hnone
  · rw [hrun] at hok hall'
    obtain rfl : n = m + 1 := Except.ok.inj hok
    obtain rfl := Option.some.inj (hall.symm.trans hall')
    rw [h, hrun, if_neg (Nat.succ_ne_zero m)]
    exact ⟨rfl, graph_integrated { s with backend := b } env hall⟩

/-! ### Compaction -/

/-- Carrying entries over concerns the backend only. -/
theorem carryOver_frame (h : Hash) (i : ℕ) (es : List Entry) :
    ∃ b, (s.carryOver env h i es).2 = { s with backend := b } := by
  induction es generalizing s i with
  | nil => exact ⟨s.backend, rfl⟩
  | cons e es ih =>
    rw [carryOver]
    split <;> rename_i b _
    · exact ⟨b, rfl⟩
    · exact ih { s with backend := b } (i + 1)

/-- **Rule for carrying over.** What each append keeps holds at the end. -/
theorem carryOver_rule {I : PyGraphStore → Prop} {h : Hash} {es : List Entry} (refl : I s)
    (append : ∀ t i, ∀ e ∈ es, I t → I { t with backend := (t.backend.append env.order (env.txn i)
      (t.createEntry e.payload [h] [] e.clock e.author)).2 }) (i : ℕ) :
    I (s.carryOver env h i es).2 := by
  induction es generalizing s i with
  | nil => exact refl
  | cons e es ih =>
    have hstep := append s i e List.mem_cons_self refl
    rw [carryOver]
    split <;> rename_i hb <;> rw [hb] at hstep
    · exact hstep
    · exact ih _ hstep (fun t i x hx => append t i x (List.mem_cons_of_mem e hx)) (i + 1)

/-- The three ways a compaction ends: the checkpoint is not written, an entry is not carried
over, or the graph is re-materialized. -/
theorem compact_cases :
    let r := s.backend.replaceWithCheckpoint (env.txn 0) (s.checkpointEntry env)
    let q := carryOver { s.ticked env with backend := r.2 } env (s.checkpointEntry env).hash 1
      (s.carried env)
    (∃ msg, r.1 = .error msg ∧
      s.compact env = (.error (.runtimeError msg), { s.ticked env with backend := r.2 })) ∨
    r.1 = .ok () ∧ ((∃ err, q.1 = .error err ∧ s.compact env = (.error err, q.2)) ∨
      q.1 = .ok () ∧ (s.compact env).2 = (q.2.revalidate env).2 ∧
        (s.compact env).1 = (q.2.revalidate env).1.map fun _ =>
          hexEncode (s.checkpointEntry env).hash) := by
  intro r q
  rw [compact]
  split
  · rename_i msg b hr
    obtain rfl : _ = b := congrArg Prod.snd hr
    exact .inl ⟨msg, congrArg Prod.fst hr, rfl⟩
  · rename_i b hr
    obtain rfl : _ = b := congrArg Prod.snd hr
    refine .inr ⟨congrArg Prod.fst hr, ?_⟩
    split <;> rename_i t ht
    · obtain rfl : _ = t := congrArg Prod.snd ht
      exact .inl ⟨_, congrArg Prod.fst ht, rfl⟩
    · obtain rfl : _ = t := congrArg Prod.snd ht
      refine .inr ⟨congrArg Prod.fst ht, ?_⟩
      split <;> rename_i r' u hu
      · have hfst : (q.2.revalidate env).1 = .error r' := congrArg Prod.fst hu
        exact ⟨(congrArg Prod.snd hu).symm, by rw [hfst]; rfl⟩
      · have hfst : (q.2.revalidate env).1 = .ok r' := congrArg Prod.fst hu
        exact ⟨(congrArg Prod.snd hu).symm, by rw [hfst]; rfl⟩

/-- **Rule for compactions.** What holds of the store with the checkpoint in place of its log,
and is kept by what is carried over and by a rebuild, holds after a compaction. -/
theorem compact_rule {I : PyGraphStore → Prop}
    (replace : I { s.ticked env with
      backend := (s.backend.replaceWithCheckpoint (env.txn 0) (s.checkpointEntry env)).2 })
    (append : ∀ t i, ∀ e ∈ s.carried env, I t → I { t with
      backend := (t.backend.append env.order (env.txn i)
        (t.createEntry e.payload [(s.checkpointEntry env).hash] [] e.clock e.author)).2 })
    (revalidate : ∀ t, I t → I (t.revalidate env).2) : I (s.compact env).2 := by
  have hcarry := carryOver_rule { s.ticked env with
    backend := (s.backend.replaceWithCheckpoint (env.txn 0) (s.checkpointEntry env)).2 } env replace append 1
  obtain ⟨msg, -, hrun⟩ | ⟨-, ⟨err, -, hrun⟩ | ⟨-, hsnd, -⟩⟩ := s.compact_cases env
  · rw [hrun]
    exact replace
  · rw [hrun]
    exact hcarry
  · rw [hsnd]
    exact revalidate _ hcarry

/-! ### Any call -/

omit [Crates] in
/-- The operation a local write appends. -/
def Call.written : Call → Option GraphOp
  | .addNode nodeId nodeType label properties subtype =>
    some (.addNode nodeId nodeType subtype label properties)
  | .addEdge edgeId edgeType sourceId targetId properties =>
    some (.addEdge edgeId edgeType sourceId targetId properties)
  | .updateProperty entityId key value => some (.updateProperty entityId key value)
  | .removeNode nodeId => some (.removeNode nodeId)
  | .removeEdge edgeId => some (.removeEdge edgeId)
  | .drain op => some op
  | .extendOntology extension => some (.extendOntology extension)
  | _ => none

omit [Crates] in
/-- The calls that set up keys and trust. -/
def Call.configures : Call → Bool
  | .setSigningKey _ | .registerTrustedAuthor .. | .setRequireSignatures _ => true
  | _ => false

/-- **Rule for calls.** What holds of a store, and goes over to the store after an append,
the notes about node types, a rebuild, another backend with the same log, a merge and a
compaction, holds after any call but those that configure the store. -/
theorem exec_rule {I : PyGraphStore → Prop} {c : Call} (refl : I s)
    (append : ∀ op, c.written = some op → op.isCheckpoint = false → I (s.append env op).2)
    (note : ∀ t nodeTypes, I t → I { t with nodeTypes })
    (revalidate : ∀ t ontology, I t → I ({ t with ontology }.revalidate env).2)
    (backend : ∀ b, b.oplog = s.oplog → I { s with backend := b })
    (merge : ∀ es, c = .merge es → I (s.mergeEntriesVec env es).2)
    (compact : c = .compact → I (s.compact env).2)
    (configure : c.configures = true → I (s.exec env c).2) : I (s.exec env c).2 := by
  cases c with
  | addNode nodeId nodeType label properties subtype =>
    have happ := append _ rfl rfl
    rw [exec, done_snd]
    obtain ⟨_, -, hrun⟩ | ⟨-, ⟨_, -, hrun⟩ | ⟨_, -, hrun⟩⟩ :=
      s.addNode_cases env nodeId nodeType label properties subtype <;> rw [hrun]
    · exact refl
    · exact happ
    · exact note _ _ happ
  | addEdge edgeId edgeType sourceId targetId properties =>
    rw [exec, done_snd]
    obtain ⟨_, hrun⟩ | ⟨_, _, -, -, -, hrun⟩ :=
      s.addEdge_cases env edgeId edgeType sourceId targetId properties <;> rw [hrun]
    · exact refl
    · exact append _ rfl rfl
  | updateProperty entityId key value => exact append _ rfl rfl
  | removeNode nodeId =>
    rw [exec, done_snd, removeNode, s.append_nodeTypes env (.removeNode nodeId)]
    exact note _ _ (append _ rfl rfl)
  | removeEdge edgeId => exact append _ rfl rfl
  | drain op =>
    rw [exec, done_snd]
    obtain ⟨_, hrun⟩ | ⟨hop, ⟨_, -, hrun⟩ | ⟨_, -, hrun⟩⟩ := s.drainOp_cases env op <;> rw [hrun]
    · exact refl
    all_goals
      rw [Bool.or_eq_false_iff] at hop
      have happ := append op rfl hop.2
    · exact happ
    · exact note _ _ happ
  | extendOntology extension =>
    have happ := append _ rfl rfl
    rw [exec, done_snd]
    obtain ⟨_, hrun⟩ | ⟨-, -, ⟨_, -, hrun⟩ | ⟨_, -, hrun, -⟩⟩ := s.extendOntology_cases env extension <;>
      rw [hrun]
    · exact refl
    · exact happ
    · exact revalidate _ _ happ
  | merge entries => exact merge entries rfl
  | revalidate => exact revalidate s s.ontology refl
  | compact => exact compact rfl
  | setFlushMode mode =>
    obtain ⟨b, hrun, hlog⟩ := s.setFlushMode_frame mode
    rw [exec, hrun]
    exact backend b hlog
  | flush =>
    obtain ⟨b, hrun, hlog⟩ := s.flush_frame env
    rw [exec, done_snd, hrun]
    exact backend b hlog
  | setSigningKey | registerTrustedAuthor | setRequireSignatures => exact configure rfl

end PyGraphStore

end SilkGraph
