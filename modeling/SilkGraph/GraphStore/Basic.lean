import SilkGraph.Graph.Basic
import SilkGraph.Store.Basic

/-!
# The graph store

`python/mod.rs`: the log (in memory or over a database file), the graph materialized from
it, the map from live node ids to types, the clock and the ontology, and the calls that keep
them together.

A call takes what it reads from its surroundings as an `Env` and returns its result with
the store it leaves behind, also when it fails halfway. JSON and MessagePack are parsed at
the boundary; the model starts from what the parsers return. Subscribers, the peer registry
and the notification bell do not feed back into the state and are left out here; what
subscribers hear of a merge is in `GraphStore.Events`.
-/

namespace SilkGraph

/-- What a call raises in Python. -/
inductive PyErr where
  | valueError (msg : String)
  | ioError (msg : String)
  | runtimeError (msg : String)
  /-- A Rust panic, raised as `PanicException`; the call did not return. -/
  | panic
  deriving DecidableEq

/-- What one call takes from its surroundings. -/
structure Env where
  /-- The iteration order of its hash maps. -/
  order : HashOrder
  /-- Its successive readings of the wall clock. -/
  wall : ℕ → ℕ
  /-- How its successive transactions end. -/
  txn : ℕ → TxnResult

/-- In-memory stores hold a log, persistent ones a store. -/
inductive Backend where
  | memory (oplog : OpLog)
  | persistent (store : Store)

namespace Backend

/-- The log behind the store. -/
def oplog : Backend → OpLog
  | memory oplog => oplog
  | persistent store => store.oplog

variable [Crates]

/-- Append an entry. -/
def append (self : Backend) (σ : HashOrder) (txn : TxnResult) (entry : Entry) :
    Except String Bool × Backend :=
  match self with
  | memory oplog =>
    let (r, oplog) := oplog.append entry
    (r.mapError OpLogError.display, memory oplog)
  | persistent store =>
    let (r, store) := store.append σ txn entry
    (r.mapError StoreError.display, persistent store)

/-- Merge a batch of entries. -/
def merge (self : Backend) (σ : HashOrder) (txn : TxnResult) (entries : List Entry) :
    Except String ℕ × Backend :=
  match self with
  | memory oplog =>
    let (r, oplog) := mergeEntries oplog entries
    (r, memory oplog)
  | persistent store =>
    let (r, store) := store.merge σ txn entries
    (r.mapError StoreError.display, persistent store)

omit [Crates] in
/-- Replace everything with a checkpoint. -/
def replaceWithCheckpoint (self : Backend) (txn : TxnResult) (checkpoint : Entry) :
    Except String Unit × Backend :=
  match self with
  | memory oplog => (.ok (), memory (oplog.replaceWithCheckpoint checkpoint))
  | persistent store =>
    let (r, store) := store.replaceWithCheckpoint txn checkpoint
    (r.mapError StoreError.display, persistent store)

end Backend

/-- Graph store with ontology validation. -/
structure PyGraphStore where
  backend : Backend
  graph : MaterializedGraph
  /-- Node id to node type, for the endpoints of new edges. -/
  nodeTypes : HashMap String String
  instanceId : String
  clock : HybridClock
  ontology : Ontology
  signingKey : Option (List UInt8) := none
  /-- The public keys of trusted authors. -/
  keyRegistry : HashMap String VerifyingKey := ∅
  /-- Whether unsigned entries are refused on merge. -/
  requireSignatures : Bool := false

/-- `u64::saturating_add`. -/
def u64SaturatingAdd (a b : ℕ) : ℕ := min (a + b) (2 ^ 64 - 1)

namespace PyGraphStore

/-- The log of the store. -/
def oplog (self : PyGraphStore) : OpLog := self.backend.oplog

/-! ### Opening a store -/

/-- What one replayed entry does to the map of node types. -/
def replayNodeType (nodeTypes : HashMap String String) (entry : Entry) : HashMap String String :=
  match entry.payload with
  | .addNode nodeId nodeType _ _ _ => nodeTypes.insert nodeId nodeType
  | .removeNode nodeId => nodeTypes.erase nodeId
  | .checkpoint ops _ _ _ =>
    ops.foldl (fun nodeTypes op => match op with
      | .addNode nodeId nodeType _ _ _ => nodeTypes.insert nodeId nodeType
      | _ => nodeTypes) nodeTypes
  | _ => nodeTypes

variable [Crates]

/-- Merge the clocks of entries one after the other, with the readings from the `i`-th on. -/
def mergeClocks (wall : ℕ → ℕ) : ℕ → HybridClock → List Entry → HybridClock
  | _, clock, [] => clock
  | i, clock, e :: rest => mergeClocks wall (i + 1) (clock.merge e.clock (wall i)) rest

/-- The genesis entry of a new store. -/
def genesis (env : Env) (instanceId : String) (ontology : Ontology) : Entry :=
  let clock := (HybridClock.new instanceId (env.wall 0)).tick (env.wall 1)
  Entry.new (.defineOntology ontology) [] [] clock instanceId

/-- Create a store with the given ontology: in memory, or over the database file of the
given contents. -/
def new (env : Env) (instanceId : String) (ontology : Ontology) (path : Option Db) :
    Except PyErr PyGraphStore :=
  match ontology.validateSelf with
  | .error e => .error (.valueError ("ontology validation failed: " ++ e.display))
  | .ok () =>
    let genesis := genesis env instanceId ontology
    match path with
    | none =>
      .ok { backend := .memory (OpLog.new genesis), graph := .new ontology, nodeTypes := ∅
            instanceId, clock := genesis.clock, ontology }
    | some db =>
      match Store.openDb env.order (env.txn 0) db (some genesis) with
      | .error e => .error (.ioError e.display)
      | .ok store =>
        match store.oplog.entriesSince none with
        | none => .error .panic
        | some all =>
          let graph := (MaterializedGraph.new ontology).rebuild env.order all
          .ok { backend := .persistent store, graph
                nodeTypes := all.foldl replayNodeType ∅, instanceId
                clock := mergeClocks env.wall 2 genesis.clock all, ontology := graph.ontology }

/-- The ontology of a genesis entry, checked. -/
def extractOntologyFromGenesis (entry : Entry) : Except PyErr Ontology :=
  let checked (ontology : Ontology) : Except PyErr Ontology :=
    match ontology.validateSelf with
    | .error e => .error (.valueError ("invalid genesis ontology: " ++ e.display))
    | .ok () => .ok ontology
  match entry.payload with
  | .defineOntology ontology => checked ontology
  | .checkpoint ops _ _ _ =>
    match ops.findSome? fun op => match op with
        | .defineOntology ontology => some ontology
        | _ => none with
    | some ontology => checked ontology
    | none => .error (.runtimeError "checkpoint contains no DefineOntology op")
  | _ => .error (.runtimeError "first entry is not DefineOntology or Checkpoint")

/-- Open an existing persistent store. Identity and clock are those of its first entry. -/
def «open» (env : Env) (db : Db) : Except PyErr PyGraphStore :=
  match Store.openDb env.order (env.txn 0) db none with
  | .error e => .error (.ioError e.display)
  | .ok store =>
    match store.oplog.entriesSince none with
    | none => .error .panic
    | some [] => .error (.runtimeError "store has no entries")
    | some (genesis :: rest) =>
      match extractOntologyFromGenesis genesis with
      | .error e => .error e
      | .ok ontology =>
        let graph := (MaterializedGraph.new ontology).rebuild env.order (genesis :: rest)
        .ok { backend := .persistent store, graph
              nodeTypes := (genesis :: rest).foldl replayNodeType ∅
              instanceId := genesis.author, clock := genesis.clock, ontology := graph.ontology }

/-- The largest value of a list of naturals, 0 for none. -/
def maxOf (l : List ℕ) : ℕ := l.foldl max 0

/-- Create an in-memory store from the entries of a snapshot. -/
def fromSnapshot (env : Env) (instanceId : String) (snapshot : List Entry) :
    Except PyErr PyGraphStore :=
  match snapshot with
  | [] => .error (.valueError "snapshot contains no entries")
  | genesis :: rest =>
    match extractOntologyFromGenesis genesis with
    | .error e => .error e
    | .ok ontology =>
      match mergeEntries (OpLog.new genesis) rest with
      | (.error e, _) => .error (.runtimeError ("snapshot merge failed: " ++ e))
      | (.ok _, oplog) =>
        match oplog.entriesSince none with
        | none => .error .panic
        | some all =>
          let graph := (MaterializedGraph.new ontology).rebuild env.order all
          let maxPhysical := maxOf (all.map fun e => e.clock.physicalMs)
          let maxLogical := maxOf ((all.filter fun e => e.clock.physicalMs = maxPhysical).map
            fun e => e.clock.logical)
          .ok { backend := .memory oplog, graph, nodeTypes := all.foldl replayNodeType ∅
                instanceId, clock := HybridClock.withValues instanceId maxPhysical maxLogical
                ontology := graph.ontology }

/-! ### Local writes -/

/-- Create an entry, signed if the store has a signing key. -/
def createEntry (self : PyGraphStore) (payload : GraphOp) (next refs : List Hash)
    (clock : HybridClock) (author : String) : Entry :=
  match self.signingKey with
  | some key => Entry.newSigned payload next refs clock author key
  | none => Entry.new payload next refs clock author

/-- Validate an entry's payload against the ontology and the live graph. Endpoints that are
not live are not checked, and neither is an update of an entity that is not. -/
def validateEntryPayload (self : PyGraphStore) (entry : Entry) : Except String Unit :=
  match entry.payload with
  | .addNode _ nodeType subtype _ properties =>
    (self.ontology.validateNode nodeType subtype properties).mapError ValidationError.display
  | .addEdge _ edgeType sourceId targetId properties =>
    if !self.ontology.edgeTypes.contains edgeType then .error s!"unknown edge type '{edgeType}'"
    else match self.graph.getNode sourceId, self.graph.getNode targetId with
      | some src, some tgt =>
        (self.ontology.validateEdge edgeType src.nodeType tgt.nodeType properties).mapError
          ValidationError.display
      | _, _ => .ok ()
  | .updateProperty entityId key value =>
    match self.graph.getNode entityId with
    | some node =>
      (self.ontology.validatePropertyUpdate node.nodeType node.subtype key value).mapError
        ValidationError.display
    | none =>
      match self.graph.getEdge entityId with
      | some edge =>
        (self.ontology.validateEdgePropertyUpdate edge.edgeType key value).mapError
          ValidationError.display
      | none => .ok ()
  | _ => .ok ()

/-- Append an operation: the clock ticks, the entry is made on top of all heads, validated,
persisted and applied. -/
def append (self : PyGraphStore) (env : Env) (op : GraphOp) : Except PyErr String × PyGraphStore :=
  let self := { self with clock := self.clock.tick (env.wall 0) }
  let heads := env.order.walk self.oplog.heads.toList
  let entry := self.createEntry op heads [] self.clock self.instanceId
  match self.validateEntryPayload entry with
  | .error reason => (.error (.valueError reason), self)
  | .ok () =>
    match self.backend.append env.order (env.txn 0) entry with
    | (.error msg, backend) => (.error (.runtimeError msg), { self with backend })
    | (.ok _, backend) =>
      (.ok (hexEncode entry.hash), { self with backend, graph := self.graph.apply env.order entry })

/-- Append an `AddNode` operation. -/
def addNode (self : PyGraphStore) (env : Env) (nodeId nodeType label : String)
    (properties : BTreeMap String Value) (subtype : Option String) :
    Except PyErr String × PyGraphStore :=
  match self.ontology.validateNode nodeType subtype properties with
  | .error e => (.error (.valueError e.display), self)
  | .ok () =>
    match self.append env (.addNode nodeId nodeType subtype label properties) with
    | (.error e, self) => (.error e, self)
    | (.ok hex, self) =>
      (.ok hex, { self with nodeTypes := self.nodeTypes.insert nodeId nodeType })

/-- Append an `AddEdge` operation, between nodes the store has a type for. -/
def addEdge (self : PyGraphStore) (env : Env) (edgeId edgeType sourceId targetId : String)
    (properties : BTreeMap String Value) : Except PyErr String × PyGraphStore :=
  match self.nodeTypes[sourceId]? with
  | none => (.error (.valueError
      s!"source node '{sourceId}' not found — add it before creating edges"), self)
  | some sourceType =>
    match self.nodeTypes[targetId]? with
    | none => (.error (.valueError
        s!"target node '{targetId}' not found — add it before creating edges"), self)
    | some targetType =>
      match self.ontology.validateEdge edgeType sourceType targetType properties with
      | .error e => (.error (.valueError e.display), self)
      | .ok () => self.append env (.addEdge edgeId edgeType sourceId targetId properties)

/-- Append an `UpdateProperty` operation. -/
def updateProperty (self : PyGraphStore) (env : Env) (entityId key : String) (value : Value) :
    Except PyErr String × PyGraphStore :=
  self.append env (.updateProperty entityId key value)

/-- Append a `RemoveNode` operation; the type is forgotten first. -/
def removeNode (self : PyGraphStore) (env : Env) (nodeId : String) :
    Except PyErr String × PyGraphStore :=
  { self with nodeTypes := self.nodeTypes.erase nodeId }.append env (.removeNode nodeId)

/-- Append a `RemoveEdge` operation. -/
def removeEdge (self : PyGraphStore) (env : Env) (edgeId : String) :
    Except PyErr String × PyGraphStore :=
  self.append env (.removeEdge edgeId)

/-- Drain one buffered operation: schema operations cannot be buffered, anything else is
appended and the map of node types follows. -/
def drainOp (self : PyGraphStore) (env : Env) (op : GraphOp) : Except PyErr String × PyGraphStore :=
  if op.isDefineOntology || op.isExtendOntology || op.isCheckpoint then
    (.error (.valueError "buffer contains non-bufferable operation"), self)
  else match self.append env op with
    | (.error e, self) => (.error e, self)
    | (.ok hex, self) =>
      (.ok hex, { self with
        nodeTypes := match op with
          | .addNode nodeId nodeType _ _ _ => self.nodeTypes.insert nodeId nodeType
          | .removeNode nodeId => self.nodeTypes.erase nodeId
          | _ => self.nodeTypes })

/-- The map of node types after a rebuild: the live nodes of the graph. -/
def liveNodeTypes (σ : HashOrder) (graph : MaterializedGraph) : HashMap String String :=
  (graph.allNodes σ).foldl (fun m node => m.insert node.nodeId node.nodeType) ∅

/-- Re-materialize the graph from the full log. Returns how many entries left quarantine. -/
def revalidate (self : PyGraphStore) (env : Env) : Except PyErr ℕ × PyGraphStore :=
  match self.oplog.entriesSince none with
  | none => (.error .panic, self)
  | some all =>
    let graph := self.graph.rebuild env.order all
    let freed := (self.graph.quarantined.keys.filter fun h => !graph.quarantined.contains h).length
    (.ok freed, { self with
      graph, nodeTypes := liveNodeTypes env.order graph, ontology := graph.ontology })

/-- Extend the ontology: the extension is tried on a copy, appended, taken over, and the
graph re-materialized against the result. -/
def extendOntology (self : PyGraphStore) (env : Env) (extension : OntologyExtension) :
    Except PyErr String × PyGraphStore :=
  match self.ontology.mergeExtension extension with
  | (.error e, _) => (.error (.valueError e.display), self)
  | (.ok (), testOntology) =>
    match testOntology.validateSelf with
    | .error e => (.error (.valueError e.display), self)
    | .ok () =>
      match self.append env (.extendOntology extension) with
      | (.error e, self) => (.error e, self)
      | (.ok hex, self) =>
        -- `expect("already validated")`: an append leaves the ontology alone
        let self := { self with ontology := (self.ontology.mergeExtension extension).2 }
        match self.revalidate env with
        | (.error e, self) => (.error e, self)
        | (.ok _, self) => (.ok hex, self)

/-! ### Merging -/

/-- How far an entry's physical clock may be ahead of ours, in milliseconds. -/
def maxClockDrift : ℕ := 1000000

/-- The signature check of a merge; a `DefineOntology` needs no signature. -/
def admitsSignature (self : PyGraphStore) (e : Entry) : Bool :=
  if self.requireSignatures && !e.payload.isDefineOntology then
    e.isSigned && match self.keyRegistry[e.author]? with
      | some vk => e.verifySignature vk
      | none => false
  else if e.isSigned then
    match self.keyRegistry[e.author]? with
    | some vk => e.verifySignature vk
    | none => true
  else true

omit [Crates] in
/-- The log is still genesis-only, so a foreign checkpoint may come in. -/
def isBootstrap (self : PyGraphStore) : Bool := self.oplog.len ≤ 1

/-- Whether a merge looks at an entry at all: no foreign checkpoint into a store that has
more than one entry, no clock too far ahead, no bad signature. -/
def admits (self : PyGraphStore) (e : Entry) : Bool :=
  if e.payload.isCheckpoint && e.author != self.instanceId && !self.isBootstrap then false
  else if !e.payload.isDefineOntology &&
      u64SaturatingAdd self.clock.physicalMs maxClockDrift < e.clock.physicalMs then false
  else self.admitsSignature e

/-- What one merged entry does to the graph and the map of node types. -/
def applyMerged (env : Env) (self : PyGraphStore) (entry : Entry) : PyGraphStore :=
  { self with
    graph := self.graph.apply env.order entry
    nodeTypes := match entry.payload with
      | .addNode nodeId nodeType _ _ _ => self.nodeTypes.insert nodeId nodeType
      | .removeNode nodeId => self.nodeTypes.erase nodeId
      | _ => self.nodeTypes }

omit [Crates] in
/-- The entry changes the schema. -/
def isSchemaChange (e : Entry) : Bool := e.payload.isExtendOntology || e.payload.isCheckpoint

/-- Bring the graph up to the merged log: a rebuild if the payload changes the schema,
otherwise every candidate is applied, in the order of the log. Then the clocks are merged. -/
def integrate (self : PyGraphStore) (env : Env) (validEntries : List Entry) :
    Except PyErr Unit × PyGraphStore :=
  let candidates : HashSet Hash := Std.ExtTreeSet.ofList (validEntries.map Entry.hash) compare
  match self.oplog.entriesSince none with
  | none => (.error .panic, self)
  | some all =>
    let merged := all.filter fun e => candidates.contains e.hash
    let self :=
      if validEntries.any isSchemaChange then (self.revalidate env).2
      else merged.foldl (applyMerged env) self
    (.ok (), { self with clock := mergeClocks env.wall 0 self.clock merged })

/-- Merge entries received from a peer. -/
def mergeEntriesVec (self : PyGraphStore) (env : Env) (entries : List Entry) :
    Except PyErr ℕ × PyGraphStore :=
  let validEntries := entries.filter self.admits
  match self.backend.merge env.order (env.txn 0) validEntries with
  | (.error msg, backend) => (.error (.runtimeError msg), { self with backend })
  | (.ok 0, backend) => (.ok 0, { self with backend })
  | (.ok inserted, backend) =>
    match { self with backend }.integrate env validEntries with
    | (.error e, self) => (.error e, self)
    | (.ok (), self) => (.ok inserted, self)

/-! ### Compaction -/

omit [Crates] in
/-- The operations that restore the properties of an entity, each with its clock. -/
def propertyOps (entityId : String) (t : PropertyTable) (lastClock : HybridClock) :
    List (GraphOp × HybridClock) :=
  t.properties.toList.map fun kv =>
    (.updateProperty entityId kv.1 kv.2, t.clocks[kv.1]?.getD lastClock)

omit [Crates] in
/-- The operations that restore a live node: an add without properties, then those. -/
def nodeOps (node : Node) : List (GraphOp × HybridClock) :=
  (.addNode node.nodeId node.nodeType node.subtype node.label ∅, node.lastAddClock) ::
    propertyOps node.nodeId node.table node.lastClock

omit [Crates] in
/-- The operations that restore a live edge. -/
def edgeOps (edge : Edge) : List (GraphOp × HybridClock) :=
  (.addEdge edge.edgeId edge.edgeType edge.sourceId edge.targetId ∅, edge.lastAddClock) ::
    propertyOps edge.edgeId edge.table edge.lastClock

omit [Crates] in
/-- Operations that reconstruct the current graph, each with the clock to replay it at. -/
def buildCheckpointOps (self : PyGraphStore) (σ : HashOrder) : List (GraphOp × HybridClock) :=
  (.defineOntology self.ontology, self.clock) ::
    ((self.graph.allNodes σ).flatMap nodeOps ++ (self.graph.allEdges σ).flatMap edgeOps)

/-- Re-append carried entries under the checkpoint, one transaction each, stopping at the
first failure. -/
def carryOver (self : PyGraphStore) (env : Env) (checkpointHash : Hash) :
    ℕ → List Entry → Except PyErr Unit × PyGraphStore
  | _, [] => (.ok (), self)
  | i, e :: rest =>
    let entry := self.createEntry e.payload [checkpointHash] [] e.clock e.author
    match self.backend.append env.order (env.txn i) entry with
    | (.error msg, backend) => (.error (.runtimeError msg), { self with backend })
    | (.ok _, backend) => carryOver { self with backend } env checkpointHash (i + 1) rest

/-- The checkpoint entry of a compaction, made after the clock has ticked. -/
def checkpointEntry (self : PyGraphStore) (env : Env) : Entry :=
  let ops := self.buildCheckpointOps env.order
  let clock := self.clock.tick (env.wall 0)
  self.createEntry (.checkpoint (ops.map Prod.fst) (ops.map fun oc => oc.2.asTuple)
    clock.physicalMs clock.logical) [] [] clock self.instanceId

omit [Crates] in
/-- The quarantined entries, which a compaction carries over. -/
def carried (self : PyGraphStore) (env : Env) : List Entry :=
  (env.order.walk self.graph.quarantined.keys).filterMap self.oplog.get

/-- Compact the log into a single checkpoint entry, without asking whether that is safe
(`safe = false`): the checkpoint replaces everything, the quarantined entries are re-appended
under it, and the graph is re-materialized. -/
def compact (self : PyGraphStore) (env : Env) : Except PyErr String × PyGraphStore :=
  let carried := self.carried env
  let checkpoint := self.checkpointEntry env
  let self := { self with clock := self.clock.tick (env.wall 0) }
  match self.backend.replaceWithCheckpoint (env.txn 0) checkpoint with
  | (.error msg, backend) => (.error (.runtimeError msg), { self with backend })
  | (.ok (), backend) =>
    match carryOver { self with backend } env checkpoint.hash 1 carried with
    | (.error e, self) => (.error e, self)
    | (.ok (), self) =>
      match self.revalidate env with
      | (.error e, self) => (.error e, self)
      | (.ok _, self) => (.ok (hexEncode checkpoint.hash), self)

/-! ### Configuration -/

omit [Crates] in
/-- Set the flush mode; nothing happens to an in-memory store. -/
def setFlushMode (self : PyGraphStore) (mode : FlushMode) : PyGraphStore :=
  match self.backend with
  | .memory _ => self
  | .persistent store => { self with backend := .persistent (store.setFlushMode mode) }

omit [Crates] in
/-- Flush pending entries to disk. -/
def flush (self : PyGraphStore) (env : Env) : Except PyErr ℕ × PyGraphStore :=
  match self.backend with
  | .memory _ => (.ok 0, self)
  | .persistent store =>
    match store.flush env.order (env.txn 0) with
    | (.error e, store) => (.error (.runtimeError e.display), { self with backend := .persistent store })
    | (.ok n, store) => (.ok n, { self with backend := .persistent store })

omit [Crates] in
/-- Load a signing key. -/
def setSigningKey (self : PyGraphStore) (key : List UInt8) : PyGraphStore :=
  { self with signingKey := some key }

omit [Crates] in
/-- Register a trusted author's public key. -/
def registerTrustedAuthor (self : PyGraphStore) (authorId : String) (key : VerifyingKey) :
    PyGraphStore :=
  { self with keyRegistry := self.keyRegistry.insert authorId key }

omit [Crates] in
/-- Refuse unsigned entries on merge, or not. -/
def setRequireSignatures (self : PyGraphStore) (enabled : Bool) : PyGraphStore :=
  { self with requireSignatures := enabled }

end PyGraphStore

end SilkGraph
