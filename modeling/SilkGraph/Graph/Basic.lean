import SilkGraph.Ontology.Basic

/-!
# The materialized graph

`graph.rs`: the graph an operation log denotes, updated entry by entry (`apply`) or rebuilt
by a replay of the whole log (`rebuild`). Adds win over concurrent removes, properties are
last-writer-wins per key, removals leave tombstones, and an entry the ontology refuses is
quarantined: it stays in the log and out of the graph.

A quarantine record is written under the hash of the entry it is about. Edges that are
waiting for an endpoint are retried in the iteration order of a hash map, so whatever
materializes a node takes a `HashOrder`.
-/

namespace SilkGraph

/-- A materialized node. -/
@[ext]
structure Node where
  nodeId : String
  nodeType : String
  subtype : Option String
  label : String
  properties : BTreeMap String Value
  /-- The clock of the last write of each property. -/
  propertyClocks : HashMap String HybridClock
  /-- Clock of the entry that last modified the node. -/
  lastClock : HybridClock
  /-- Clock of the most recent `AddNode`: a removal has to beat it. -/
  lastAddClock : HybridClock
  tombstoned : Bool

/-- A materialized edge. -/
@[ext]
structure Edge where
  edgeId : String
  edgeType : String
  sourceId : String
  targetId : String
  properties : BTreeMap String Value
  propertyClocks : HashMap String HybridClock
  lastClock : HybridClock
  /-- Clock of the most recent `AddEdge`. -/
  lastAddClock : HybridClock
  tombstoned : Bool

/-- Why an entry was quarantined. -/
structure QuarantineRecord where
  opKind : String
  reason : String
  /-- Hexadecimal content hash of the ontology the decision was made against. -/
  ontologyHash : String
  deriving DecidableEq

/-- Materialized graph, derived from the op log. -/
@[ext]
structure MaterializedGraph where
  nodes : HashMap String Node
  edges : HashMap String Edge
  /-- Node id to the ids of the edges that leave it. -/
  outgoing : HashMap String (HashSet String)
  incoming : HashMap String (HashSet String)
  /-- Node type to the ids of its nodes. -/
  byType : HashMap String (HashSet String)
  /-- The ontology entries are validated against. -/
  ontology : Ontology
  /-- The ontology before any extension; `rebuild` starts from it. -/
  baseOntology : Ontology
  /-- Entries that failed validation. -/
  quarantined : HashMap Hash QuarantineRecord
  /-- Edges that arrived before their endpoints. -/
  pendingEdges : HashMap Hash Entry

/-- The two property tables of an entity. -/
structure PropertyTable where
  properties : BTreeMap String Value
  clocks : HashMap String HybridClock

namespace PropertyTable

/-- A write of one property goes through if the property has no clock or an earlier one. -/
def write (self : PropertyTable) (key : String) (value : Value) (clock : HybridClock) :
    PropertyTable :=
  if (self.clocks[key]?.map fun c => clockWins clock c).getD true then
    ⟨self.properties.insert key value, self.clocks.insert key clock⟩
  else self

/-- Per-property merge: each new property competes with the one that is there. -/
def mergeLww (self : PropertyTable) (newProps : BTreeMap String Value) (clock : HybridClock) :
    PropertyTable :=
  newProps.toList.foldl (fun t kv => t.write kv.1 kv.2 clock) self

/-- The table of an entity that is new: every property carries the clock of the add. -/
def init (properties : BTreeMap String Value) (clock : HybridClock) : PropertyTable :=
  ⟨properties, properties.keys.foldl (fun m k => m.insert k clock) ∅⟩

end PropertyTable

/-- The later of two clocks, the old one unless the new one wins. -/
def laterClock (existing new : HybridClock) : HybridClock :=
  if clockWins new existing then new else existing

namespace Node

/-- The property tables of a node. -/
def table (self : Node) : PropertyTable := ⟨self.properties, self.propertyClocks⟩

/-- A node with other property tables. -/
def withTable (self : Node) (t : PropertyTable) : Node :=
  { self with properties := t.properties, propertyClocks := t.clocks }

/-- The node an `AddNode` creates. -/
def create (nodeId nodeType : String) (subtype : Option String) (label : String)
    (properties : BTreeMap String Value) (clock : HybridClock) : Node where
  nodeId := nodeId
  nodeType := nodeType
  subtype := subtype
  label := label
  properties := (PropertyTable.init properties clock).properties
  propertyClocks := (PropertyTable.init properties clock).clocks
  lastClock := clock
  lastAddClock := clock
  tombstoned := false

/-- `AddNode` on a node that is there: it comes back to life, and label, subtype and
properties merge by clock. Its type stays. -/
def readd (self : Node) (subtype : Option String) (label : String)
    (properties : BTreeMap String Value) (clock : HybridClock) : Node :=
  let t := self.table.mergeLww properties clock
  { self with
    tombstoned := false
    lastAddClock := laterClock self.lastAddClock clock
    label := if clockWins clock self.lastClock then label else self.label
    subtype := if clockWins clock self.lastClock then subtype else self.subtype
    lastClock := laterClock self.lastClock clock
    properties := t.properties
    propertyClocks := t.clocks }

/-- `UpdateProperty` on a node. -/
def update (self : Node) (key : String) (value : Value) (clock : HybridClock) : Node :=
  let t := self.table.write key value clock
  { self with
    properties := t.properties
    propertyClocks := t.clocks
    lastClock := laterClock self.lastClock clock }

/-- `RemoveNode`: only a clock after the last add leaves a tombstone. -/
def remove (self : Node) (clock : HybridClock) : Node :=
  if clockWins clock self.lastAddClock then { self with tombstoned := true, lastClock := clock }
  else self

end Node

namespace Edge

/-- The property tables of an edge. -/
def table (self : Edge) : PropertyTable := ⟨self.properties, self.propertyClocks⟩

/-- The edge an `AddEdge` creates. -/
def create (edgeId edgeType sourceId targetId : String) (properties : BTreeMap String Value)
    (clock : HybridClock) : Edge where
  edgeId := edgeId
  edgeType := edgeType
  sourceId := sourceId
  targetId := targetId
  properties := (PropertyTable.init properties clock).properties
  propertyClocks := (PropertyTable.init properties clock).clocks
  lastClock := clock
  lastAddClock := clock
  tombstoned := false

/-- `AddEdge` on an edge that is there. Its type and endpoints stay. -/
def readd (self : Edge) (properties : BTreeMap String Value) (clock : HybridClock) : Edge :=
  let t := self.table.mergeLww properties clock
  { self with
    tombstoned := false
    lastAddClock := laterClock self.lastAddClock clock
    lastClock := laterClock self.lastClock clock
    properties := t.properties
    propertyClocks := t.clocks }

/-- `UpdateProperty` on an edge. -/
def update (self : Edge) (key : String) (value : Value) (clock : HybridClock) : Edge :=
  let t := self.table.write key value clock
  { self with
    properties := t.properties
    propertyClocks := t.clocks
    lastClock := laterClock self.lastClock clock }

/-- `RemoveEdge`: only a clock after the last add leaves a tombstone. -/
def remove (self : Edge) (clock : HybridClock) : Edge :=
  if clockWins clock self.lastAddClock then { self with tombstoned := true, lastClock := clock }
  else self

end Edge

/-- `index.entry(key).or_default().insert(id)`. -/
def addToIndex (index : HashMap String (HashSet String)) (key id : String) :
    HashMap String (HashSet String) :=
  index.insert key ((index[key]?.getD ∅).insert id)

namespace MaterializedGraph

/-- Create an empty graph with the given ontology. -/
def new (ontology : Ontology) : MaterializedGraph where
  nodes := ∅
  edges := ∅
  outgoing := ∅
  incoming := ∅
  byType := ∅
  ontology := ontology
  baseOntology := ontology
  quarantined := ∅
  pendingEdges := ∅

/-! ### Application helpers -/

/-- Materialize an `AddNode`. -/
def applyAddNode (self : MaterializedGraph) (nodeId nodeType : String) (subtype : Option String)
    (label : String) (properties : BTreeMap String Value) (clock : HybridClock) :
    MaterializedGraph :=
  match self.nodes[nodeId]? with
  | some existing =>
    { self with nodes := self.nodes.insert nodeId (existing.readd subtype label properties clock) }
  | none =>
    { self with
      byType := addToIndex self.byType nodeType nodeId
      nodes := self.nodes.insert nodeId
        (Node.create nodeId nodeType subtype label properties clock) }

/-- Materialize an `AddEdge`. -/
def applyAddEdge (self : MaterializedGraph) (edgeId edgeType sourceId targetId : String)
    (properties : BTreeMap String Value) (clock : HybridClock) : MaterializedGraph :=
  match self.edges[edgeId]? with
  | some existing =>
    { self with edges := self.edges.insert edgeId (existing.readd properties clock) }
  | none =>
    { self with
      outgoing := addToIndex self.outgoing sourceId edgeId
      incoming := addToIndex self.incoming targetId edgeId
      edges := self.edges.insert edgeId
        (Edge.create edgeId edgeType sourceId targetId properties clock) }

/-- Materialize an `UpdateProperty`: the node of that id, else the edge, else nothing. -/
def applyUpdateProperty (self : MaterializedGraph) (entityId key : String) (value : Value)
    (clock : HybridClock) : MaterializedGraph :=
  match self.nodes[entityId]? with
  | some node => { self with nodes := self.nodes.insert entityId (node.update key value clock) }
  | none =>
    match self.edges[entityId]? with
    | some edge => { self with edges := self.edges.insert entityId (edge.update key value clock) }
    | none => self

/-- Materialize a `RemoveNode`. -/
def applyRemoveNode (self : MaterializedGraph) (nodeId : String) (clock : HybridClock) :
    MaterializedGraph :=
  match self.nodes[nodeId]? with
  | some node => { self with nodes := self.nodes.insert nodeId (node.remove clock) }
  | none => self

/-- Materialize a `RemoveEdge`. -/
def applyRemoveEdge (self : MaterializedGraph) (edgeId : String) (clock : HybridClock) :
    MaterializedGraph :=
  match self.edges[edgeId]? with
  | some edge => { self with edges := self.edges.insert edgeId (edge.remove clock) }
  | none => self

/-! ### Applying an entry -/

/-- Take an entry out of quarantine. -/
def release (self : MaterializedGraph) (hash : Hash) : MaterializedGraph :=
  { self with quarantined := self.quarantined.erase hash }

variable [Crates]

/-- The content hash of an ontology, as a record quotes it. -/
def ontologyDigest (ontology : Ontology) : String := hexEncode (Crates.ontologyHash ontology)

/-- Quarantine an entry. -/
def quarantine (self : MaterializedGraph) (hash : Hash) (kind reason : String) :
    MaterializedGraph :=
  { self with
    quarantined := self.quarantined.insert hash ⟨kind, reason, ontologyDigest self.ontology⟩ }

/-- The `AddEdge` arm: the edge type must exist, an edge with a missing endpoint is held
pending, and with both endpoints there the edge is validated in full. -/
def addEdgeArm (self : MaterializedGraph) (entry : Entry) (mode : ValidationMode)
    (edgeId edgeType sourceId targetId : String) (properties : BTreeMap String Value) :
    MaterializedGraph :=
  if !self.ontology.edgeTypes.contains edgeType then
    self.quarantine entry.hash "add_edge" (ValidationError.unknownEdgeType edgeType).display
  else match self.nodes[sourceId]?, self.nodes[targetId]? with
    | some src, some tgt =>
      match self.ontology.validateEdgeMode edgeType src.nodeType tgt.nodeType properties mode with
      | .error e => self.quarantine entry.hash "add_edge" e.display
      | .ok () =>
        (self.release entry.hash).applyAddEdge edgeId edgeType sourceId targetId properties
          entry.clock
    | _, _ =>
      let self := { self with pendingEdges := self.pendingEdges.insert entry.hash entry }
      self.quarantine entry.hash "add_edge"
        (s!"endpoint not yet materialized (source '{sourceId}', " ++
          s!"target '{targetId}'); held pending until both arrive")

/-- A held edge both of whose endpoints are there by now. -/
def isReady (self : MaterializedGraph) (entry : Entry) : Bool :=
  match entry.payload with
  | .addEdge _ _ sourceId targetId _ => self.nodes.contains sourceId && self.nodes.contains targetId
  | _ => false

/-- Retry one held edge. -/
def retryEdge (self : MaterializedGraph) (entry : Entry) : MaterializedGraph :=
  let self := { self with pendingEdges := self.pendingEdges.erase entry.hash }
  match entry.payload with
  | .addEdge edgeId edgeType sourceId targetId properties =>
    self.addEdgeArm entry .full edgeId edgeType sourceId targetId properties
  | _ => self

/-- Re-evaluate the edges that were waiting for an endpoint. -/
def retryPendingEdges (self : MaterializedGraph) (σ : HashOrder) : MaterializedGraph :=
  let ready := ((σ.walk self.pendingEdges.toList).map Prod.snd).filter fun e => self.isReady e
  ready.foldl retryEdge self

/-- The `AddNode` arm. -/
def addNodeArm (self : MaterializedGraph) (σ : HashOrder) (entry : Entry) (mode : ValidationMode)
    (nodeId nodeType : String) (subtype : Option String) (label : String)
    (properties : BTreeMap String Value) : MaterializedGraph :=
  match self.ontology.validateNodeMode nodeType subtype properties mode with
  | .error e => self.quarantine entry.hash "add_node" e.display
  | .ok () =>
    ((self.release entry.hash).applyAddNode nodeId nodeType subtype label properties
      entry.clock).retryPendingEdges σ

/-- What an update is validated against: the node of that id, else the edge, else nothing. -/
def updateVerdict (self : MaterializedGraph) (entityId key : String) (value : Value) :
    Except ValidationError Unit :=
  match self.nodes[entityId]? with
  | some node => self.ontology.validatePropertyUpdate node.nodeType node.subtype key value
  | none =>
    match self.edges[entityId]? with
    | some edge => self.ontology.validateEdgePropertyUpdate edge.edgeType key value
    | none => .ok ()

/-- The `UpdateProperty` arm. -/
def updatePropertyArm (self : MaterializedGraph) (entry : Entry) (entityId key : String)
    (value : Value) : MaterializedGraph :=
  match self.updateVerdict entityId key value with
  | .error e => self.quarantine entry.hash "update_property" e.display
  | .ok () => (self.release entry.hash).applyUpdateProperty entityId key value entry.clock

/-- The `ExtendOntology` arm. A rejected extension is recorded against the ontology the
attempt leaves behind. -/
def extendOntologyArm (self : MaterializedGraph) (entry : Entry) (extension : OntologyExtension) :
    MaterializedGraph :=
  match self.ontology.mergeExtension extension with
  | (.error e, ontology) =>
    { self with ontology }.quarantine entry.hash "extend_ontology" e.display
  | (.ok (), ontology) => { self with ontology }.release entry.hash

/-- The clock of the `i`-th operation of a checkpoint: the recorded time under the
checkpoint's author. -/
def opClock (entry : Entry) (opClocks : List (ℕ × ℕ)) (i : ℕ) : HybridClock :=
  match opClocks[i]? with
  | some c => HybridClock.withValues entry.author c.1 c.2
  | none => entry.clock

mutual

/-- Apply the payload of an entry. The operations of a checkpoint are applied as entries of
their own; `adoptCheckpointOntology` says whether the ontology it carries is taken over. -/
def applyPayload (σ : HashOrder) (mode : ValidationMode) (adoptCheckpointOntology : Bool)
    (entry : Entry) : GraphOp → MaterializedGraph → MaterializedGraph
  | .checkpoint ops opClocks _ _, self =>
    (applyOps σ adoptCheckpointOntology entry opClocks ops 0 self).release entry.hash
  | .defineOntology _, self => self
  | .extendOntology extension, self => self.extendOntologyArm entry extension
  | .addNode nodeId nodeType subtype label properties, self =>
    self.addNodeArm σ entry mode nodeId nodeType subtype label properties
  | .addEdge edgeId edgeType sourceId targetId properties, self =>
    self.addEdgeArm entry mode edgeId edgeType sourceId targetId properties
  | .updateProperty entityId key value, self => self.updatePropertyArm entry entityId key value
  | .removeNode nodeId, self => (self.release entry.hash).applyRemoveNode nodeId entry.clock
  | .removeEdge edgeId, self => (self.release entry.hash).applyRemoveEdge edgeId entry.clock
  | .defineLens _, self => self

/-- Apply the operations of a checkpoint from the `i`-th on. -/
def applyOps (σ : HashOrder) (adoptCheckpointOntology : Bool) (entry : Entry)
    (opClocks : List (ℕ × ℕ)) : List GraphOp → ℕ → MaterializedGraph → MaterializedGraph
  | [], _, self => self
  | .defineOntology ontology :: ops, i, self =>
    applyOps σ adoptCheckpointOntology entry opClocks ops (i + 1)
      (if adoptCheckpointOntology then { self with ontology } else self)
  | op :: ops, i, self =>
    applyOps σ adoptCheckpointOntology entry opClocks ops (i + 1)
      (applyPayload σ .skipRequired true
        (Entry.new op [] [] (opClock entry opClocks i) entry.author) op self)

end

/-- The core of `apply`. -/
def applyInner (self : MaterializedGraph) (σ : HashOrder) (entry : Entry) (mode : ValidationMode)
    (adoptCheckpointOntology : Bool) : MaterializedGraph :=
  applyPayload σ mode adoptCheckpointOntology entry entry.payload self

/-- Apply a single entry to the graph. -/
def apply (self : MaterializedGraph) (σ : HashOrder) (entry : Entry) : MaterializedGraph :=
  self.applyInner σ entry .full true

/-- Apply a sequence of entries. -/
def applyAll (self : MaterializedGraph) (σ : HashOrder) (entries : List Entry) :
    MaterializedGraph :=
  entries.foldl (fun g e => g.apply σ e) self

/-! ### Rebuilding -/

/-- Pass 1 on one entry: fold the ontology. -/
def foldOntology (self : MaterializedGraph) (entry : Entry) : MaterializedGraph :=
  match entry.payload with
  | .extendOntology extension =>
    match self.ontology.mergeExtension extension with
    | (.error e, ontology) =>
      { self with ontology }.quarantine entry.hash "extend_ontology" e.display
    | (.ok (), ontology) => { self with ontology }
  | .checkpoint ops _ _ _ =>
    { self with
      ontology := ops.foldl (fun ontology op => match op with
        | .defineOntology ontology => ontology
        | _ => ontology) self.ontology }
  | _ => self

/-- Pass 2 on one entry: materialize it against the final ontology. -/
def materialize (σ : HashOrder) (self : MaterializedGraph) (entry : Entry) : MaterializedGraph :=
  if entry.payload.isExtendOntology then self else self.applyInner σ entry .full false

/-- Rebuild from scratch: clear everything and replay all entries. -/
def rebuild (self : MaterializedGraph) (σ : HashOrder) (entries : List Entry) :
    MaterializedGraph :=
  entries.foldl (materialize σ) (entries.foldl foldOntology (new self.baseOntology))

/-! ### Queries -/

omit [Crates] in
/-- A node by id, unless it is tombstoned. -/
def getNode (self : MaterializedGraph) (nodeId : String) : Option Node :=
  self.nodes[nodeId]?.filter fun n => !n.tombstoned

omit [Crates] in
/-- An edge by id, unless it is tombstoned. -/
def getEdge (self : MaterializedGraph) (edgeId : String) : Option Edge :=
  self.edges[edgeId]?.filter fun e => !e.tombstoned

omit [Crates] in
/-- The node is there and not tombstoned. -/
def isNodeLive (self : MaterializedGraph) (nodeId : String) : Bool :=
  (self.nodes[nodeId]?.map fun n => !n.tombstoned).getD false

omit [Crates] in
/-- All live nodes. -/
def allNodes (self : MaterializedGraph) (σ : HashOrder) : List Node :=
  ((σ.walk self.nodes.toList).map Prod.snd).filter fun n => !n.tombstoned

omit [Crates] in
/-- All live edges, with live endpoints. -/
def allEdges (self : MaterializedGraph) (σ : HashOrder) : List Edge :=
  ((σ.walk self.edges.toList).map Prod.snd).filter fun e =>
    !e.tombstoned && self.isNodeLive e.sourceId && self.isNodeLive e.targetId

end MaterializedGraph

end SilkGraph
