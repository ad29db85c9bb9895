import SilkGraph.OpLog.Traversal
import SilkGraph.Sync.Basic
import SilkGraph.Sync.Merge
import SilkGraph.Sync.Delivery
import SilkGraph.Store.Basic
import SilkGraph.Store.Reconstruct
import SilkGraph.Store.Reopen
import SilkGraph.Sync.Atomic
import SilkGraph.Store.Durability
import SilkGraph.Graph.Basic
import SilkGraph.GraphStore.Basic
import SilkGraph.GraphStore.Reachable
import SilkGraph.GraphStore.MergeLog
import SilkGraph.Data.ClockOrder
import SilkGraph.Graph.Tables
import SilkGraph.Graph.Entities
import SilkGraph.Graph.Slots
import SilkGraph.Lib.Replay
import SilkGraph.OpLog.Enumeration
import SilkGraph.Sync.UpToDate
import SilkGraph.Sync.BloomRuns
import SilkGraph.Sync.EntryStream
import SilkGraph.Sync.Wire
import SilkGraph.GraphStore.Calls
import SilkGraph.GraphStore.Newest
import SilkGraph.OpLog.Order
import SilkGraph.OpLog.Canonical
import SilkGraph.Graph.Schema
import SilkGraph.GraphStore.Identity
import SilkGraph.Graph.Visible
import SilkGraph.GraphStore.Bootstrap
import SilkGraph.GraphStore.ReadBack
import SilkGraph.Graph.Changes
import SilkGraph.GraphStore.NodeTypes
import SilkGraph.GraphStore.Doors
import SilkGraph.Graph.Inert
import SilkGraph.Graph.Conformance
import SilkGraph.GraphStore.Conformance
import SilkGraph.Graph.Shown
import SilkGraph.Graph.Reflects
import SilkGraph.GraphStore.Peers
import SilkGraph.GraphStore.Compaction
import SilkGraph.Sync.Tail
import SilkGraph.Sync.Cursor
import SilkGraph.Sync.Batches
import SilkGraph.GraphStore.Gossip
import SilkGraph.Graph.Clocks
import SilkGraph.GraphStore.Drift
import SilkGraph.Graph.Actions
import SilkGraph.Graph.Resolved
import SilkGraph.GraphStore.Resolved
import SilkGraph.GraphStore.Signatures
import SilkGraph.GraphStore.SyncTargets
import SilkGraph.GraphStore.Events
import SilkGraph.GraphStore.TimeTravel
import SilkGraph.Graph.Determinism
import SilkGraph.Sync.Filtered
import SilkGraph.Graph.Decided
import SilkGraph.Graph.Rebuild
import SilkGraph.Lib.AddWins
import SilkGraph.Graph.Kinds
import SilkGraph.Graph.Existence
import SilkGraph.Graph.Indexes
import SilkGraph.Graph.Descriptors
import SilkGraph.Graph.Writes
import SilkGraph.Graph.Arrivals
import SilkGraph.GraphStore.Filtered
import SilkGraph.Graph.Restored
import SilkGraph.Graph.Queries
import SilkGraph.GraphStore.Preserved
import SilkGraph.Lib.Chain
import SilkGraph.Ontology.Hierarchy
import SilkGraph.Ontology.Rules
import SilkGraph.Ontology.Extensions
import SilkGraph.Graph.Rejected
import SilkGraph.Ontology.Acceptance
import SilkGraph.Ontology.Fingerprint
import SilkGraph.Ontology.Compatibility
import SilkGraph.Ontology.Evolution
import SilkGraph.Lib.Route
import SilkGraph.OpLog.Provenance
import SilkGraph.Engine.Basic
import SilkGraph.Lib.Breadth
import SilkGraph.Lib.Loop
import SilkGraph.Engine.Traversal
import SilkGraph.Engine.ShortestPath
import SilkGraph.Engine.TopologicalSort
import SilkGraph.Data.ClockRuns
import SilkGraph.Lib.Bytes
import SilkGraph.ObsLog.Basic
import SilkGraph.ObsLog.Kept
import SilkGraph.ObsLog.Ordered
import SilkGraph.Store.Failures
import SilkGraph.Lib.Depth
import SilkGraph.Lib.MsgPack
import SilkGraph.Engine.DepthFirst
import SilkGraph.Engine.Patterns
import SilkGraph.GraphStore.Forged
import SilkGraph.Data.JsonText
import SilkGraph.Lib.TextLines
import SilkGraph.GraphStore.Buffer
import SilkGraph.Lib.Gossip
import SilkGraph.Lib.Runs
import SilkGraph.Sync.Network
import SilkGraph.Sync.Known
import SilkGraph.Graph.Resent
import SilkGraph.GraphStore.Redelivery
import SilkGraph.GraphStore.TailThreads
import SilkGraph.ObsLog.Timeline
import SilkGraph.Sync.BloomSets
import SilkGraph.Python.Objects
import SilkGraph.Python.Reader
import SilkGraph.Python.Query
import SilkGraph.Python.Views
import SilkGraph.Lib.Lockstep
import SilkGraph.GraphStore.InMemory
import SilkGraph.OpLog.Window
import SilkGraph.GraphStore.Past
import SilkGraph.GraphStore.Causality
import SilkGraph.Data.Derived
import SilkGraph.Data.SchemaJson
