import SilkGraph.Graph.Queries
import SilkGraph.Lib.Loop

/-!
# Graph algorithms

`engine.rs`: traversals, shortest paths, pattern matching and topological sort over the live
part of a graph. A `while` loop of the source is a turn that `Loop.run` repeats, and a function
comes to `none` if its loop does not end within the turns that it has; that this never happens
is part of what is proved of each of them. The stack of `dfs` is a list with its top in front.
-/

namespace SilkGraph

open MaterializedGraph

namespace Engine

/-! ### Traversals -/

/-- What a traversal keeps: the nodes seen, those still to visit with their depths, and those
visited. -/
structure Traversal where
  visited : HashSet String
  queue : List (String × ℕ)
  result : List String

namespace Traversal

/-- A node that is not seen yet joins the end of the queue. -/
def enqueue (self : Traversal) (depth : ℕ) (id : String) : Traversal :=
  if self.visited.contains id then self
  else { self with visited := self.visited.insert id, queue := self.queue ++ [(id, depth)] }

/-- A node that is not seen yet goes on top of the stack. -/
def push (self : Traversal) (depth : ℕ) (id : String) : Traversal :=
  if self.visited.contains id then self
  else { self with visited := self.visited.insert id, queue := (id, depth) :: self.queue }

/-- One turn: visit the next node and, unless it is at the limit, add its neighbours. -/
def turn (add : Traversal → ℕ → String → Traversal) (neighbours : String → List String)
    (maxDepth : Option ℕ) (self : Traversal) : Traversal ⊕ List String :=
  match self.queue with
  | [] => .inr self.result
  | (nodeId, depth) :: queue =>
    let self := { self with queue, result := self.result ++ [nodeId] }
    if maxDepth.any fun max => max ≤ depth then .inl self
    else .inl ((neighbours nodeId).foldl (fun t id => add t (depth + 1) id) self)

end Traversal

/-- A traversal from a start node; nothing if the start is not live. -/
def traverse (add : Traversal → ℕ → String → Traversal) (neighbours : String → List String)
    (graph : MaterializedGraph) (start : String) (maxDepth : Option ℕ) : Option (List String) :=
  if (graph.getNode start).isNone then some []
  else Loop.run (Traversal.turn add neighbours maxDepth) (graph.nodes.size + 1)
    { visited := (∅ : HashSet String).insert start, queue := [(start, 0)], result := [] }

/-- The targets of the outgoing edges that pass the filter. -/
def targets (graph : MaterializedGraph) (σ : HashOrder) (edgeTypeFilter : Option String)
    (nodeId : String) : List String :=
  ((graph.outgoingEdges σ nodeId).filter fun edge =>
    edgeTypeFilter.all fun filter => edge.edgeType == filter).map Edge.targetId

/-- The sources of the incoming edges. -/
def sources (graph : MaterializedGraph) (σ : HashOrder) (nodeId : String) : List String :=
  (graph.incomingEdges σ nodeId).map Edge.sourceId

/-- BFS traversal: node ids in visit order. -/
def bfs (graph : MaterializedGraph) (σ : HashOrder) (start : String) (maxDepth : Option ℕ)
    (edgeTypeFilter : Option String) : Option (List String) :=
  traverse Traversal.enqueue (targets graph σ edgeTypeFilter) graph start maxDepth

/-- DFS traversal: node ids in visit order. -/
def dfs (graph : MaterializedGraph) (σ : HashOrder) (start : String) (maxDepth : Option ℕ)
    (edgeTypeFilter : Option String) : Option (List String) :=
  traverse Traversal.push (targets graph σ edgeTypeFilter) graph start maxDepth

/-- Impact analysis: reverse BFS over the edges of every type. -/
def impactAnalysis (graph : MaterializedGraph) (σ : HashOrder) (nodeId : String)
    (maxDepth : Option ℕ) : Option (List String) :=
  traverse Traversal.enqueue (sources graph σ) graph nodeId maxDepth

/-! ### Subgraphs -/

/-- What `subgraph` keeps. -/
structure Extraction where
  visitedNodes : HashSet String
  visitedEdges : HashSet String
  queue : List (String × ℕ)

namespace Extraction

/-- Take an edge, and the node at its other end if that is not seen yet. -/
def take (self : Extraction) (depth : ℕ) (edgeId nodeId : String) : Extraction :=
  let self := { self with visitedEdges := self.visitedEdges.insert edgeId }
  if self.visitedNodes.contains nodeId then self
  else { self with
    visitedNodes := self.visitedNodes.insert nodeId
    queue := self.queue ++ [(nodeId, depth)] }

/-- One turn of `subgraph`: outgoing edges first, then incoming ones. -/
def turn (graph : MaterializedGraph) (σ : HashOrder) (hops : ℕ) (self : Extraction) :
    Extraction ⊕ List String × List String :=
  match self.queue with
  | [] => .inr (σ.walk self.visitedNodes.toList, σ.walk self.visitedEdges.toList)
  | (nodeId, depth) :: queue =>
    let self := { self with queue }
    if hops ≤ depth then .inl self
    else
      let self := (graph.outgoingEdges σ nodeId).foldl
        (fun t edge => t.take (depth + 1) edge.edgeId edge.targetId) self
      .inl ((graph.incomingEdges σ nodeId).foldl
        (fun t edge => t.take (depth + 1) edge.edgeId edge.sourceId) self)

end Extraction

/-- Extract a subgraph: all nodes and edges within some hops of a start node. -/
def subgraph (graph : MaterializedGraph) (σ : HashOrder) (start : String) (hops : ℕ) :
    Option (List String × List String) :=
  if (graph.getNode start).isNone then some ([], [])
  else Loop.run (Extraction.turn graph σ hops) (graph.nodes.size + 1)
    { visitedNodes := (∅ : HashSet String).insert start, visitedEdges := ∅, queue := [(start, 0)] }

/-! ### Shortest paths -/

/-- What `shortest_path` keeps. -/
structure PathSearch where
  visited : HashSet String
  /-- The node from which a node was first seen. -/
  parent : HashMap String String
  queue : List String

namespace PathSearch

/-- The inner loop: see the targets of the edges of a node, and leave with the parents as soon
as the end is one of them. -/
def expand (target current : String) : List Edge → PathSearch → PathSearch ⊕ HashMap String String
  | [], self => .inl self
  | edge :: edges, self =>
    if self.visited.contains edge.targetId then expand target current edges self
    else
      let self := { self with
        visited := self.visited.insert edge.targetId
        parent := self.parent.insert edge.targetId current }
      if edge.targetId == target then .inr self.parent
      else expand target current edges { self with queue := self.queue ++ [edge.targetId] }

/-- One turn of the search: leave with the parents, or with `none` when the queue is empty. -/
def turn (graph : MaterializedGraph) (σ : HashOrder) (target : String) (self : PathSearch) :
    PathSearch ⊕ Option (HashMap String String) :=
  match self.queue with
  | [] => .inr none
  | current :: queue =>
    match expand target current (graph.outgoingEdges σ current) { self with queue } with
    | .inl self => .inl self
    | .inr parent => .inr (some parent)

/-- One turn of the reconstruction: the path so far, last node first, and the node it is at. -/
def backTurn (parent : HashMap String String) (back : List String × String) :
    (List String × String) ⊕ List String :=
  match parent[back.2]? with
  | some p => .inl (back.1 ++ [p], p)
  | none => .inr back.1.reverse

end PathSearch

/-- Shortest path between two nodes, both included. The outer option is for the two loops. -/
def shortestPath (graph : MaterializedGraph) (σ : HashOrder) (start target : String) :
    Option (Option (List String)) :=
  if (graph.getNode start).isNone || (graph.getNode target).isNone then some none
  else if start == target then some (some [start])
  else
    match Loop.run (PathSearch.turn graph σ target) (graph.nodes.size + 1)
      { visited := (∅ : HashSet String).insert start, parent := ∅, queue := [start] } with
    | none => none
    | some none => some none
    | some (some parent) =>
      (Loop.run (PathSearch.backTurn parent) (graph.nodes.size + 1) ([target], target)).map some

/-! ### Pattern matching -/

/-- Extend the chains by the edges they come with, to nodes of the next type that are not in
the chain yet. As soon as the results and the extended chains together reach the cap, the whole
search leaves with them. -/
def extendChains (graph : MaterializedGraph) (nextType : String) (maxResults : ℕ)
    (results : List (List String)) : List (List String × Edge) → List (List String) →
      List (List String) ⊕ List (List String)
  | [], extended => .inl extended
  | (chain, edge) :: steps, extended =>
    match graph.getNode edge.targetId with
    | none => extendChains graph nextType maxResults results steps extended
    | some targetNode =>
      if targetNode.nodeType == nextType && !chain.contains edge.targetId then
        let extended := extended ++ [chain ++ [edge.targetId]]
        if maxResults ≤ results.length + extended.length then
          .inr ((results ++ extended).take maxResults)
        else extendChains graph nextType maxResults results steps extended
      else extendChains graph nextType maxResults results steps extended

/-- The edges out of the last node of each chain. -/
def chainSteps (graph : MaterializedGraph) (σ : HashOrder) (chains : List (List String)) :
    List (List String × Edge) :=
  chains.flatMap fun chain =>
    chain.getLast?.toList.flatMap fun last => (graph.outgoingEdges σ last).map fun edge => (chain, edge)

/-- Grow the chains type by type. -/
def growChains (graph : MaterializedGraph) (σ : HashOrder) (maxResults : ℕ)
    (results : List (List String)) : List String → List (List String) →
      List (List String) ⊕ List (List String)
  | [], chains => .inl chains
  | nextType :: types, chains =>
    match extendChains graph nextType maxResults results (chainSteps graph σ chains) [] with
    | .inl extended => growChains graph σ maxResults results types extended
    | .inr results => .inr results

/-- Grow the chains of one start node after the other, until the cap is reached. -/
def matchFrom (graph : MaterializedGraph) (σ : HashOrder) (maxResults : ℕ) (types : List String) :
    List Node → List (List String) → List (List String)
  | [], results => results
  | start :: starts, results =>
    match growChains graph σ maxResults results types [[start.nodeId]] with
    | .inr results => results
    | .inl chains =>
      let results := results ++ chains
      if maxResults ≤ results.length then results.take maxResults
      else matchFrom graph σ maxResults types starts results

/-- Find chains of nodes that match a sequence of types, up to a number of results. -/
def patternMatch (graph : MaterializedGraph) (σ : HashOrder) (typeSequence : List String)
    (maxResults : ℕ) : List (List String) :=
  match typeSequence with
  | [] => []
  | first :: types => matchFrom graph σ maxResults types (graph.nodesByType σ first) []

/-! ### Topological sort -/

/-- What `topological_sort` keeps. -/
structure Sorting where
  inDegree : HashMap String ℕ
  queue : List String
  result : List String

namespace Sorting

/-- Take one edge away from the in-degree of its target, which joins the queue with the last.
A counter that would go below zero comes to `none`. -/
def release (self : Sorting) (edge : Edge) : Option Sorting :=
  match self.inDegree[edge.targetId]? with
  | none => some self
  | some 0 => none
  | some (deg + 1) =>
    some { self with
      inDegree := self.inDegree.insert edge.targetId deg
      queue := if deg == 0 then self.queue ++ [edge.targetId] else self.queue }

/-- One turn of the sort. It leaves with `none` on an underflow. -/
def turn (graph : MaterializedGraph) (σ : HashOrder) (self : Sorting) :
    Sorting ⊕ Option (List String) :=
  match self.queue with
  | [] => .inr (some self.result)
  | nodeId :: queue =>
    match (graph.outgoingEdges σ nodeId).foldlM release
        { self with queue, result := self.result ++ [nodeId] } with
    | none => .inr none
    | some self => .inl self

end Sorting

/-- Count an edge between nodes of the graph. -/
def countEdge (nodeIds : HashSet String) (inDegree : HashMap String ℕ) (edge : Edge) :
    HashMap String ℕ :=
  if nodeIds.contains edge.targetId && nodeIds.contains edge.sourceId then
    inDegree.insert edge.targetId (inDegree[edge.targetId]?.getD 0 + 1)
  else inDegree

/-- The ids of the live nodes. -/
def liveIds (graph : MaterializedGraph) (σ : HashOrder) : HashSet String :=
  Std.ExtTreeSet.ofList ((graph.allNodes σ).map Node.nodeId) compare

/-- The in-degrees to start with. -/
def inDegrees (graph : MaterializedGraph) (σ : HashOrder) : HashMap String ℕ :=
  (graph.allEdges σ).foldl (countEdge (liveIds graph σ))
    ((σ.walk (liveIds graph σ).toList).foldl (fun m id => m.insert id 0) ∅)

/-- The nodes without incoming edges, in order. -/
def roots (graph : MaterializedGraph) (σ : HashOrder) : List String :=
  (((σ.walk (inDegrees graph σ).toList).filter fun kv => kv.2 == 0).map Prod.fst).mergeSort
    fun a b => (compare a b).isLE

/-- Topological sort: `none` inside if a cycle is detected. The outer option is for the loop and
the counters. -/
def topologicalSort (graph : MaterializedGraph) (σ : HashOrder) : Option (Option (List String)) :=
  match Loop.run (Sorting.turn graph σ) (graph.nodes.size + 1)
      { inDegree := inDegrees graph σ, queue := roots graph σ, result := [] } with
  | some (some result) =>
    some (if result.length == (liveIds graph σ).size then some result else none)
  | _ => none

/-- Cycle detection. -/
def hasCycle (graph : MaterializedGraph) (σ : HashOrder) : Option Bool :=
  (topologicalSort graph σ).map Option.isNone

end Engine

end SilkGraph
