import SilkGraph.Python.Query

/-!
# Views

`views.py`: a `GraphView` filters what a store, a snapshot or another view shows, at query time. It
is a reader again, so views may be stacked and queried.

A view keeps the nodes that pass its filter and the edges between them. It asks for both ends
wherever it gives edges, so its methods agree with each other for every identifier
(`GraphView.view_exact`), which those of a store do not: a removed node of a store keeps its edges,
and `get_edge` still finds them. `query_exact` is about queries over any stack of views on a store.
-/

namespace SilkGraph

/-- What a view is made with. -/
structure ViewArgs where
  nodeTypes : Option (List String)
  subtypes : Option (List String)
  predicate : Option (NodeDict → Bool)

/-- `set(names) if names else None`. -/
def namesOf : Option (List String) → Option (List String)
  | some [] => none
  | names => names

/-- Read-only filtered projection over a store, a snapshot or a view. -/
structure GraphView where
  store : Reader
  nodeTypes : Option (List String)
  subtypes : Option (List String)
  predicate : Option (NodeDict → Bool)

namespace GraphView

def new (store : Reader) (args : ViewArgs) : GraphView :=
  ⟨store, namesOf args.nodeTypes, namesOf args.subtypes, args.predicate⟩

/-- Whether a node is in the view. -/
def nodePasses (self : GraphView) (node : NodeDict) : Bool :=
  (self.nodeTypes.all fun names => names.contains node.nodeType) &&
    (self.subtypes.all fun names => node.subtype.any names.contains) &&
      self.predicate.all fun predicate => predicate node

def allNodes (self : GraphView) : Except ReadErr (List NodeDict) := do
  return (← self.store.allNodes).filter self.nodePasses

/-- The ids of the nodes in the view. -/
def visible (self : GraphView) : Except ReadErr (List String) := do
  return (← self.allNodes).map NodeDict.nodeId

def allEdges (self : GraphView) : Except ReadErr (List EdgeDict) := do
  let visible ← self.visible
  return (← self.store.allEdges).filter fun e => visible.contains e.sourceId && visible.contains e.targetId

def getNode (self : GraphView) (nodeId : String) : Except ReadErr (Option NodeDict) := do
  return (← self.store.getNode nodeId).filter self.nodePasses

def getEdge (self : GraphView) (edgeId : String) : Except ReadErr (Option EdgeDict) := do
  match ← self.store.getEdge edgeId with
  | none => pure none
  | some edge =>
    let visible ← self.visible
    pure (if visible.contains edge.sourceId && visible.contains edge.targetId then some edge else none)

def queryNodesByType (self : GraphView) (nodeType : String) : Except ReadErr (List NodeDict) := do
  return (← self.store.queryNodesByType nodeType).filter self.nodePasses

def outgoingEdges (self : GraphView) (nodeId : String) : Except ReadErr (List EdgeDict) := do
  let visible ← self.visible
  if !visible.contains nodeId then pure []
  else return (← self.store.outgoingEdges nodeId).filter fun e => visible.contains e.targetId

def incomingEdges (self : GraphView) (nodeId : String) : Except ReadErr (List EdgeDict) := do
  let visible ← self.visible
  if !visible.contains nodeId then pure []
  else return (← self.store.incomingEdges nodeId).filter fun e => visible.contains e.sourceId

def neighbors (self : GraphView) (nodeId : String) : Except ReadErr (List String) := do
  return (← self.outgoingEdges nodeId).map EdgeDict.targetId

/-- A view is read like a store. -/
def reader (self : GraphView) : Reader where
  allNodes := self.allNodes
  allEdges := self.allEdges
  getNode := self.getNode
  getEdge := self.getEdge
  queryNodesByType := self.queryNodesByType
  outgoingEdges := self.outgoingEdges
  incomingEdges := self.incomingEdges

end GraphView

/-- A node is one that the arguments ask for. -/
def ViewArgs.Passes (self : ViewArgs) (n : NodeDict) : Prop :=
  (∀ names ∈ self.nodeTypes, names ≠ [] → n.nodeType ∈ names) ∧
    (∀ names ∈ self.subtypes, names ≠ [] → ∃ st ∈ n.subtype, st ∈ names) ∧
      ∀ predicate ∈ self.predicate, predicate n = true

theorem mem_namesOf {names : Option (List String)} {l : List String} :
    l ∈ namesOf names ↔ l ∈ names ∧ l ≠ [] := by
  cases names with
  | none => simp [namesOf]
  | some names =>
    cases names with
    | nil =>
      simp only [namesOf, Option.mem_def, reduceCtorEq, false_iff, Option.some.injEq, not_and, not_not]
      exact Eq.symm
    | cons x xs =>
      simp only [namesOf, Option.mem_def, Option.some.injEq, iff_self_and]
      rintro rfl
      exact List.cons_ne_nil x xs

namespace Shown

/-- The nodes with a property, and the edges between them. -/
def restrict (self : Shown) (P : NodeDict → Prop) : Shown where
  nodes := {n ∈ self.nodes | P n}
  ofType ty := {n ∈ self.ofType ty | P n}
  edges := {e ∈ self.edges | (∃ n ∈ self.nodes, P n ∧ n.nodeId = e.sourceId) ∧
    ∃ n ∈ self.nodes, P n ∧ n.nodeId = e.targetId}

variable {G : Shown} {P Q : NodeDict → Prop}

theorem hasNode_restrict {id : String} :
    (G.restrict P).HasNode id ↔ ∃ n ∈ G.nodes, P n ∧ n.nodeId = id := by
  simp only [HasNode, restrict, Set.mem_ofPred_eq, and_assoc]

theorem mem_edges_restrict {e : EdgeDict} : e ∈ (G.restrict P).edges ↔
    e ∈ G.edges ∧ (G.restrict P).HasNode e.sourceId ∧ (G.restrict P).HasNode e.targetId := by
  rw [hasNode_restrict, hasNode_restrict]
  rfl

/-- Restrictions compose. -/
theorem restrict_restrict : (G.restrict P).restrict Q = G.restrict fun n => P n ∧ Q n := by
  refine Shown.ext (Set.ext fun n => and_assoc) (funext fun ty => Set.ext fun n => and_assoc)
    (Set.ext fun e => ?_)
  rw [mem_edges_restrict, mem_edges_restrict, mem_edges_restrict]
  simp only [hasNode_restrict]
  constructor
  · rintro ⟨⟨he, -, -⟩, ⟨n, hn, hQ, hsrc⟩, m, hm, hQm, htgt⟩
    exact ⟨he, ⟨n, hn.1, ⟨hn.2, hQ⟩, hsrc⟩, m, hm.1, ⟨hm.2, hQm⟩, htgt⟩
  · rintro ⟨he, ⟨n, hn, ⟨hP, hQ⟩, hsrc⟩, m, hm, ⟨hPm, hQm⟩, htgt⟩
    exact ⟨⟨he, ⟨n, hn, hP, hsrc⟩, m, hm, hPm, htgt⟩, ⟨n, ⟨hn, hP⟩, hQ, hsrc⟩, m, ⟨hm, hPm⟩, hQm, htgt⟩

/-- Nothing is left out by a property of all nodes. -/
theorem restrict_of_forall (hends : ∀ e ∈ G.edges, G.HasNode e.sourceId ∧ G.HasNode e.targetId)
    (h : ∀ n, P n) : G.restrict P = G := by
  refine Shown.ext (Set.ext fun n => ⟨fun hn => hn.1, fun hn => ⟨hn, h n⟩⟩)
    (funext fun ty => Set.ext fun n => ⟨fun hn => hn.1, fun hn => ⟨hn, h n⟩⟩)
    (Set.ext fun e => ⟨fun he => he.1, fun he => ?_⟩)
  obtain ⟨⟨n, hn, hsrc⟩, m, hm, htgt⟩ := hends e he
  exact ⟨he, ⟨n, hn, h n, hsrc⟩, m, hm, h m, htgt⟩

end Shown

namespace GraphView

variable {view : GraphView} {G : Shown}

/-- The graph in a view. -/
def shown (self : GraphView) (G : Shown) : Shown := G.restrict fun n => self.nodePasses n = true

theorem nodePasses_new {store : Reader} {args : ViewArgs} {n : NodeDict} :
    (new store args).nodePasses n = true ↔ args.Passes n := by
  simp only [nodePasses, new, Bool.and_eq_true, Option.all_eq_true, ← Option.mem_def, mem_namesOf,
    List.contains_iff_mem, Option.any_eq_true, ViewArgs.Passes, and_imp, and_assoc]

/-! ### What a view lists -/

theorem reads_allNodes (hs : view.store.Shows G) :
    Fetches view.allNodes NodeDict.nodeId (view.shown G).nodes := by
  obtain ⟨l, hok, hl⟩ := hs.allNodes
  exact ⟨_, by rw [allNodes, hok]; rfl, hl.filter _⟩

theorem reads_ofType (hs : view.store.Shows G) (ty : String) :
    Fetches (view.queryNodesByType ty) NodeDict.nodeId ((view.shown G).ofType ty) := by
  obtain ⟨l, hok, hl⟩ := hs.ofType ty
  exact ⟨_, by rw [queryNodesByType, hok]; rfl, hl.filter _⟩

theorem visible_spec (hs : view.store.Shows G) :
    ∃ ids, view.visible = .ok ids ∧ ∀ id, ids.contains id = true ↔ (view.shown G).HasNode id := by
  obtain ⟨l, hok, hl⟩ := reads_allNodes hs
  refine ⟨_, by rw [visible, hok]; rfl, fun id => ?_⟩
  simp only [List.contains_iff_mem, List.mem_map, hl.mem, Shown.HasNode]

theorem reads_allEdges (hs : view.store.Shows G) :
    Fetches view.allEdges EdgeDict.edgeId (view.shown G).edges := by
  obtain ⟨ids, hids, hvisible⟩ := visible_spec hs
  obtain ⟨l, hok, hl⟩ := hs.allEdges
  refine ⟨_, by rw [allEdges, hids]; change (view.store.allEdges >>= _) = _; rw [hok]; rfl,
    (hl.filter _).congr fun e => ?_⟩
  rw [Set.mem_ofPred_eq, Bool.and_eq_true, hvisible, hvisible]
  exact Shown.mem_edges_restrict.symm

theorem getNode_spec (hs : view.store.Shows G) (id : String) : ∃ found, view.getNode id = .ok found ∧
    ∀ n, found = some n ↔ n ∈ (view.shown G).nodes ∧ n.nodeId = id := by
  obtain ⟨found, hok, hfound⟩ := hs.getNode id
  refine ⟨_, by rw [getNode, hok]; rfl, fun n => ?_⟩
  rw [Option.filter_eq_some_iff, hfound]
  exact and_right_comm

/-- An edge is found exactly if it is one of all edges. -/
theorem getEdge_spec (hs : view.store.Shows G) (id : String) : ∃ found, view.getEdge id = .ok found ∧
    ∀ e, found = some e ↔ e ∈ (view.shown G).edges ∧ e.edgeId = id := by
  obtain ⟨ids, hids, hvisible⟩ := visible_spec hs
  obtain ⟨found, hok, hin, hout⟩ := hs.getEdge id
  cases found with
  | none =>
    refine ⟨none, by rw [getEdge, hok]; rfl, fun e => ⟨fun h => (by cases h), fun ⟨he, hid⟩ => ?_⟩⟩
    exact hin e (Shown.mem_edges_restrict.mp he).1 hid
  | some edge =>
    obtain ⟨hid, hedge⟩ := hout edge rfl
    refine ⟨_, by rw [getEdge, hok]; change (view.visible >>= _) = _; rw [hids]; rfl, fun e => ?_⟩
    rw [Option.ite_none_right_eq_some, Bool.and_eq_true, hvisible, hvisible]
    constructor
    · rintro ⟨⟨hsrc, htgt⟩, ⟨⟩⟩
      -- what is in the view is in the graph that it filters
      have hup : ∀ {x}, (view.shown G).HasNode x → G.HasNode x := fun h => h.imp fun n hn => ⟨hn.1.1, hn.2⟩
      exact ⟨Shown.mem_edges_restrict.mpr ⟨hedge (hup hsrc) (hup htgt), hsrc, htgt⟩, hid⟩
    · rintro ⟨he, heid⟩
      obtain ⟨heG, hsrc, htgt⟩ := Shown.mem_edges_restrict.mp he
      obtain rfl := Option.some.inj (hin e heG heid)
      exact ⟨⟨hsrc, htgt⟩, rfl⟩

/-- The edges that leave any node whatever. -/
theorem reads_outgoingEdges (hs : view.store.Shows G) (id : String) :
    Fetches (view.outgoingEdges id) EdgeDict.edgeId {e ∈ (view.shown G).edges | e.sourceId = id} := by
  obtain ⟨ids, hids, hvisible⟩ := visible_spec hs
  rw [outgoingEdges, hids]
  by_cases hid : (view.shown G).HasNode id
  · obtain ⟨n, hn, hnid⟩ := hid
    obtain ⟨l, hok, hl⟩ := hs.outgoing id ⟨n, hn.1, hnid⟩
    have hcontains := (hvisible id).mpr ⟨n, hn, hnid⟩
    refine ⟨_, ?_, (hl.filter fun e => ids.contains e.targetId).congr fun e => ?_⟩
    · change (if !ids.contains id then _ else _) = _
      rw [hcontains]
      change (view.store.outgoingEdges id >>= _) = _
      rw [hok]
      rfl
    · simp only [Set.mem_ofPred_eq, hvisible, shown, Shown.mem_edges_restrict]
      constructor
      · rintro ⟨⟨he, rfl⟩, htgt⟩
        exact ⟨⟨he, ⟨n, hn, hnid⟩, htgt⟩, rfl⟩
      · rintro ⟨⟨he, -, htgt⟩, hsrc⟩
        exact ⟨⟨he, hsrc⟩, htgt⟩
  · refine ⟨[], ?_, ⟨fun e => ⟨fun h => absurd h List.not_mem_nil, fun ⟨he, hsrc⟩ => ?_⟩, List.nodup_nil⟩⟩
    · have hno : ids.contains id = false := Bool.eq_false_iff.mpr fun h => hid ((hvisible id).mp h)
      change (if !ids.contains id then _ else _) = _
      rw [hno]
      rfl
    · exact absurd (hsrc ▸ (Shown.mem_edges_restrict.mp he).2.1) hid

/-- The edges that arrive at any node whatever. -/
theorem reads_incomingEdges (hs : view.store.Shows G) (id : String) :
    Fetches (view.incomingEdges id) EdgeDict.edgeId {e ∈ (view.shown G).edges | e.targetId = id} := by
  obtain ⟨ids, hids, hvisible⟩ := visible_spec hs
  rw [incomingEdges, hids]
  by_cases hid : (view.shown G).HasNode id
  · obtain ⟨n, hn, hnid⟩ := hid
    obtain ⟨l, hok, hl⟩ := hs.incoming id ⟨n, hn.1, hnid⟩
    have hcontains := (hvisible id).mpr ⟨n, hn, hnid⟩
    refine ⟨_, ?_, (hl.filter fun e => ids.contains e.sourceId).congr fun e => ?_⟩
    · change (if !ids.contains id then _ else _) = _
      rw [hcontains]
      change (view.store.incomingEdges id >>= _) = _
      rw [hok]
      rfl
    · simp only [Set.mem_ofPred_eq, hvisible, shown, Shown.mem_edges_restrict]
      constructor
      · rintro ⟨⟨he, rfl⟩, hsrc⟩
        exact ⟨⟨he, hsrc, ⟨n, hn, hnid⟩⟩, rfl⟩
      · rintro ⟨⟨he, hsrc, -⟩, htgt⟩
        exact ⟨⟨he, htgt⟩, hsrc⟩
  · refine ⟨[], ?_, ⟨fun e => ⟨fun h => absurd h List.not_mem_nil, fun ⟨he, htgt⟩ => ?_⟩, List.nodup_nil⟩⟩
    · have hno : ids.contains id = false := Bool.eq_false_iff.mpr fun h => hid ((hvisible id).mp h)
      change (if !ids.contains id then _ else _) = _
      rw [hno]
      rfl
    · exact absurd (htgt ▸ (Shown.mem_edges_restrict.mp he).2.2) hid

/-- **A view shows** the part of a graph that passes its filter. -/
theorem shows (hs : view.store.Shows G) : view.reader.Shows (view.shown G) where
  allNodes := reads_allNodes hs
  ofType := reads_ofType hs
  ofType_subset ty := fun n hn => ⟨hs.ofType_subset ty hn.1, hn.2⟩
  allEdges := reads_allEdges hs
  ends e he := (Shown.mem_edges_restrict.mp he).2
  getNode := getNode_spec hs
  getEdge id := by
    obtain ⟨found, hok, hfound⟩ := getEdge_spec hs id
    exact ⟨found, hok, fun e he hid => (hfound e).mpr ⟨he, hid⟩,
      fun e he => ⟨((hfound e).mp he).2, fun _ _ => ((hfound e).mp he).1⟩⟩
  outgoing id _ := reads_outgoingEdges hs id
  incoming id _ := reads_incomingEdges hs id

/-! ### Stacks of views -/

/-- Views over a reader, the last one on top. -/
def stack (store : Reader) (views : List ViewArgs) : Reader :=
  views.foldl (fun store args => (new store args).reader) store

/-- **Run.** A stack of views shows the nodes that pass all of its filters, and the edges between
them. -/
theorem shows_stack {store : Reader} (hs : store.Shows G) (views : List ViewArgs) :
    (stack store views).Shows (G.restrict fun n => ∀ args ∈ views, args.Passes n) := by
  induction views generalizing store G with
  | nil => rwa [Shown.restrict_of_forall hs.ends fun n args hargs => absurd hargs List.not_mem_nil]
  | cons args views ih =>
    have h := ih (show (new store args).reader.Shows ((new store args).shown G) from shows hs)
    rw [shown, Shown.restrict_restrict] at h
    simp only [nodePasses_new] at h
    simp only [List.forall_mem_cons]
    exact h

end GraphView

/-! ### Stores -/

/-- **Queries over views.** After any calls, and with every value readable, a query over any stack
of views on the store gives items of what it means over the live nodes that pass all the filters and
the edges between them, each id once; and all of them, if it sets no limit. -/
theorem query_exact [Crates] {o : Ontology} {calls : List MaterializedGraph.GraphCall} {σ : HashOrder}
    (σ' : HashOrder) (hr : (calls.foldl (MaterializedGraph.GraphCall.run σ) (.new o)).AllReadable) (views : List ViewArgs)
    {first : Step} (hfirst : first.Starts) (steps : List Step) :
    let g := calls.foldl (MaterializedGraph.GraphCall.run σ) (.new o)
    let G := g.shown.restrict fun n => ∀ args ∈ views, args.Passes n
    ∃ items, Query.collect (GraphView.stack (g.reader σ') views) (first :: steps) = .ok items ∧
      (items.map Item.id).Nodup ∧ (∀ item ∈ items, item ∈ meaningOf G ∅ (first :: steps)) ∧
      ((∀ s ∈ steps, s.NoLimit) → ∀ item ∈ meaningOf G ∅ (first :: steps), item ∈ items) := by
  intro g G
  have hg : g.Coherent := MaterializedGraph.coherent_run σ o calls
  exact Query.collect_spec (GraphView.shows_stack (g.shows hg hr σ') views) hfirst steps

open Sample in
/-- Whom the people that are there know, seen through a view of people. -/
theorem query_exact_meeting :
    let g := meeting.foldl (MaterializedGraph.GraphCall.run .keyOrder) (.new guests)
    let people : ViewArgs := ⟨some ["person"], none, none⟩
    ∃ items, Query.collect (GraphView.stack (g.reader .keyOrder) [people])
      [.nodes (some "person") none, .follow (some "knows") "out"] = .ok items ∧ (items.map Item.id).Nodup := by
  intro g people
  have hr : g.AllReadable := .of_all (by decide +kernel) (by decide +kernel)
  have hfirst : (Step.nodes (some "person") none).Starts := trivial
  obtain ⟨items, hok, hnodup, -⟩ := query_exact .keyOrder hr [people] hfirst [.follow (some "knows") "out"]
  exact ⟨items, hok, hnodup⟩

/-- **A view is one graph.** After any calls, and with every value readable, the methods of a view
over any stack of views agree, for every identifier whatever: its nodes are those that pass, its
edges those with both ends among them, `get_node` and `get_edge` find what is listed and nothing
else, and the edges and neighbours of a node are read off the edges. -/
theorem view_exact [Crates] {o : Ontology} {calls : List MaterializedGraph.GraphCall} {σ : HashOrder}
    (σ' : HashOrder) (hr : (calls.foldl (MaterializedGraph.GraphCall.run σ) (.new o)).AllReadable) (views : List ViewArgs)
    (args : ViewArgs) :
    let g := calls.foldl (MaterializedGraph.GraphCall.run σ) (.new o)
    let view := GraphView.new (GraphView.stack (g.reader σ') views) args
    ∃ ns es, view.allNodes = .ok ns ∧ view.allEdges = .ok es ∧
      (ns.map NodeDict.nodeId).Nodup ∧ (es.map EdgeDict.edgeId).Nodup ∧
      (∀ n, n ∈ ns ↔ n ∈ g.shown.nodes ∧ ∀ a ∈ views ++ [args], a.Passes n) ∧
      (∀ e, e ∈ es ↔ e ∈ g.shown.edges ∧ (∃ n ∈ ns, n.nodeId = e.sourceId) ∧ ∃ n ∈ ns, n.nodeId = e.targetId) ∧
      ∀ id, (∃ found, view.getNode id = .ok found ∧ ∀ n, found = some n ↔ n ∈ ns ∧ n.nodeId = id) ∧
        (∃ found, view.getEdge id = .ok found ∧ ∀ e, found = some e ↔ e ∈ es ∧ e.edgeId = id) ∧
        (∃ out, view.outgoingEdges id = .ok out ∧ (out.map EdgeDict.edgeId).Nodup ∧
          ∀ e, e ∈ out ↔ e ∈ es ∧ e.sourceId = id) ∧
        (∃ into, view.incomingEdges id = .ok into ∧ (into.map EdgeDict.edgeId).Nodup ∧
          ∀ e, e ∈ into ↔ e ∈ es ∧ e.targetId = id) ∧
        ∃ ids, view.neighbors id = .ok ids ∧ ∀ x, x ∈ ids ↔ ∃ e ∈ es, e.sourceId = id ∧ e.targetId = x := by
  intro g view
  have hg : g.Coherent := MaterializedGraph.coherent_run σ o calls
  have hs : view.store.Shows (g.shown.restrict fun n => ∀ a ∈ views, a.Passes n) :=
    GraphView.shows_stack (g.shows hg hr σ') views
  have hG : view.shown (g.shown.restrict fun n => ∀ a ∈ views, a.Passes n) =
      g.shown.restrict fun n => ∀ a ∈ views ++ [args], a.Passes n := by
    rw [GraphView.shown, Shown.restrict_restrict]
    simp only [view, GraphView.nodePasses_new, List.forall_mem_append, List.forall_mem_singleton]
  obtain ⟨ns, hns, hlns⟩ := GraphView.reads_allNodes hs
  obtain ⟨es, hes, hles⟩ := GraphView.reads_allEdges hs
  have hmem : ∀ id, (view.shown (g.shown.restrict fun n => ∀ a ∈ views, a.Passes n)).HasNode id ↔
      ∃ n ∈ ns, n.nodeId = id := fun id => by simp only [Shown.HasNode, hlns.mem]
  refine ⟨ns, es, hns, hes, hlns.nodup, hles.nodup, fun n => by rw [hlns.mem, hG]; rfl, fun e => ?_,
    fun id => ⟨?_, ?_, ?_, ?_, ?_⟩⟩
  · rw [hles.mem, ← hmem, ← hmem, hG]
    exact Shown.mem_edges_restrict
  · simpa only [hlns.mem] using GraphView.getNode_spec hs id
  · simpa only [hles.mem] using GraphView.getEdge_spec hs id
  · obtain ⟨out, hok, hl⟩ := GraphView.reads_outgoingEdges hs id
    exact ⟨out, hok, hl.nodup, fun e => by rw [hl.mem, Set.mem_ofPred_eq, hles.mem]⟩
  · obtain ⟨into, hok, hl⟩ := GraphView.reads_incomingEdges hs id
    exact ⟨into, hok, hl.nodup, fun e => by rw [hl.mem, Set.mem_ofPred_eq, hles.mem]⟩
  · obtain ⟨out, hok, hl⟩ := GraphView.reads_outgoingEdges hs id
    refine ⟨_, by rw [GraphView.neighbors, hok]; rfl, fun x => ?_⟩
    simp only [List.mem_map, hl.mem, Set.mem_ofPred_eq, hles.mem, and_assoc]

open Sample in
/-- Ann is gone, and in a view her edge is gone with her. -/
theorem view_exact_departure :
    let g := departure.foldl (MaterializedGraph.GraphCall.run .keyOrder) (.new guests)
    let view := GraphView.new (g.reader .keyOrder) ⟨none, none, none⟩
    ∃ es, view.allEdges = .ok es ∧ ∃ out, view.outgoingEdges "ann" = .ok out ∧ ∀ e ∈ out, e ∈ es := by
  intro g view
  have hr : g.AllReadable := .of_all (by decide +kernel) (by decide +kernel)
  obtain ⟨ns, es, -, hes, -, -, -, -, hids⟩ := view_exact .keyOrder hr [] ⟨none, none, none⟩
  obtain ⟨-, -, ⟨out, hout, -, hmem⟩, -⟩ := hids "ann"
  exact ⟨es, hes, out, hout, fun e he => ((hmem e).mp he).1⟩

end SilkGraph
