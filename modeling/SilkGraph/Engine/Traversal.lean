import SilkGraph.Engine.Basic
import SilkGraph.Lib.Breadth

/-!
# Bounded traversals

`bfs`, `impact_analysis` and `subgraph` are breadth-first searches, over the edges out of a
node, into it, and both. Each turn of their loops is a number of discoveries and a retirement
(`Breadth.Inv`), so what they visit is the ball around the start (`traversals_exact`). Every
turn is done with one more node of the graph, so the loops end.
-/

namespace SilkGraph

open MaterializedGraph

namespace MaterializedGraph

variable {g : MaterializedGraph} {σ : HashOrder} {filter : Option String} {x y : String}

/-- A visible edge that passes the filter leads from one node to the other. -/
def Linked (g : MaterializedGraph) (filter : Option String) (x y : String) : Prop :=
  ∃ id ed, g.visibleEdge id = some ed ∧ ed.sourceId = x ∧ ed.targetId = y ∧
    ∀ ty ∈ filter, ed.edgeType = ty

/-- An edge joins the two nodes, one way or the other. -/
def Joined (g : MaterializedGraph) (x y : String) : Prop := g.Linked none x y ∨ g.Linked none y x

theorem Linked.source_live (h : g.Linked filter x y) : g.isNodeLive x = true := by
  obtain ⟨id, ed, hed, rfl, -, -⟩ := h
  exact isNodeLive_iff.mpr (visibleEdge_eq_some.mp hed).2.2.1

theorem Linked.target_live (h : g.Linked filter x y) : g.isNodeLive y = true := by
  obtain ⟨id, ed, hed, -, rfl, -⟩ := h
  exact isNodeLive_iff.mpr (visibleEdge_eq_some.mp hed).2.2.2

theorem mem_nodes_of_live (h : g.isNodeLive x = true) : x ∈ g.nodes.keys := by
  obtain ⟨nd, hnd⟩ := Option.isSome_iff_exists.mp (isNodeLive_iff.mp h)
  exact Std.ExtTreeMap.mem_keys.mpr (HashMap.mem_iff_getElem?.mpr ⟨nd, (getNode_eq_some_iff.mp hnd).1⟩)

theorem not_isNone_of_live (h : g.isNodeLive x = true) : ¬ (g.getNode x).isNone = true := by
  obtain ⟨nd, hnd⟩ := Option.isSome_iff_exists.mp (isNodeLive_iff.mp h)
  rw [hnd]
  exact Bool.false_ne_true

theorem live_of_not_isNone (h : ¬ (g.getNode x).isNone = true) : g.isNodeLive x = true := by
  rwa [isNodeLive_iff, ← Option.not_isNone, Bool.not_eq_true', ← Bool.not_eq_true]

namespace Coherent

/-- The outgoing edges of a live node are the visible ones that leave it. -/
theorem mem_outgoingEdges_visible (hg : g.Coherent) (hx : g.isNodeLive x = true) {ed : Edge} :
    ed ∈ g.outgoingEdges σ x ↔ g.visibleEdge ed.edgeId = some ed ∧ ed.sourceId = x := by
  rw [hg.mem_outgoingEdges, visibleEdge_eq_some, getEdge_eq_some_iff, ← isNodeLive_iff,
    ← isNodeLive_iff]
  constructor
  · rintro ⟨⟨hed, hlive⟩, rfl, htgt⟩
    exact ⟨⟨hed, hlive, hx, htgt⟩, rfl⟩
  · rintro ⟨⟨hed, hlive, -, htgt⟩, hsrc⟩
    exact ⟨⟨hed, hlive⟩, hsrc, htgt⟩

theorem mem_incomingEdges_visible (hg : g.Coherent) (hx : g.isNodeLive x = true) {ed : Edge} :
    ed ∈ g.incomingEdges σ x ↔ g.visibleEdge ed.edgeId = some ed ∧ ed.targetId = x := by
  rw [hg.mem_incomingEdges, visibleEdge_eq_some, getEdge_eq_some_iff, ← isNodeLive_iff,
    ← isNodeLive_iff]
  constructor
  · rintro ⟨⟨hed, hlive⟩, rfl, hsrc⟩
    exact ⟨⟨hed, hlive, hsrc, hx⟩, rfl⟩
  · rintro ⟨⟨hed, hlive, hsrc, -⟩, htgt⟩
    exact ⟨⟨hed, hlive⟩, htgt, hsrc⟩

theorem edgeId_of_visible (hg : g.Coherent) {id : String} {ed : Edge}
    (h : g.visibleEdge id = some ed) : ed.edgeId = id :=
  ((hg.sound id).edge ed (visibleEdge_eq_some.mp h).1).1

theorem mem_targets (hg : g.Coherent) (hx : g.isNodeLive x = true) :
    y ∈ Engine.targets g σ filter x ↔ g.Linked filter x y := by
  have hpass : ∀ ed : Edge, (filter.all fun ty => ed.edgeType == ty) = true ↔
      ∀ ty ∈ filter, ed.edgeType = ty := by
    intro ed
    cases filter <;> simp
  rw [Engine.targets, List.mem_map]
  simp only [List.mem_filter, hg.mem_outgoingEdges_visible hx, hpass]
  constructor
  · rintro ⟨ed, ⟨⟨hed, hsrc⟩, hty⟩, htgt⟩
    exact ⟨ed.edgeId, ed, hed, hsrc, htgt, hty⟩
  · rintro ⟨id, ed, hed, hsrc, htgt, hty⟩
    exact ⟨ed, ⟨⟨hg.edgeId_of_visible hed ▸ hed, hsrc⟩, hty⟩, htgt⟩

theorem mem_sources (hg : g.Coherent) (hx : g.isNodeLive x = true) :
    y ∈ Engine.sources g σ x ↔ g.Linked none y x := by
  rw [Engine.sources, List.mem_map]
  simp only [hg.mem_incomingEdges_visible hx]
  constructor
  · rintro ⟨ed, ⟨hed, htgt⟩, hsrc⟩
    exact ⟨ed.edgeId, ed, hed, hsrc, htgt, nofun⟩
  · rintro ⟨id, ed, hed, hsrc, htgt, -⟩
    exact ⟨ed, ⟨hg.edgeId_of_visible hed ▸ hed, htgt⟩, hsrc⟩

end Coherent

end MaterializedGraph

namespace Engine

open Breadth

/-! ### One turn of a traversal -/

namespace Traversal

variable {R : String → String → Prop} {s x : String} {limit : Option ℕ} {done : List (String × ℕ)}
  {d : ℕ} {t : Traversal} {neighbours : String → List String}

/-- A turn that goes on visits the next node, and below the limit it adds the neighbours. -/
theorem turn_go {add : Traversal → ℕ → String → Traversal} {t' : Traversal}
    (ht : t.turn add neighbours limit = .inl t') :
    ∃ x d queue, t.queue = (x, d) :: queue ∧
      let popped := { t with queue, result := t.result ++ [x] }
      (¬ (∀ m ∈ limit, d < m) ∧ t' = popped) ∨ (∀ m ∈ limit, d < m) ∧
        t' = (neighbours x).foldl (fun t id => add t (d + 1) id) popped := by
  rw [Traversal.turn] at ht
  split at ht
  · cases ht
  · rename_i x d queue hqueue
    refine ⟨x, d, queue, hqueue, ?_⟩
    dsimp only at ht
    split at ht
    · rename_i hstop
      obtain ⟨m, hm, hle⟩ := Option.any_eq_true _ _ |>.mp hstop
      have hlimit : ¬ ∀ m ∈ limit, d < m := fun hd => absurd (hd m hm) (by simpa using hle)
      exact .inl ⟨hlimit, (Sum.inl.inj ht).symm⟩
    · rename_i hgo
      have hd : ∀ m ∈ limit, d < m := by
        intro m hm
        by_contra hle
        exact hgo (Option.any_eq_true _ _ |>.mpr ⟨m, hm, by simpa using hle⟩)
      exact .inr ⟨hd, (Sum.inl.inj ht).symm⟩

/-- A turn leaves when nothing is left to visit. -/
theorem turn_leave {add : Traversal → ℕ → String → Traversal} {l : List String}
    (ht : t.turn add neighbours limit = .inr l) : t.queue = [] ∧ l = t.result := by
  rw [Traversal.turn] at ht
  split at ht
  · rename_i hqueue
    exact ⟨hqueue, (Sum.inr.inj ht).symm⟩
  · dsimp only at ht
    split at ht <;> cases ht

/-- Between two turns: what was visited is done. -/
structure Searches (R : String → String → Prop) (s : String) (limit : Option ℕ)
    (done : List (String × ℕ)) (t : Traversal) : Prop where
  inv : Inv R s limit done t.queue
  seen : ∀ z, z ∈ t.visited ↔ z ∈ (done ++ t.queue).map Prod.fst
  result : t.result = done.map Prod.fst

/-- Inside a turn: the node that was taken from the queue counts as its head until all its
neighbours are seen. -/
structure Expands (R : String → String → Prop) (s : String) (limit : Option ℕ)
    (done : List (String × ℕ)) (x : String) (d : ℕ) (t : Traversal) : Prop where
  inv : Inv R s limit done ((x, d) :: t.queue)
  seen : ∀ z, z ∈ t.visited ↔ z ∈ (done ++ (x, d) :: t.queue).map Prod.fst
  result : t.result = done.map Prod.fst ++ [x]

theorem Expands.enqueue (h : Expands R s limit done x d t) (hd : ∀ m ∈ limit, d < m) {y : String}
    (link : R x y) : Expands R s limit done x d (t.enqueue (d + 1) y) ∧
      y ∈ (t.enqueue (d + 1) y).visited ∧ ∀ z ∈ t.visited, z ∈ (t.enqueue (d + 1) y).visited := by
  rw [Traversal.enqueue]
  split
  · rename_i hy
    exact ⟨h, Std.ExtTreeSet.contains_iff_mem.mp hy, fun _ hz => hz⟩
  · rename_i hy
    rw [Std.ExtTreeSet.contains_iff_mem, h.seen] at hy
    refine ⟨⟨h.inv.discover link hd hy, fun z => ?_, h.result⟩, HashSet.mem_insert.mpr (.inl rfl),
      fun z hz => HashSet.mem_insert.mpr (.inr hz)⟩
    rw [HashSet.mem_insert, h.seen]
    simp only [List.map_append, List.map_cons, List.map_nil, List.mem_append, List.mem_cons,
      List.not_mem_nil, or_false]
    tauto

/-- All neighbours of a node are seen, one after the other. -/
theorem Expands.foldl (h : Expands R s limit done x d t) (hd : ∀ m ∈ limit, d < m)
    {ys : List String} (hys : ∀ y ∈ ys, R x y) :
    let t' := ys.foldl (fun t id => t.enqueue (d + 1) id) t
    Expands R s limit done x d t' ∧ (∀ y ∈ ys, y ∈ t'.visited) ∧ ∀ z ∈ t.visited, z ∈ t'.visited := by
  induction ys generalizing t with
  | nil => exact ⟨h, nofun, fun _ hz => hz⟩
  | cons y ys ih =>
    obtain ⟨h', hy, hkeep⟩ := h.enqueue hd (hys y List.mem_cons_self)
    obtain ⟨h'', hys', hkeep'⟩ := ih h' fun z hz => hys z (List.mem_cons_of_mem y hz)
    refine ⟨h'', fun z hz => ?_, fun z hz => hkeep' z (hkeep z hz)⟩
    obtain rfl | hz := List.mem_cons.mp hz
    · exact hkeep' z hy
    · exact hys' z hz

theorem Expands.retire (h : Expands R s limit done x d t)
    (hx : (∀ m ∈ limit, d < m) → ∀ y, R x y → y ∈ t.visited) :
    Searches R s limit (done ++ [(x, d)]) t := by
  refine ⟨h.inv.retire fun hd y link => (h.seen y).mp (hx hd y link), fun z => ?_, ?_⟩
  · rw [h.seen, List.append_assoc, List.singleton_append]
  · rw [h.result, List.map_append, List.map_singleton]

/-- **Turn.** One more node is done. -/
theorem Searches.turn (h : Searches R s limit done t)
    (hnext : ∀ x n, Distance R s x n → ∀ y, y ∈ neighbours x ↔ R x y) {t' : Traversal}
    (ht : t.turn Traversal.enqueue neighbours limit = .inl t') :
    ∃ x d, Searches R s limit (done ++ [(x, d)]) t' := by
  obtain ⟨x, d, queue, hqueue, hcases⟩ := turn_go ht
  have hinv : Inv R s limit done ((x, d) :: queue) := hqueue ▸ h.inv
  have hexpands : Expands R s limit done x d { t with queue, result := t.result ++ [x] } :=
    ⟨hinv, fun z => by rw [h.seen, hqueue], by rw [h.result]⟩
  refine ⟨x, d, ?_⟩
  obtain ⟨hlimit, rfl⟩ | ⟨hd, rfl⟩ := hcases
  · exact hexpands.retire fun hd => absurd hd hlimit
  · have hdist : Distance R s x d := hinv.distance (x, d) (by simp)
    obtain ⟨hexpands', hall, -⟩ := hexpands.foldl hd fun y hy => (hnext x d hdist y).mp hy
    exact hexpands'.retire fun _ y link => hall y ((hnext x d hdist y).mpr link)

end Traversal

/-! ### Traversals -/

variable {R : String → String → Prop} {g : MaterializedGraph} {σ : HashOrder} {start : String}

/-- A search starts with its start node. -/
theorem mem_start (z : String) : z ∈ (∅ : HashSet String).insert start ↔
    z ∈ (([] : List (String × ℕ)) ++ [(start, 0)]).map Prod.fst := by
  rw [HashSet.mem_insert]
  simp [eq_comm]

/-- What a search is done with is no more than the nodes of the graph. -/
theorem done_le_size {done queue : List (String × ℕ)}
    (h : (done ++ queue).length ≤ g.nodes.keys.length) : done.length ≤ g.nodes.size := by
  rw [List.length_append, Std.ExtTreeMap.length_keys] at h
  omega

/-- **Run.** A traversal with a queue returns the ball around a live start, for neighbours that
are nodes of the graph. -/
theorem traverse_enqueue {neighbours : String → List String} (maxDepth : Option ℕ)
    (hlive : g.isNodeLive start = true)
    (hnext : ∀ x n, Distance R start x n → ∀ y, y ∈ neighbours x ↔ R x y)
    (hnodes : ∀ x n, Walk R start n x → x ∈ g.nodes.keys) :
    ∃ l, traverse Traversal.enqueue neighbours g start maxDepth = some l ∧
      Ball R start maxDepth l := by
  rw [traverse, if_neg (not_isNone_of_live hlive)]
  refine Loop.exists_run_of_le (I := fun k t => ∃ done, t.Searches R start maxDepth done ∧
    done.length = k) ?_ ?_ ?_ ?_
  · exact ⟨[], ⟨Inv.init, mem_start, rfl⟩, rfl⟩
  · rintro _ t t' ⟨done, h, rfl⟩ ht
    obtain ⟨x, d, h'⟩ := h.turn hnext ht
    exact ⟨done ++ [(x, d)], h', List.length_append⟩
  · rintro _ t l ⟨done, h, -⟩ ht
    obtain ⟨hqueue, rfl⟩ := Traversal.turn_leave ht
    rw [h.result]
    exact (hqueue ▸ h.inv).ball
  · rintro _ t ⟨done, h, rfl⟩
    exact done_le_size (h.inv.length_le hnodes)

/-! ### Subgraphs -/

namespace Extraction

variable {s x y : String} {hops d : ℕ} {done : List (String × ℕ)} {t : Extraction}

/-- The edges taken are visible, between nodes that are seen. -/
def EdgesInside (g : MaterializedGraph) (t : Extraction) : Prop :=
  ∀ id ∈ t.visitedEdges, ∃ ed, g.visibleEdge id = some ed ∧ ed.sourceId ∈ t.visitedNodes ∧
    ed.targetId ∈ t.visitedNodes

/-- Between two turns. -/
structure Searches (g : MaterializedGraph) (s : String) (hops : ℕ) (done : List (String × ℕ))
    (t : Extraction) : Prop where
  inv : Inv g.Joined s (some hops) done t.queue
  seen : ∀ z, z ∈ t.visitedNodes ↔ z ∈ (done ++ t.queue).map Prod.fst
  edges : EdgesInside g t

/-- Inside a turn: the node taken from the queue counts as its head. -/
structure Expands (g : MaterializedGraph) (s : String) (hops : ℕ) (done : List (String × ℕ))
    (x : String) (d : ℕ) (t : Extraction) : Prop where
  inv : Inv g.Joined s (some hops) done ((x, d) :: t.queue)
  seen : ∀ z, z ∈ t.visitedNodes ↔ z ∈ (done ++ (x, d) :: t.queue).map Prod.fst
  edges : EdgesInside g t

/-- The edge joins the two nodes, one way or the other. -/
def Ends (ed : Edge) (x y : String) : Prop :=
  ed.sourceId = x ∧ ed.targetId = y ∨ ed.sourceId = y ∧ ed.targetId = x

theorem Ends.joined {ed : Edge} (h : Ends ed x y) {id : String} (hed : g.visibleEdge id = some ed) :
    g.Joined x y := by
  obtain ⟨hx, hy⟩ | ⟨hy, hx⟩ := h
  · exact .inl ⟨id, ed, hed, hx, hy, nofun⟩
  · exact .inr ⟨id, ed, hed, hy, hx, nofun⟩

theorem Expands.take (h : Expands g s hops done x d t) (hd : d < hops) {ed : Edge} {id : String}
    (hed : g.visibleEdge id = some ed) (hends : Ends ed x y) :
    Expands g s hops done x d (t.take (d + 1) id y) ∧ y ∈ (t.take (d + 1) id y).visitedNodes ∧
      ∀ z ∈ t.visitedNodes, z ∈ (t.take (d + 1) id y).visitedNodes := by
  have hx : x ∈ t.visitedNodes := (h.seen x).mpr (by simp)
  -- the new edge and the old ones, once the node at the other end is seen
  have hedges : ∀ nodes : HashSet String, y ∈ nodes → (∀ z ∈ t.visitedNodes, z ∈ nodes) →
      ∀ i ∈ t.visitedEdges.insert id, ∃ ed, g.visibleEdge i = some ed ∧ ed.sourceId ∈ nodes ∧
        ed.targetId ∈ nodes := by
    intro nodes hy hsub i hi
    obtain rfl | hi := HashSet.mem_insert.mp hi
    · refine ⟨ed, hed, ?_⟩
      obtain ⟨hsrc, htgt⟩ | ⟨hsrc, htgt⟩ := hends <;> rw [hsrc, htgt]
      · exact ⟨hsub x hx, hy⟩
      · exact ⟨hy, hsub x hx⟩
    · obtain ⟨ed', hed', hsrc, htgt⟩ := h.edges i hi
      exact ⟨ed', hed', hsub _ hsrc, hsub _ htgt⟩
  rw [Extraction.take]
  dsimp only
  split
  · rename_i hy
    rw [Std.ExtTreeSet.contains_iff_mem] at hy
    exact ⟨⟨h.inv, h.seen, hedges _ hy fun _ hz => hz⟩, hy, fun _ hz => hz⟩
  · rename_i hy
    rw [Std.ExtTreeSet.contains_iff_mem, h.seen] at hy
    have hinv := h.inv.discover (hends.joined hed) (by simpa using hd) hy
    have hnew : y ∈ t.visitedNodes.insert y := HashSet.mem_insert.mpr (.inl rfl)
    have hkeep : ∀ z ∈ t.visitedNodes, z ∈ t.visitedNodes.insert y := fun z hz =>
      HashSet.mem_insert.mpr (.inr hz)
    refine ⟨⟨hinv, fun z => ?_, hedges _ hnew hkeep⟩, hnew, hkeep⟩
    rw [HashSet.mem_insert, h.seen]
    simp only [List.map_append, List.map_cons, List.map_nil, List.mem_append, List.mem_cons,
      List.not_mem_nil, or_false]
    tauto

/-- The edges on one side of a node are taken, one after the other. -/
theorem Expands.foldl (h : Expands g s hops done x d t) (hd : d < hops) (other : Edge → String)
    (eds : List Edge) (heds : ∀ ed ∈ eds, g.visibleEdge ed.edgeId = some ed ∧ Ends ed x (other ed)) :
    let t' := eds.foldl (fun t edge => t.take (d + 1) edge.edgeId (other edge)) t
    Expands g s hops done x d t' ∧ (∀ ed ∈ eds, other ed ∈ t'.visitedNodes) ∧
      ∀ z ∈ t.visitedNodes, z ∈ t'.visitedNodes := by
  induction eds generalizing t with
  | nil => exact ⟨h, nofun, fun _ hz => hz⟩
  | cons ed eds ih =>
    obtain ⟨hed, hends⟩ := heds ed List.mem_cons_self
    obtain ⟨h', hy, hkeep⟩ := h.take hd hed hends
    obtain ⟨h'', hall, hkeep'⟩ := ih h' fun z hz => heds z (List.mem_cons_of_mem ed hz)
    refine ⟨h'', fun z hz => ?_, fun z hz => hkeep' z (hkeep z hz)⟩
    obtain rfl | hz := List.mem_cons.mp hz
    · exact hkeep' _ hy
    · exact hall z hz

theorem Expands.retire (h : Expands g s hops done x d t)
    (hx : d < hops → ∀ y, g.Joined x y → y ∈ t.visitedNodes) :
    Searches g s hops (done ++ [(x, d)]) t := by
  refine ⟨h.inv.retire fun hd y link => (h.seen y).mp (hx (by simpa using hd) y link), fun z => ?_,
    h.edges⟩
  rw [h.seen, List.append_assoc, List.singleton_append]

/-- **Turn.** One more node is done. -/
theorem Searches.turn (h : Searches g s hops done t) (hg : g.Coherent)
    (hlive : ∀ x n, Distance g.Joined s x n → g.isNodeLive x = true) {t' : Extraction}
    (ht : t.turn g σ hops = .inl t') : ∃ x d, Searches g s hops (done ++ [(x, d)]) t' := by
  rw [Extraction.turn] at ht
  split at ht
  · cases ht
  · rename_i x d queue hqueue
    have hinv : Inv g.Joined s (some hops) done ((x, d) :: queue) := hqueue ▸ h.inv
    have hexpands : Expands g s hops done x d { t with queue } :=
      ⟨hinv, fun z => by rw [h.seen, hqueue], h.edges⟩
    refine ⟨x, d, ?_⟩
    dsimp only at ht
    split at ht
    · rename_i hstop
      obtain rfl := Sum.inl.inj ht
      exact hexpands.retire fun hd => absurd hd (by omega)
    · rename_i hgo
      obtain rfl := Sum.inl.inj ht
      have hd : d < hops := by omega
      have hx : g.isNodeLive x = true := hlive x d (hinv.distance (x, d) (by simp))
      obtain ⟨hout, houtAll, -⟩ := hexpands.foldl hd Edge.targetId (g.outgoingEdges σ x)
        fun ed hed => by
          obtain ⟨hvis, hsrc⟩ := (hg.mem_outgoingEdges_visible hx).mp hed
          exact ⟨hvis, .inl ⟨hsrc, rfl⟩⟩
      obtain ⟨hin, hinAll, hkeep⟩ := hout.foldl hd Edge.sourceId (g.incomingEdges σ x)
        fun ed hed => by
          obtain ⟨hvis, htgt⟩ := (hg.mem_incomingEdges_visible hx).mp hed
          exact ⟨hvis, .inr ⟨rfl, htgt⟩⟩
      refine hin.retire fun _ y hjoined => ?_
      obtain ⟨id, ed, hed, hsrc, rfl, -⟩ | ⟨id, ed, hed, rfl, htgt, -⟩ := hjoined
      · refine hkeep _ (houtAll ed ((hg.mem_outgoingEdges_visible hx).mpr ⟨?_, hsrc⟩))
        exact hg.edgeId_of_visible hed ▸ hed
      · refine hinAll ed ((hg.mem_incomingEdges_visible hx).mpr ⟨?_, htgt⟩)
        exact hg.edgeId_of_visible hed ▸ hed

end Extraction

/-- What is linked to a live start is live, and a node of the graph. -/
theorem live_of_walk (hlink : ∀ x y, R x y → g.isNodeLive y = true) {x : String} {n : ℕ}
    (hlive : g.isNodeLive start = true) (h : Walk R start n x) : g.isNodeLive x = true := by
  cases h with
  | start => exact hlive
  | step _ link => exact hlink _ _ link

/-- The nodes within the hops of the start, each once, and visible edges between these. -/
structure IsSubgraph (g : MaterializedGraph) (start : String) (hops : ℕ)
    (r : List String × List String) : Prop where
  nodup : r.1.Nodup
  mem_iff : ∀ x, x ∈ r.1 ↔ ∃ n, Distance g.Joined start x n ∧ n ≤ hops
  edges : ∀ id ∈ r.2, ∃ ed, g.visibleEdge id = some ed ∧ ed.sourceId ∈ r.1 ∧ ed.targetId ∈ r.1

/-- **Run.** A subgraph has the nodes within the hops, and edges between them. -/
theorem subgraph_ball (hg : g.Coherent) (σ : HashOrder) (hlive : g.isNodeLive start = true)
    (hops : ℕ) : ∃ r, subgraph g σ start hops = some r ∧ IsSubgraph g start hops r := by
  have hwalk : ∀ x n, Walk g.Joined start n x → g.isNodeLive x = true := fun x n =>
    live_of_walk (fun _ _ h => h.elim Linked.target_live Linked.source_live) hlive
  rw [subgraph, if_neg (not_isNone_of_live hlive)]
  refine Loop.exists_run_of_le (I := fun k t => ∃ done, t.Searches g start hops done ∧
    done.length = k) ?_ ?_ ?_ ?_
  · exact ⟨[], ⟨Inv.init, mem_start, fun id hid => absurd hid Std.ExtTreeSet.not_mem_empty⟩, rfl⟩
  · rintro _ t t' ⟨done, h, rfl⟩ ht
    obtain ⟨x, d, h'⟩ := h.turn hg (fun x n hx => hwalk x n hx.walk) ht
    exact ⟨done ++ [(x, d)], h', List.length_append⟩
  · rintro _ t r ⟨done, h, -⟩ ht
    rw [Extraction.turn] at ht
    split at ht
    · rename_i hqueue
      obtain rfl := Sum.inr.inj ht
      have hinv := hqueue ▸ h.inv
      have hseen : ∀ x, x ∈ t.visitedNodes ↔ x ∈ done.map Prod.fst := fun x => by
        rw [h.seen, hqueue, List.append_nil]
      refine ⟨(σ.perm _).nodup_iff.mpr HashSet.nodup_toList, fun x => ?_, fun id hid => ?_⟩
      · rw [HashOrder.mem_walk, Std.ExtTreeSet.mem_toList, hseen, hinv.mem_done_iff]
        simp
      · rw [HashOrder.mem_walk, Std.ExtTreeSet.mem_toList] at hid
        obtain ⟨ed, hed, hsrc, htgt⟩ := h.edges id hid
        simp only [HashOrder.mem_walk, Std.ExtTreeSet.mem_toList]
        exact ⟨ed, hed, hsrc, htgt⟩
    · dsimp only at ht
      split at ht <;> cases ht
  · rintro _ t ⟨done, h, rfl⟩
    exact done_le_size (h.inv.length_le fun x n hx => mem_nodes_of_live (hwalk x n hx))

/-- **Run.** A breadth-first traversal returns the ball around a live start. -/
theorem bfs_ball (hg : g.Coherent) (σ : HashOrder) (hlive : g.isNodeLive start = true)
    (maxDepth : Option ℕ) (filter : Option String) :
    ∃ l, bfs g σ start maxDepth filter = some l ∧ Ball (g.Linked filter) start maxDepth l := by
  have hwalk : ∀ x n, Walk (g.Linked filter) start n x → g.isNodeLive x = true := fun x n =>
    live_of_walk (fun _ _ h => h.target_live) hlive
  exact traverse_enqueue maxDepth hlive (fun x n hx y => hg.mem_targets (hwalk x n hx.walk))
    fun x n hx => mem_nodes_of_live (hwalk x n hx)

/-- **Bounded traversals** from a live node, in a graph after any calls: `bfs` and
`impact_analysis` return the ball around it, over the visible edges of a type and against all
of them, each node once and the nearer ones first; `subgraph` returns the nodes within the
hops, whichever way the edges go, and edges between these. -/
theorem traversals_exact [Crates] (σ σ' : HashOrder) (o : Ontology) (calls : List GraphCall)
    (start : String) :
    let g := calls.foldl (GraphCall.run σ) (new o)
    g.isNodeLive start = true →
      (∀ maxDepth filter, ∃ l, bfs g σ' start maxDepth filter = some l ∧
        Ball (g.Linked filter) start maxDepth l) ∧
      (∀ maxDepth, ∃ l, impactAnalysis g σ' start maxDepth = some l ∧
        Ball (fun x y => g.Linked none y x) start maxDepth l) ∧
      ∀ hops, ∃ r, subgraph g σ' start hops = some r ∧ IsSubgraph g start hops r := by
  intro g hlive
  have hg : g.Coherent := coherent_run σ o calls
  refine ⟨bfs_ball hg σ' hlive, fun maxDepth => ?_, subgraph_ball hg σ' hlive⟩
  · have hwalk : ∀ x n, Walk (fun x y => g.Linked none y x) start n x → g.isNodeLive x = true :=
      fun x n => live_of_walk (fun _ _ h => h.source_live) hlive
    exact traverse_enqueue maxDepth hlive (fun x n hx y => hg.mem_sources (hwalk x n hx.walk))
      fun x n hx => mem_nodes_of_live (hwalk x n hx)

open Sample in
theorem traversals_exact_meeting :
    let g := meeting.foldl (GraphCall.run .keyOrder) (new guests)
    (∃ l, bfs g .keyOrder "ann" (some 1) none = some l ∧ Ball (g.Linked none) "ann" (some 1) l) ∧
      ∃ l, impactAnalysis g .keyOrder "ann" none = some l ∧
        Ball (fun x y => g.Linked none y x) "ann" none l := by
  obtain ⟨hbfs, himpact, -⟩ := traversals_exact .keyOrder .keyOrder guests meeting "ann"
    (by decide +kernel)
  exact ⟨hbfs (some 1) none, himpact none⟩

end Engine

end SilkGraph
