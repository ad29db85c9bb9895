import SilkGraph.Engine.Traversal
import SilkGraph.Lib.Dag

/-!
# Topological sort

`topological_sort` counts the edges into a node over `all_edges` and takes them away again over
`outgoing_edges`. For a live node the two agree, edge by edge, so a counter is at every point
the number of edges from nodes that are not listed yet, and it never goes below zero. The rest
is Kahn's algorithm (`Dag.KahnInv`): the sort comes out if and only if there is no cycle
(`topological_sort_exact`).
-/

namespace SilkGraph

open MaterializedGraph

namespace MaterializedGraph

/-- The sources of the visible edges into a node, once for each edge. -/
def linksInto (g : MaterializedGraph) (σ : HashOrder) (y : String) : List String :=
  ((g.allEdges σ).filter fun ed => ed.targetId = y).map Edge.sourceId

/-- The visible edges into a node from nodes that are not listed. -/
def openLinks (g : MaterializedGraph) (σ : HashOrder) (done : List String) (y : String) : ℕ :=
  (g.allEdges σ).countP fun ed => ed.targetId = y ∧ ed.sourceId ∉ done

/-- The edges of a list into a node. -/
def edgesTo (eds : List Edge) (y : String) : ℕ := eds.countP fun ed => ed.targetId = y

theorem edgesTo_cons (ed : Edge) (eds : List Edge) (y : String) :
    edgesTo (ed :: eds) y = edgesTo eds y + if ed.targetId = y then 1 else 0 := by
  rw [edgesTo, List.countP_cons, edgesTo]
  simp

theorem edgesTo_pos_iff {eds : List Edge} {y : String} :
    0 < edgesTo eds y ↔ ∃ ed ∈ eds, ed.targetId = y := by
  simp [edgesTo, List.countP_pos_iff]

variable {g : MaterializedGraph} {σ : HashOrder} {x y : String} {done : List String}

theorem openLinks_eq_zero_iff :
    g.openLinks σ done y = 0 ↔ ∀ x ∈ g.linksInto σ y, x ∈ done := by
  simp only [openLinks, List.countP_eq_zero, linksInto, List.mem_map, List.mem_filter,
    decide_eq_true_eq, not_and, not_not]
  constructor
  · rintro h x ⟨ed, ⟨hed, htgt⟩, rfl⟩
    exact h ed hed htgt
  · exact fun h ed hed htgt => h ed.sourceId ⟨ed, ⟨hed, htgt⟩, rfl⟩

namespace Coherent

theorem mem_linksInto (hg : g.Coherent) : x ∈ g.linksInto σ y ↔ g.Linked none x y := by
  simp only [linksInto, List.mem_map, List.mem_filter, decide_eq_true_eq, mem_allEdges hg.sound]
  constructor
  · rintro ⟨ed, ⟨hed, htgt⟩, hsrc⟩
    exact ⟨ed.edgeId, ed, hed, hsrc, htgt, nofun⟩
  · rintro ⟨id, ed, hed, hsrc, htgt, -⟩
    exact ⟨ed, ⟨hg.edgeId_of_visible hed ▸ hed, htgt⟩, hsrc⟩

/-- A node is ready when it is live and has no open links. -/
theorem ready_iff (hg : g.Coherent) :
    Dag.Ready (g.linksInto σ) (fun x => g.isNodeLive x = true) done y ↔
      g.isNodeLive y = true ∧ g.openLinks σ done y = 0 := by
  rw [openLinks_eq_zero_iff]
  refine and_congr_right fun _ => ⟨fun h x hx => h x hx ?_, fun h x hx _ => h x hx⟩
  exact (hg.mem_linksInto.mp hx).source_live

/-- The outgoing edges of a live node are its edges among all. -/
theorem outgoingEdges_perm (hg : g.Coherent) (hx : g.isNodeLive x = true) :
    (g.outgoingEdges σ x).Perm ((g.allEdges σ).filter fun ed => ed.sourceId = x) := by
  have hnodup : ((g.allEdges σ).filter fun ed => ed.sourceId = x).Nodup :=
    (List.Nodup.of_map _ (hg.nodup_allEdges σ)).filter _
  refine (List.perm_ext_iff_of_nodup (List.Nodup.of_map _ (hg.nodup_outgoingEdges σ x)) hnodup).mpr
    fun ed => ?_
  rw [hg.mem_outgoingEdges_visible hx, List.mem_filter, mem_allEdges hg.sound, decide_eq_true_eq]

/-- Listing a node closes as many links as it has edges. -/
theorem openLinks_concat (hg : g.Coherent) (hx : g.isNodeLive x = true) (hdone : x ∉ done) :
    g.openLinks σ done y =
      g.openLinks σ (done ++ [x]) y + edgesTo (g.outgoingEdges σ x) y := by
  rw [edgesTo, (hg.outgoingEdges_perm hx).countP_eq, List.countP_filter, openLinks, openLinks]
  generalize g.allEdges σ = eds
  induction eds with
  | nil => rfl
  | cons ed eds ih =>
    rw [List.countP_cons, List.countP_cons, List.countP_cons, ih]
    by_cases hy : ed.targetId = y
    · by_cases hsrc : ed.sourceId = x
      · subst hsrc
        simp [hy, hdone]
        omega
      · simp [hy, hsrc]
        omega
    · simp [hy]

end Coherent

end MaterializedGraph

namespace Engine

variable {g : MaterializedGraph} {σ : HashOrder} {x y : String} {done : List String}

/-! ### The counters -/

theorem mem_liveIds (hg : g.Coherent) : x ∈ liveIds g σ ↔ g.isNodeLive x = true := by
  rw [liveIds, HashSet.mem_ofList, List.mem_map, isNodeLive_iff, Option.isSome_iff_exists]
  constructor
  · rintro ⟨nd, hnd, rfl⟩
    exact ⟨nd, (mem_allNodes hg.sound).mp hnd⟩
  · rintro ⟨nd, hnd⟩
    obtain rfl := hg.nodeId_of_getNode hnd
    exact ⟨nd, (mem_allNodes hg.sound).mpr hnd, rfl⟩

/-- A counter says how many links are open, for the live nodes. -/
def Counts (g : MaterializedGraph) (inDegree : HashMap String ℕ) (count : String → ℕ) : Prop :=
  ∀ y : String, inDegree[y]? = if g.isNodeLive y = true then some (count y) else none

theorem Counts.congr {m : HashMap String ℕ} {count count' : String → ℕ} (h : Counts g m count)
    (heq : ∀ y, count y = count' y) : Counts g m count' := fun y => by rw [h y, heq]

theorem getElem?_foldl_zero (ids : List String) (m : HashMap String ℕ) (y : String) :
    (ids.foldl (fun m id => m.insert id 0) m)[y]? = if y ∈ ids then some 0 else m[y]? := by
  induction ids generalizing m with
  | nil => simp
  | cons id ids ih =>
    rw [List.foldl_cons, ih, HashMap.getElem?_insert]
    by_cases hy : y ∈ ids
    · simp [hy]
    · by_cases hid : id = y
      · simp [hid]
      · simp [hy, hid, Ne.symm hid]

/-- Counting goes edge by edge. -/
theorem counts_foldl {count : String → ℕ} (hg : g.Coherent) {eds : List Edge}
    (heds : ∀ ed ∈ eds, ed ∈ g.allEdges σ) {m : HashMap String ℕ} (hm : Counts g m count) :
    Counts g (eds.foldl (countEdge (liveIds g σ)) m)
      fun y => count y + edgesTo eds y := by
  induction eds generalizing m count with
  | nil => exact hm
  | cons ed eds ih =>
    obtain ⟨-, hsrc, htgt⟩ := hg.mem_allEdges_iff.mp (heds ed List.mem_cons_self)
    have hboth : ((liveIds g σ).contains ed.targetId && (liveIds g σ).contains ed.sourceId) = true := by
      rw [Bool.and_eq_true, Std.ExtTreeSet.contains_iff_mem, Std.ExtTreeSet.contains_iff_mem]
      exact ⟨(mem_liveIds hg).mpr htgt, (mem_liveIds hg).mpr hsrc⟩
    have hone : Counts g (countEdge (liveIds g σ) m ed)
        fun y => count y + if ed.targetId = y then 1 else 0 := by
      intro y
      rw [countEdge, if_pos hboth, HashMap.getElem?_insert]
      by_cases hy : ed.targetId = y
      · subst hy
        simp [hm ed.targetId, htgt]
      · simp [hm y, hy]
    have hrest := ih (fun e he => heds e (List.mem_cons_of_mem ed he)) hone
    simp only [edgesTo_cons, List.foldl_cons]
    exact hrest.congr fun y => by omega

/-- At the start all links are open. -/
theorem counts_inDegrees (hg : g.Coherent) : Counts g (inDegrees g σ) (g.openLinks σ []) := by
  have hzero : Counts g ((σ.walk (liveIds g σ).toList).foldl (fun m id => m.insert id 0) ∅)
      fun _ => 0 := by
    intro y
    rw [getElem?_foldl_zero]
    simp [mem_liveIds hg]
  refine (counts_foldl hg (fun _ h => h) hzero).congr fun y => ?_
  simp [openLinks, edgesTo]

theorem mem_roots (hg : g.Coherent) :
    y ∈ roots g σ ↔ g.isNodeLive y = true ∧ g.openLinks σ [] y = 0 := by
  rw [roots, List.mem_mergeSort, List.mem_map]
  simp only [List.mem_filter, HashOrder.mem_walk, Prod.exists, HashMap.mem_toList, beq_iff_eq,
    counts_inDegrees hg _]
  by_cases hy : g.isNodeLive y = true
  · simp [hy]
  · simp [hy]

theorem nodup_roots : (roots g σ).Nodup := by
  rw [roots, (List.mergeSort_perm _ _).nodup_iff]
  exact (nodup_walk_keys σ (inDegrees g σ)).sublist (List.filter_sublist.map Prod.fst)

/-- Releasing one edge: its target joins the queue if no link to it is left. -/
theorem Counts.release {count : String → ℕ} {s : Sorting} {ed : Edge}
    (hlive : g.isNodeLive ed.targetId = true)
    (hs : Counts g s.inDegree fun y => count y + if ed.targetId = y then 1 else 0) :
    ∃ s', s.release ed = some s' ∧ s'.result = s.result ∧
      s'.queue = s.queue ++ (if count ed.targetId = 0 then [ed.targetId] else []) ∧
      Counts g s'.inDegree count := by
  have hdeg : s.inDegree[ed.targetId]? = some (count ed.targetId + 1) := by
    rw [hs, if_pos hlive]
    dsimp only
    rw [if_pos rfl]
  rw [Sorting.release, hdeg]
  refine ⟨_, rfl, rfl, ?_, fun y => ?_⟩
  · by_cases hzero : count ed.targetId = 0 <;> simp [hzero]
  · rw [HashMap.getElem?_insert]
    split
    · rename_i hy
      subst hy
      rw [if_pos hlive]
    · rename_i hy
      rw [hs]
      dsimp only
      rw [if_neg hy, Nat.add_zero]

/-- **The edges out of a node**, one after the other: no counter goes below zero, and the nodes
whose counter comes to zero join the queue, each once. -/
theorem foldlM_release {count : String → ℕ} {eds : List Edge}
    (heds : ∀ ed ∈ eds, g.isNodeLive ed.targetId = true) {s : Sorting}
    (hs : Counts g s.inDegree fun y => count y + edgesTo eds y) :
    ∃ s' ready, eds.foldlM Sorting.release s = some s' ∧ s'.result = s.result ∧
      s'.queue = s.queue ++ ready ∧ ready.Nodup ∧
      (∀ y, y ∈ ready ↔ count y = 0 ∧ ∃ ed ∈ eds, ed.targetId = y) ∧ Counts g s'.inDegree count := by
  induction eds generalizing s with
  | nil => exact ⟨s, [], rfl, rfl, (List.append_nil _).symm, List.nodup_nil, by simp, hs⟩
  | cons ed eds ih =>
    have hstep : Counts g s.inDegree
        fun y => (count y + edgesTo eds y) + if ed.targetId = y then 1 else 0 :=
      hs.congr fun y => by rw [edgesTo_cons, Nat.add_assoc]
    obtain ⟨s₁, hrelease, hresult₁, hqueue₁, hs₁⟩ := hstep.release (heds ed List.mem_cons_self)
    obtain ⟨s', ready, hrun, hresult, hqueue, hnodup, hready, hcounts⟩ :=
      ih (fun e he => heds e (List.mem_cons_of_mem ed he)) hs₁
    rw [hresult₁] at hresult
    rw [hqueue₁] at hqueue
    have hfold : (ed :: eds).foldlM Sorting.release s = some s' := by
      rw [List.foldlM_cons, hrelease]
      exact hrun
    by_cases hn : count ed.targetId + edgesTo eds ed.targetId = 0
    · -- the last edge into its target
      obtain ⟨hzero, hnone⟩ := Nat.add_eq_zero_iff.mp hn
      have hlast : ¬ ∃ e ∈ eds, e.targetId = ed.targetId := fun h => by
        have := edgesTo_pos_iff.mpr h
        omega
      refine ⟨s', ed.targetId :: ready, hfold, hresult, ?_, ?_, fun y => ?_, hcounts⟩
      · rw [hqueue, if_pos hn, List.append_assoc, List.singleton_append]
      · refine List.nodup_cons.mpr ⟨fun hin => ?_, hnodup⟩
        obtain ⟨-, e, he, heq⟩ := (hready _).mp hin
        exact hlast ⟨e, he, heq⟩
      · rw [List.mem_cons, hready]
        constructor
        · rintro (rfl | ⟨hy, e, he, heq⟩)
          · exact ⟨hzero, ed, List.mem_cons_self, rfl⟩
          · exact ⟨hy, e, List.mem_cons_of_mem ed he, heq⟩
        · rintro ⟨hy, e, he, heq⟩
          obtain rfl | he := List.mem_cons.mp he
          · exact .inl heq.symm
          · exact .inr ⟨hy, e, he, heq⟩
    · refine ⟨s', ready, hfold, hresult, ?_, hnodup, fun y => ?_, hcounts⟩
      · rw [hqueue, if_neg hn, List.append_nil]
      · rw [hready]
        refine and_congr_right fun hy => ⟨?_, ?_⟩
        · rintro ⟨e, he, heq⟩
          exact ⟨e, List.mem_cons_of_mem ed he, heq⟩
        · rintro ⟨e, he, heq⟩
          obtain rfl | he := List.mem_cons.mp he
          · subst heq
            exact edgesTo_pos_iff.mp (by omega)
          · exact ⟨e, he, heq⟩

/-! ### The sort -/

/-- Between two turns. -/
structure Sorts (g : MaterializedGraph) (σ : HashOrder) (s : Sorting) : Prop where
  kahn : Dag.KahnInv (g.linksInto σ) (fun x => g.isNodeLive x = true) s.result s.queue
  counts : Counts g s.inDegree (g.openLinks σ s.result)

/-- **Turn.** One more node is listed, and no counter underflows. -/
theorem Sorts.turn {s : Sorting} (h : Sorts g σ s) (hg : g.Coherent) :
    (s.queue = [] ∧ s.turn g σ = .inr (some s.result)) ∨
      ∃ s' x, s.turn g σ = .inl s' ∧ Sorts g σ s' ∧ s'.result = s.result ++ [x] := by
  rw [Sorting.turn]
  cases hq : s.queue with
  | nil => exact .inl ⟨rfl, rfl⟩
  | cons x queue =>
    refine .inr ?_
    have hkahn := hq ▸ h.kahn
    have hx : g.isNodeLive x = true := ((hkahn.mem_iff x).mp (by simp)).1
    have hdone : x ∉ s.result := fun hin =>
      (List.nodup_append.mp hkahn.nodup).2.2 x hin x List.mem_cons_self rfl
    have hlive : ∀ ed ∈ g.outgoingEdges σ x, g.isNodeLive ed.targetId = true := fun ed hed =>
      (hg.mem_outgoingEdges.mp hed).2.2
    obtain ⟨s', ready, hrun, hresult, hqueue, hnodup, hready, hcounts⟩ :=
      foldlM_release (s := { s with queue, result := s.result ++ [x] }) hlive
        (h.counts.congr fun y => hg.openLinks_concat hx hdone)
    dsimp only at hresult hqueue
    refine ⟨s', x, by dsimp only; rw [hrun], ⟨?_, hresult ▸ hcounts⟩, hresult⟩
    rw [hresult, hqueue]
    refine hkahn.step hnodup fun y => ?_
    rw [hready, hg.ready_iff, hg.ready_iff]
    have hconcat := hg.openLinks_concat (σ := σ) (y := y) hx hdone
    constructor
    · rintro ⟨hzero, ed, hed, rfl⟩
      refine ⟨⟨hlive ed hed, hzero⟩, fun hbefore => ?_⟩
      have hpos := edgesTo_pos_iff.mpr ⟨ed, hed, rfl⟩
      omega
    · rintro ⟨⟨hy, hzero⟩, hbefore⟩
      refine ⟨hzero, edgesTo_pos_iff.mp ?_⟩
      by_contra hnone
      exact hbefore ⟨hy, by omega⟩

/-- **Run.** The sort ends with an empty queue and without underflow. -/
theorem sort_run (hg : g.Coherent) (σ : HashOrder) :
    ∃ r, Loop.run (Sorting.turn g σ) (g.nodes.size + 1)
        { inDegree := inDegrees g σ, queue := roots g σ, result := [] } = some r ∧
      ∃ l, r = some l ∧ Dag.KahnInv (g.linksInto σ) (fun x => g.isNodeLive x = true) l [] := by
  refine Loop.exists_run_of_le (I := fun k s => Sorts g σ s ∧ s.result.length = k) ?_ ?_ ?_ ?_
  · refine ⟨⟨.init nodup_roots fun y => ?_, counts_inDegrees hg⟩, rfl⟩
    rw [mem_roots hg, hg.ready_iff]
  · rintro _ s s' ⟨h, rfl⟩ hturn
    obtain ⟨-, hleave⟩ | ⟨s'', x, hgo, h', hresult⟩ := h.turn hg
    · rw [hleave] at hturn
      cases hturn
    · obtain rfl := Sum.inl.inj (hgo.symm.trans hturn)
      refine ⟨h', ?_⟩
      rw [hresult, List.length_append, List.length_singleton]
  · rintro _ s r ⟨h, -⟩ hturn
    obtain ⟨hqueue, hleave⟩ | ⟨s'', x, hgo, -⟩ := h.turn hg
    · obtain rfl := Sum.inr.inj (hleave.symm.trans hturn)
      exact ⟨s.result, rfl, hqueue ▸ h.kahn⟩
    · rw [hgo] at hturn
      cases hturn
  · rintro _ s ⟨h, rfl⟩
    have hkeys : s.result ⊆ g.nodes.keys := fun z hz =>
      mem_nodes_of_live ((h.kahn.mem_iff z).mp (List.mem_append_left _ hz)).1
    rw [← Std.ExtTreeMap.length_keys]
    exact (List.subperm_of_subset (List.nodup_append.mp h.kahn.nodup).1 hkeys).length_le

/-- What a topological order has to be. -/
structure IsTopologicalOrder (g : MaterializedGraph) (l : List String) : Prop where
  nodup : l.Nodup
  mem_iff : ∀ x, x ∈ l ↔ g.isNodeLive x = true
  before : ∀ x y, g.Linked none x y → [x, y].Sublist l

/-- When the queue is empty, all live nodes are listed if and only if there is no cycle. -/
theorem all_listed_iff (hg : g.Coherent) {l : List String}
    (hkahn : Dag.KahnInv (g.linksInto σ) (fun x => g.isNodeLive x = true) l []) :
    (∀ x, x ∈ l ↔ g.isNodeLive x = true) ↔ ∀ x, ¬ Relation.TransGen (g.Linked none) x x := by
  have hancestor : ∀ x y, Dag.Ancestor (g.linksInto σ) x y ↔ Relation.TransGen (g.Linked none) x y :=
    fun x y => by simp only [Dag.Ancestor, hg.mem_linksInto]
  constructor
  · intro hl x hcycle
    -- a node on a cycle would be listed before itself
    obtain ⟨y, hlink, -⟩ := Relation.TransGen.head'_iff.mp hcycle
    obtain ⟨pre, post, heq⟩ := List.append_of_mem ((hl x).mpr hlink.source_live)
    have hclosed : Dag.ParentClosed (g.linksInto σ) fun x => g.isNodeLive x = true :=
      fun x _ p hp => (hg.mem_linksInto.mp hp).source_live
    have hpre := hkahn.parentsFirst.ancestor hclosed heq hlink.source_live ((hancestor x x).mpr hcycle)
    have hnodup : l.Nodup := by simpa using hkahn.nodup
    rw [heq] at hnodup
    exact (List.nodup_append.mp hnodup).2.2 x hpre x List.mem_cons_self rfl
  · intro hacyclic
    refine hkahn.complete ((Dag.acyclic_iff_irrefl (l := g.nodes.keys) fun x p hp => ?_).mpr ?_)
    · exact mem_nodes_of_live (hg.mem_linksInto.mp hp).source_live
    · exact fun x hx => hacyclic x ((hancestor x x).mp hx)

/-- The check at the end of the source: the list is as long as there are live nodes. -/
theorem length_eq_size_iff (hg : g.Coherent) {l : List String}
    (hkahn : Dag.KahnInv (g.linksInto σ) (fun x => g.isNodeLive x = true) l []) :
    l.length = (liveIds g σ).size ↔ ∀ x, x ∈ l ↔ g.isNodeLive x = true := by
  have hnodup : l.Nodup := by simpa using hkahn.nodup
  have hsub : l ⊆ (liveIds g σ).toList := fun x hx =>
    Std.ExtTreeSet.mem_toList.mpr ((mem_liveIds hg).mpr ((hkahn.mem_iff x).mp (by simpa using hx)).1)
  rw [← Std.ExtTreeSet.length_toList]
  constructor
  · intro hlen x
    have hperm := (List.subperm_of_subset hnodup hsub).perm_of_length_le hlen.ge
    rw [hperm.mem_iff, Std.ExtTreeSet.mem_toList, mem_liveIds hg]
  · intro hl
    refine ((List.perm_ext_iff_of_nodup hnodup HashSet.nodup_toList).mpr fun x => ?_).length_eq
    rw [hl, Std.ExtTreeSet.mem_toList, mem_liveIds hg]

/-- **Topological sort.** In a graph after any calls the sort ends and no counter underflows. It
gives an order if and only if the visible edges make no cycle, and then a topological one;
`has_cycle` says the opposite. -/
theorem topological_sort_exact [Crates] (σ σ' : HashOrder) (o : Ontology) (calls : List GraphCall) :
    let g := calls.foldl (GraphCall.run σ) (new o)
    ∃ r, topologicalSort g σ' = some r ∧
      (r.isSome = true ↔ ∀ x, ¬ Relation.TransGen (g.Linked none) x x) ∧
      (∀ l ∈ r, IsTopologicalOrder g l) ∧
      hasCycle g σ' = some r.isNone ∧
      (hasCycle g σ' = some true ↔ ∃ x, Relation.TransGen (g.Linked none) x x) := by
  intro g
  have hg : g.Coherent := coherent_run σ o calls
  obtain ⟨_, hrun, l, rfl, hkahn⟩ := sort_run hg σ'
  have hnodup : l.Nodup := by simpa using hkahn.nodup
  have hall := all_listed_iff hg hkahn
  have hsize := length_eq_size_iff hg hkahn
  have hsort : topologicalSort g σ' =
      some (if l.length = (liveIds g σ').size then some l else none) := by
    rw [topologicalSort, hrun]
    simp
  by_cases hlen : l.length = (liveIds g σ').size
  · rw [if_pos hlen] at hsort
    have hl := hsize.mp hlen
    have hcycle : hasCycle g σ' = some false := by rw [hasCycle, hsort]; rfl
    refine ⟨some l, hsort, iff_of_true rfl (hall.mp hl), fun l' hl' => ?_, hcycle, ?_⟩
    · obtain rfl := Option.some.inj hl'
      refine ⟨hnodup, hl, fun x y hlink => ?_⟩
      obtain ⟨pre, post, rfl⟩ := List.append_of_mem ((hl y).mpr hlink.target_live)
      have hx := hkahn.parentsFirst pre y post rfl x (hg.mem_linksInto.mpr hlink) hlink.source_live
      exact (List.singleton_sublist.mpr hx).append (List.singleton_sublist.mpr List.mem_cons_self)
    · rw [hcycle]
      exact iff_of_false (by simp) fun ⟨x, hx⟩ => hall.mp hl x hx
  · rw [if_neg hlen] at hsort
    have hcyclic : ¬ ∀ x, ¬ Relation.TransGen (g.Linked none) x x := fun h =>
      hlen (hsize.mpr (hall.mpr h))
    have hcycle : hasCycle g σ' = some true := by rw [hasCycle, hsort]; rfl
    refine ⟨none, hsort, iff_of_false Bool.false_ne_true hcyclic, nofun, hcycle, ?_⟩
    exact iff_of_true hcycle (by simpa using hcyclic)

end Engine

end SilkGraph
