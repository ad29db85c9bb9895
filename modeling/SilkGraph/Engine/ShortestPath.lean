import SilkGraph.Engine.Traversal

/-!
# Shortest paths

`shortest_path` is a breadth-first search that leaves as soon as the target is seen, in the
middle of a turn. Every node that is seen has a parent one step nearer (`Rooted`), so following
the parents back from the target takes as many turns as the target is far, ends at the start
and gives a shortest path (`shortest_path_exact`).
-/

namespace SilkGraph

open MaterializedGraph

namespace Engine

open Breadth

namespace PathSearch

variable {R : String → String → Prop} {s target x : String} {done queue : List (String × ℕ)} {d : ℕ}
  {t : PathSearch} {parent : HashMap String String} {visited : HashSet String}

/-- Every node that is seen has a parent one step nearer, which is seen too; only the start
has none. -/
structure Rooted (R : String → String → Prop) (s : String) (visited : HashSet String)
    (parent : HashMap String String) : Prop where
  link : ∀ y p : String, parent[y]? = some p → p ∈ visited ∧ R p y ∧
    ∃ n, Distance R s p n ∧ Distance R s y (n + 1)
  rooted : ∀ y ∈ visited, y = s ∨ ∃ p, parent[y]? = some p

theorem Rooted.insert (h : Rooted R s visited parent) {y : String} (hx : x ∈ visited)
    (hxd : Distance R s x d) (hyd : Distance R s y (d + 1)) (link : R x y) :
    Rooted R s (visited.insert y) (parent.insert y x) := by
  refine ⟨fun z p hz => ?_, fun z hz => ?_⟩
  · rw [HashMap.getElem?_insert] at hz
    split at hz
    · rename_i hyz
      subst hyz
      obtain rfl := Option.some.inj hz
      exact ⟨HashSet.mem_insert.mpr (.inr hx), link, d, hxd, hyd⟩
    · obtain ⟨hp, hlink, hdist⟩ := h.link z p hz
      exact ⟨HashSet.mem_insert.mpr (.inr hp), hlink, hdist⟩
  · rw [HashMap.getElem?_insert]
    split
    · exact .inr ⟨x, rfl⟩
    · rename_i hyz
      obtain rfl | hz := HashSet.mem_insert.mp hz
      · exact absurd rfl hyz
      · exact h.rooted z hz

/-! ### The search -/

/-- Between two turns. -/
structure Searches (R : String → String → Prop) (s target : String) (done queue : List (String × ℕ))
    (t : PathSearch) : Prop where
  inv : Inv R s none done queue
  nodes : t.queue = queue.map Prod.fst
  seen : ∀ z, z ∈ t.visited ↔ z ∈ (done ++ queue).map Prod.fst
  rooted : Rooted R s t.visited t.parent
  unseen : target ∉ t.visited

/-- Inside a turn: the node taken from the queue counts as its head. -/
structure Expands (R : String → String → Prop) (s target : String) (done : List (String × ℕ))
    (x : String) (d : ℕ) (queue : List (String × ℕ)) (t : PathSearch) : Prop where
  inv : Inv R s none done ((x, d) :: queue)
  nodes : t.queue = queue.map Prod.fst
  seen : ∀ z, z ∈ t.visited ↔ z ∈ (done ++ (x, d) :: queue).map Prod.fst
  rooted : Rooted R s t.visited t.parent
  unseen : target ∉ t.visited

/-- The inner loop sees all targets, or leaves with the parents when the target of the search is
one of them. -/
theorem Expands.expand (h : Expands R s target done x d queue t) (eds : List Edge)
    (heds : ∀ ed ∈ eds, R x ed.targetId) :
    (∃ t' queue', expand target x eds t = .inl t' ∧ Expands R s target done x d queue' t' ∧
      (∀ ed ∈ eds, ed.targetId ∈ t'.visited) ∧ ∀ z ∈ t.visited, z ∈ t'.visited) ∨
    ∃ parent visited, expand target x eds t = .inr parent ∧ Rooted R s visited parent ∧
      target ∈ visited ∧ ∃ n, Distance R s target n := by
  induction eds generalizing t queue with
  | nil => exact .inl ⟨t, queue, rfl, h, nofun, fun _ hz => hz⟩
  | cons ed eds ih =>
    have hrest : ∀ ed ∈ eds, R x ed.targetId := fun e he => heds e (List.mem_cons_of_mem ed he)
    rw [PathSearch.expand]
    split
    · rename_i hy
      obtain ⟨t', queue', hrun, h', hall, hkeep⟩ | hfound := ih h hrest
      · refine .inl ⟨t', queue', hrun, h', fun e he => ?_, hkeep⟩
        obtain rfl | he := List.mem_cons.mp he
        · exact hkeep _ (Std.ExtTreeSet.contains_iff_mem.mp hy)
        · exact hall e he
      · exact .inr hfound
    · rename_i hy
      rw [Std.ExtTreeSet.contains_iff_mem] at hy
      have hlink : R x ed.targetId := heds ed List.mem_cons_self
      have hinv := h.inv.discover hlink nofun ((h.seen _).not.mp hy)
      have hx : x ∈ t.visited := (h.seen x).mpr (by simp)
      have hxd : Distance R s x d := h.inv.distance (x, d) (by simp)
      have hyd : Distance R s ed.targetId (d + 1) := hinv.distance (ed.targetId, d + 1) (by simp)
      have hrooted := h.rooted.insert hx hxd hyd hlink
      dsimp only
      split
      · rename_i htarget
        rw [beq_iff_eq] at htarget
        exact .inr ⟨_, _, rfl, hrooted, HashSet.mem_insert.mpr (.inl htarget), d + 1, htarget ▸ hyd⟩
      · rename_i htarget
        rw [beq_iff_eq] at htarget
        have hexpands : Expands R s target done x d (queue ++ [(ed.targetId, d + 1)])
            { visited := t.visited.insert ed.targetId, parent := t.parent.insert ed.targetId x,
              queue := t.queue ++ [ed.targetId] } := by
          refine ⟨hinv, ?_, fun z => ?_, hrooted, fun hin => ?_⟩
          · rw [h.nodes, List.map_append, List.map_singleton]
          · rw [HashSet.mem_insert, h.seen]
            simp only [List.map_append, List.map_cons, List.map_nil, List.mem_append, List.mem_cons,
              List.not_mem_nil, or_false]
            tauto
          · obtain heq | hin := HashSet.mem_insert.mp hin
            · exact htarget heq
            · exact h.unseen hin
        obtain ⟨t', queue', hrun, h', hall, hkeep⟩ | hfound := ih hexpands hrest
        · refine .inl ⟨t', queue', hrun, h', fun e he => ?_, fun z hz => ?_⟩
          · obtain rfl | he := List.mem_cons.mp he
            · exact hkeep _ (HashSet.mem_insert.mpr (.inl rfl))
            · exact hall e he
          · exact hkeep z (HashSet.mem_insert.mpr (.inr hz))
        · exact .inr hfound

variable {g : MaterializedGraph} {σ : HashOrder}

/-- What a turn that leaves comes to: the parents of a search that has seen the target, or
nothing, and then there is no walk to it. -/
def Outcome (R : String → String → Prop) (s target : String) :
    Option (HashMap String String) → Prop
  | some parent => ∃ visited, Rooted R s visited parent ∧ target ∈ visited ∧
      ∃ n, Distance R s target n
  | none => ∀ n, ¬ Walk R s n target

/-- **Turn.** It is done with one more node, or leaves with an outcome. -/
theorem Searches.turn (h : Searches R s target done queue t)
    (hnext : ∀ x n, Distance R s x n → ∀ y, (∃ ed ∈ g.outgoingEdges σ x, ed.targetId = y) ↔ R x y) :
    (∃ t' p queue', t.turn g σ target = .inl t' ∧ Searches R s target (done ++ [p]) queue' t') ∨
      ∃ r, t.turn g σ target = .inr r ∧ Outcome R s target r := by
  rw [PathSearch.turn]
  cases queue with
  | nil =>
    refine .inr ⟨none, by rw [h.nodes]; rfl, fun n walk => h.unseen ?_⟩
    obtain ⟨m, -, hm⟩ := walk.exists_distance
    rw [h.seen, List.append_nil]
    exact h.inv.mem_done_iff.mpr ⟨m, hm, nofun⟩
  | cons p queue =>
    obtain ⟨x, d⟩ := p
    rw [h.nodes, List.map_cons]
    dsimp only
    have hxd : Distance R s x d := h.inv.distance (x, d) (by simp)
    have hexpands : Expands R s target done x d queue { t with queue := queue.map Prod.fst } :=
      ⟨h.inv, rfl, h.seen, h.rooted, h.unseen⟩
    obtain ⟨t', queue', hrun, h', hall, -⟩ | ⟨parent, visited, hrun, hfound⟩ :=
      hexpands.expand (g.outgoingEdges σ x) fun ed hed => (hnext x d hxd _).mp ⟨ed, hed, rfl⟩
    · rw [hrun]
      refine .inl ⟨t', (x, d), queue', rfl, h'.inv.retire fun _ y link => ?_, h'.nodes, fun z => ?_,
        h'.rooted, h'.unseen⟩
      · obtain ⟨ed, hed, rfl⟩ := (hnext x d hxd y).mpr link
        exact (h'.seen _).mp (hall ed hed)
      · rw [h'.seen, List.append_assoc, List.singleton_append]
    · rw [hrun]
      exact .inr ⟨some parent, rfl, visited, hfound⟩

/-- **Run.** The search comes to an outcome. -/
theorem search (hnext : ∀ x n, Distance R s x n → ∀ y,
      (∃ ed ∈ g.outgoingEdges σ x, ed.targetId = y) ↔ R x y)
    (hnodes : ∀ x n, Walk R s n x → x ∈ g.nodes.keys) (hne : s ≠ target) :
    ∃ r, Loop.run (PathSearch.turn g σ target) (g.nodes.size + 1)
        { visited := (∅ : HashSet String).insert s, parent := ∅, queue := [s] } = some r ∧
      Outcome R s target r := by
  refine Loop.exists_run_of_le (I := fun k t => ∃ done queue, Searches R s target done queue t ∧
    done.length = k) ?_ ?_ ?_ ?_
  · have hseen : ∀ z, z ∈ (∅ : HashSet String).insert s ↔ z = s := fun z => by
      rw [HashSet.mem_insert]
      simp [eq_comm]
    refine ⟨[], [(s, 0)], ⟨Inv.init, rfl, fun z => ?_, ⟨fun y p hy => ?_, fun y hy => ?_⟩, ?_⟩, rfl⟩
    · rw [hseen]
      simp
    · rw [Std.ExtTreeMap.getElem?_empty] at hy
      cases hy
    · exact .inl ((hseen y).mp hy)
    · exact fun hin => hne ((hseen target).mp hin).symm
  · rintro _ t t' ⟨done, queue, h, rfl⟩ ht
    obtain ⟨t'', p, queue', hrun, h'⟩ | ⟨r, hrun, -⟩ := h.turn hnext
    · obtain rfl := Sum.inl.inj (hrun.symm.trans ht)
      exact ⟨done ++ [p], queue', h', List.length_append⟩
    · rw [hrun] at ht
      cases ht
  · rintro _ t r ⟨done, queue, h, -⟩ ht
    obtain ⟨t'', p, queue', hrun, -⟩ | ⟨r', hrun, hout⟩ := h.turn hnext
    · rw [hrun] at ht
      cases ht
    · obtain rfl := Sum.inr.inj (hrun.symm.trans ht)
      exact hout
  · rintro _ t ⟨done, queue, h, rfl⟩
    exact done_le_size (h.inv.length_le hnodes)

/-! ### The reconstruction -/

/-- **Run.** The parents lead back to the start, by a path as long as the distance. -/
theorem Rooted.back (h : Rooted R s visited parent) (htarget : target ∈ visited) {n fuel : ℕ}
    (hn : Distance R s target n) (hfuel : n < fuel) :
    ∃ l, Loop.run (backTurn parent) fuel ([target], target) = some l ∧ IsPath R s target l ∧
      l.length = n + 1 := by
  refine Loop.exists_run (I := fun m back => back.2 ∈ visited ∧ Distance R s back.2 m ∧
    IsPath R back.2 target back.1.reverse ∧ back.1.length + m = n + 1) ?_ ?_ (n := n) ?_ hfuel
  · rintro m ⟨path, cur⟩ back' ⟨-, hdist, hpath, hlen⟩ hturn
    rw [backTurn] at hturn
    split at hturn
    · rename_i p hp
      obtain rfl := Sum.inl.inj hturn
      obtain ⟨hseen, hlink, k, hk, hk'⟩ := h.link cur p hp
      obtain rfl := hdist.unique hk'
      refine ⟨k, Nat.lt_succ_self k, hseen, hk, ?_, ?_⟩
      · rw [List.reverse_append, List.reverse_singleton, List.singleton_append]
        exact hpath.cons hlink
      · rw [List.length_append, List.length_singleton]
        dsimp only at hlen ⊢
        omega
    · cases hturn
  · rintro m ⟨path, cur⟩ l ⟨hseen, hdist, hpath, hlen⟩ hturn
    rw [backTurn] at hturn
    split at hturn
    · cases hturn
    · rename_i hnone
      obtain rfl := Sum.inr.inj hturn
      obtain rfl | ⟨p, hp⟩ := h.rooted cur hseen
      · obtain rfl := hdist.unique distance_start
        exact ⟨hpath, by rw [List.length_reverse]; exact hlen⟩
      · rw [hp] at hnone
        cases hnone
  · exact ⟨htarget, hn, .singleton target, Nat.add_comm 1 n⟩

end PathSearch

/-- What a shortest path has to be: live nodes at both ends that are connected, and then a path
without repetition that no other is shorter than. -/
structure IsShortestPath (g : MaterializedGraph) (start target : String)
    (r : Option (List String)) : Prop where
  isSome_iff : r.isSome = true ↔ g.isNodeLive start = true ∧ g.isNodeLive target = true ∧
    Relation.ReflTransGen (g.Linked none) start target
  path : ∀ l ∈ r, IsPath (g.Linked none) start target l ∧ l.Nodup ∧
    ∀ l', IsPath (g.Linked none) start target l' → l.length ≤ l'.length

variable {g : MaterializedGraph} {start target : String}

/-- A path as long as the distance is what is wanted. -/
theorem IsShortestPath.of_distance (hstart : g.isNodeLive start = true)
    (htarget : g.isNodeLive target = true) {n : ℕ} {l : List String}
    (hn : Distance (g.Linked none) start target n) (hl : IsPath (g.Linked none) start target l)
    (hlen : l.length = n + 1) : IsShortestPath g start target (some l) := by
  refine ⟨iff_of_true rfl ⟨hstart, htarget, exists_walk_iff.mp ⟨n, hn.walk⟩⟩, fun l' hl' => ?_⟩
  obtain rfl := Option.some.inj hl'
  refine ⟨hl, (hl.nodup hlen hn).1, fun l' hl' => ?_⟩
  obtain ⟨m, hm, walk⟩ := hl'.walk
  have := hn.2 walk
  omega

/-- **Shortest paths.** In a graph after any calls, `shortest_path` ends for any two nodes. It
finds a path if and only if both are live and the second can be reached from the first, and then
one without repetition that no other path between them is shorter than. -/
theorem shortest_path_exact [Crates] (σ σ' : HashOrder) (o : Ontology) (calls : List GraphCall)
    (start target : String) :
    let g := calls.foldl (GraphCall.run σ) (new o)
    ∃ r, shortestPath g σ' start target = some r ∧ IsShortestPath g start target r := by
  intro g
  have hg : g.Coherent := coherent_run σ o calls
  rw [shortestPath]
  split
  · rename_i hdead
    refine ⟨none, rfl, iff_of_false Bool.false_ne_true fun ⟨hstart, htarget, _⟩ => ?_, nofun⟩
    obtain h | h := Bool.or_eq_true_iff.mp hdead
    · exact not_isNone_of_live hstart h
    · exact not_isNone_of_live htarget h
  rename_i hboth
  rw [Bool.or_eq_true_iff, not_or] at hboth
  have hstart : g.isNodeLive start = true := live_of_not_isNone hboth.1
  have htarget : g.isNodeLive target = true := live_of_not_isNone hboth.2
  split
  · rename_i heq
    obtain rfl := beq_iff_eq.mp heq
    exact ⟨some [start], rfl, .of_distance hstart htarget distance_start (.singleton start) rfl⟩
  rename_i hne
  rw [beq_iff_eq] at hne
  have hwalk : ∀ x n, Walk (g.Linked none) start n x → g.isNodeLive x = true := fun x n =>
    live_of_walk (fun _ _ h => h.target_live) hstart
  have hnodes : ∀ x n, Walk (g.Linked none) start n x → x ∈ g.nodes.keys := fun x n hx =>
    mem_nodes_of_live (hwalk x n hx)
  have hnext : ∀ x n, Distance (g.Linked none) start x n → ∀ y,
      (∃ ed ∈ g.outgoingEdges σ' x, ed.targetId = y) ↔ g.Linked none x y := by
    intro x n hx y
    rw [← hg.mem_targets (σ := σ') (hwalk x n hx.walk), targets, List.mem_map]
    simp
  obtain ⟨r, hrun, hout⟩ := PathSearch.search hnext hnodes hne
  rw [hrun]
  cases r with
  | none =>
    refine ⟨none, rfl, iff_of_false Bool.false_ne_true fun ⟨_, _, hreach⟩ => ?_, nofun⟩
    obtain ⟨n, walk⟩ := exists_walk_iff.mpr hreach
    exact hout n walk
  | some parent =>
    obtain ⟨visited, hrooted, hseen, n, hn⟩ := hout
    have hlt := hn.lt_length hnodes
    rw [Std.ExtTreeMap.length_keys] at hlt
    obtain ⟨l, hback, hpath, hlen⟩ := hrooted.back hseen hn (Nat.lt_succ_of_lt hlt)
    refine ⟨some l, ?_, .of_distance hstart htarget hn hpath hlen⟩
    dsimp only
    rw [hback]
    rfl

end Engine

end SilkGraph
