import SilkGraph.Engine.Traversal
import SilkGraph.Lib.Depth

/-!
# Depth-first traversal

`dfs` is a depth-first search that marks nodes on discovery, so the depth at which it stops need
not be the distance from the start. It visits nodes within the limit only (`traverse_push`), and
the same ones as `bfs` wherever each of them can be reached past nodes that it does not come to at
the limit (`dfs_same_as_bfs`). Without a limit, or with one of two steps, that is everywhere.
-/

namespace SilkGraph

open MaterializedGraph

namespace Engine

open Breadth Depth

namespace Traversal

variable {R : String → String → Prop} {s x : String} {limit : Option ℕ} {done : List (String × ℕ)}
  {d : ℕ} {t : Traversal} {neighbours : String → List String}

/-- What a turn pushes: the neighbours that are not seen yet, each once. -/
theorem foldl_push (depth : ℕ) (ys : List String) (t : Traversal) :
    let t' := ys.foldl (fun t id => t.push depth id) t
    ∃ new : List String, t'.queue = new.map (fun y => (y, depth)) ++ t.queue ∧
      t'.result = t.result ∧ new.Nodup ∧ (∀ y ∈ new, y ∈ ys ∧ y ∉ t.visited) ∧
      (∀ z, z ∈ t'.visited ↔ z ∈ t.visited ∨ z ∈ new) ∧ ∀ y ∈ ys, y ∈ t'.visited := by
  induction ys generalizing t with
  | nil => exact ⟨[], rfl, rfl, List.nodup_nil, nofun, by simp, nofun⟩
  | cons a ys ih =>
    obtain ⟨new, hqueue, hresult, hnodup, hnew, hvisited, hys⟩ := ih (t.push depth a)
    by_cases ha : a ∈ t.visited
    · have hpush : t.push depth a = t := if_pos (Std.ExtTreeSet.contains_iff_mem.mpr ha)
      rw [hpush] at hqueue hresult hnew hvisited hys
      rw [List.foldl_cons, hpush]
      refine ⟨new, hqueue, hresult, hnodup, fun y hy => ?_, hvisited, List.forall_mem_cons.mpr ⟨?_, hys⟩⟩
      · exact ⟨List.mem_cons_of_mem a (hnew y hy).1, (hnew y hy).2⟩
      · exact (hvisited a).mpr (.inl ha)
    · have hpush : t.push depth a =
          { t with visited := t.visited.insert a, queue := (a, depth) :: t.queue } :=
        if_neg fun h => ha (Std.ExtTreeSet.contains_iff_mem.mp h)
      rw [hpush] at hqueue hresult hnew hvisited hys
      rw [List.foldl_cons, hpush]
      simp only [HashSet.mem_insert, not_or] at hnew hvisited
      refine ⟨new ++ [a], ?_, hresult, ?_, fun y hy => ?_, fun z => ?_,
        List.forall_mem_cons.mpr ⟨(hvisited a).mpr (.inl (.inl rfl)), hys⟩⟩
      · rw [hqueue, List.map_append, List.append_assoc]
        rfl
      · refine List.nodup_append.mpr ⟨hnodup, List.nodup_singleton a, fun b hb c hc => ?_⟩
        obtain rfl := List.mem_singleton.mp hc
        exact fun heq => (hnew b hb).2.1 heq.symm
      · obtain hy | hy := List.mem_append.mp hy
        · exact ⟨List.mem_cons_of_mem a (hnew y hy).1, (hnew y hy).2.2⟩
        · obtain rfl := List.mem_singleton.mp hy
          exact ⟨List.mem_cons_self, ha⟩
      · rw [hvisited, List.mem_append, List.mem_singleton]
        grind

/-- Between two turns: what was visited is done. -/
structure Deepens (R : String → String → Prop) (s : String) (limit : Option ℕ)
    (done : List (String × ℕ)) (t : Traversal) : Prop where
  inv : Depth.Inv R s limit done t.queue
  seen : ∀ z, z ∈ t.visited ↔ z ∈ (done ++ t.queue).map Prod.fst
  result : t.result = done.map Prod.fst

/-- **Turn.** One more node is done. -/
theorem Deepens.turn (h : Deepens R s limit done t)
    (hnext : ∀ x n, Walk R s n x → ∀ y, y ∈ neighbours x ↔ R x y) {t' : Traversal}
    (ht : t.turn push neighbours limit = .inl t') :
    ∃ x d, Deepens R s limit (done ++ [(x, d)]) t' := by
  obtain ⟨x, d, queue, hqueue, hcases⟩ := turn_go ht
  have hinv : Depth.Inv R s limit done ((x, d) :: queue) := hqueue ▸ h.inv
  have hseen : ∀ z, z ∈ t.visited ↔ z ∈ (done ++ (x, d) :: queue).map Prod.fst := fun z => by
    rw [h.seen, hqueue]
  refine ⟨x, d, ?_⟩
  obtain ⟨hlimit, rfl⟩ | ⟨hd, rfl⟩ := hcases
  · refine ⟨hinv.pop List.nodup_nil nofun fun hd => absurd hd hlimit, fun z => ?_, ?_⟩
    · rw [hseen, List.append_assoc, List.singleton_append]
    · rw [h.result, List.map_append, List.map_singleton]
  · obtain ⟨new, hqueue', hresult, hnodup, hnew, hvisited, hall⟩ :=
      foldl_push (d + 1) (neighbours x) { t with queue, result := t.result ++ [x] }
    obtain ⟨before, hwalk, -⟩ := hinv.chordless (x, d) (by simp)
    have hlink := hnext x d hwalk.walk
    have hpop := hinv.pop hnodup
      (fun y hy => ⟨hd, (hlink y).mp (hnew y hy).1, fun hmem => (hnew y hy).2 ((hseen y).mpr hmem)⟩)
      fun _ y link => ((hvisited y).mp (hall y ((hlink y).mpr link))).imp_left (hseen y).mp
    refine ⟨hqueue' ▸ hpop, fun z => ?_, ?_⟩
    · rw [hvisited, hseen, hqueue']
      simp only [List.map_append, List.map_cons, List.map_nil, List.map_map, List.mem_append,
        List.mem_cons, List.not_mem_nil, or_false, List.map_id_fun', Function.comp_def, id]
      grind
    · rw [hresult, h.result, List.map_append, List.map_singleton]

end Traversal

variable {R : String → String → Prop} {g : MaterializedGraph} {start : String}

/-- What a traversal with a stack returns: nodes within the limit, each once, and among them all
that are sure. -/
structure Deep (R : String → String → Prop) (start : String) (maxDepth : Option ℕ)
    (l : List String) : Prop where
  nodup : l.Nodup
  within : ∀ x ∈ l, ∃ n, Distance R start x n ∧ ∀ m ∈ maxDepth, n ≤ m
  sure : ∀ x, Sure R start maxDepth x → x ∈ l

/-- **Run.** A traversal with a stack, for neighbours that are nodes of the graph. -/
theorem traverse_push {neighbours : String → List String} (maxDepth : Option ℕ)
    (hlive : g.isNodeLive start = true)
    (hnext : ∀ x n, Walk R start n x → ∀ y, y ∈ neighbours x ↔ R x y)
    (hnodes : ∀ x n, Walk R start n x → x ∈ g.nodes.keys) :
    ∃ l, traverse Traversal.push neighbours g start maxDepth = some l ∧
      Deep R start maxDepth l := by
  rw [traverse, if_neg (not_isNone_of_live hlive)]
  refine Loop.exists_run_of_le (I := fun k t => ∃ done, t.Deepens R start maxDepth done ∧
    done.length = k) ?_ ?_ ?_ ?_
  · exact ⟨[], ⟨Depth.Inv.init, mem_start, rfl⟩, rfl⟩
  · rintro _ t t' ⟨done, h, rfl⟩ ht
    obtain ⟨x, d, h'⟩ := h.turn hnext ht
    exact ⟨done ++ [(x, d)], h', List.length_append⟩
  · rintro _ t l ⟨done, h, -⟩ ht
    obtain ⟨hqueue, rfl⟩ := Traversal.turn_leave ht
    have hinv := hqueue ▸ h.inv
    rw [h.result]
    exact ⟨by simpa using hinv.nodup, fun x => hinv.exists_distance, fun x => hinv.mem_done_of_sure⟩
  · rintro _ t ⟨done, h, rfl⟩
    exact done_le_size (h.inv.length_le hnodes)

/-- Every node within the limit can be reached past nodes that no chordless walk reaches at the
limit. -/
def Unhindered (R : String → String → Prop) (start : String) (maxDepth : Option ℕ) : Prop :=
  ∀ x n, Distance R start x n → (∀ m ∈ maxDepth, n ≤ m) → Sure R start maxDepth x

/-- Nothing stands in the way without a limit, or within two steps. -/
theorem unhindered_of_le_two {maxDepth : Option ℕ} (h : ∀ m ∈ maxDepth, m ≤ 2) :
    Unhindered R start maxDepth :=
  fun _ _ hx hn => sure_of_distance hx hn fun _ _ => not_atLimit_of_le_two h

/-- Both traversals return, without repetitions, and the same nodes. -/
def SameNodes (r r' : Option (List String)) : Prop :=
  ∃ l l', r = some l ∧ r' = some l' ∧ l.Nodup ∧ l'.Nodup ∧ ∀ x, x ∈ l ↔ x ∈ l'

/-- **Depth-first and breadth-first traversals** from a live node visit the same nodes, each once
and whatever the order of the edges, where nothing stands in the way. -/
theorem dfs_same_as_bfs [Crates] (σ : HashOrder) (o : Ontology) (calls : List GraphCall)
    (start : String) (maxDepth : Option ℕ) (filter : Option String) :
    let g := calls.foldl (GraphCall.run σ) (new o)
    g.isNodeLive start = true → Unhindered (g.Linked filter) start maxDepth →
      ∀ σ₁ σ₂, SameNodes (dfs g σ₁ start maxDepth filter) (bfs g σ₂ start maxDepth filter) := by
  intro g hlive hopen σ₁ σ₂
  have hg : g.Coherent := coherent_run σ o calls
  have hwalk : ∀ x n, Walk (g.Linked filter) start n x → g.isNodeLive x = true := fun x n =>
    live_of_walk (fun _ _ h => h.target_live) hlive
  obtain ⟨l, hl, hdeep⟩ := traverse_push maxDepth hlive
    (fun x n hx y => hg.mem_targets (σ := σ₁) (hwalk x n hx))
    fun x n hx => mem_nodes_of_live (hwalk x n hx)
  obtain ⟨l', hl', hball⟩ := bfs_ball hg σ₂ hlive maxDepth filter
  refine ⟨l, l', hl, hl', hdeep.nodup, hball.nodup, fun x => ?_⟩
  rw [hball.mem_iff]
  constructor
  · exact hdeep.within x
  · rintro ⟨n, hn, hlimit⟩
    exact hdeep.sure x (hopen x n hn hlimit)

open Sample in
theorem dfs_same_as_bfs_meeting :
    let g := meeting.foldl (GraphCall.run .keyOrder) (new guests)
    SameNodes (dfs g .keyOrder "ann" (some 1) none) (bfs g .keyOrder "ann" (some 1) none) :=
  dfs_same_as_bfs .keyOrder guests meeting "ann" (some 1) none (by decide +kernel)
    (unhindered_of_le_two (by simp)) .keyOrder .keyOrder

end Engine

/-! ### A node behind a detour -/

namespace Sample

/-- A person. -/
def guest (id : String) : GraphCall :=
  .apply (.new (.addNode id "person" none id ∅) [] [] ⟨"a", 1, 0⟩ "a")

/-- One person knows another. -/
def knows (id x y : String) : GraphCall :=
  .apply (.new (.addEdge id "knows" x y ∅) [] [] ⟨"a", 2, 0⟩ "a")

/-- Eve is known to Dan, who is two steps from Ann by way of Una and three by way of Bob and
Cid. -/
def detour : List GraphCall :=
  ["ann", "bob", "cid", "dan", "eve", "una"].map guest ++
    [knows "1" "ann" "una", knows "2" "ann" "bob", knows "3" "bob" "cid", knows "4" "cid" "dan",
      knows "5" "una" "dan", knows "6" "dan" "eve"]

end Sample

namespace Engine

open Sample in
/-- **Within three steps the detour comes first, and Eve is missed.** -/
theorem detour_misses : ¬ ∀ (σ : HashOrder) (o : Ontology) (calls : List GraphCall) (start : String)
    (maxDepth : Option ℕ) (filter : Option String),
    let g := calls.foldl (GraphCall.run σ) (new o)
    g.isNodeLive start = true →
      ∀ σ₁ σ₂, SameNodes (dfs g σ₁ start maxDepth filter) (bfs g σ₂ start maxDepth filter) := by
  intro h
  obtain ⟨l, l', hl, hl', -, -, hsame⟩ := h .keyOrder guests detour "ann" (some 3) none
    (by decide +kernel) .keyOrder .keyOrder
  have hdfs : dfs (detour.foldl (GraphCall.run .keyOrder) (new guests)) .keyOrder "ann" (some 3)
      none = some ["ann", "bob", "cid", "dan", "una"] := by
    decide +kernel
  have hbfs : bfs (detour.foldl (GraphCall.run .keyOrder) (new guests)) .keyOrder "ann" (some 3)
      none = some ["ann", "una", "bob", "dan", "cid", "eve"] := by
    decide +kernel
  obtain rfl := Option.some.inj (hl.symm.trans hdfs)
  obtain rfl := Option.some.inj (hl'.symm.trans hbfs)
  exact absurd ((hsame "eve").mpr (by decide)) (by decide)

end Engine

end SilkGraph
