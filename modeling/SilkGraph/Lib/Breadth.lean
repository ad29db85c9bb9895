import Mathlib.Data.List.Chain
import Mathlib.Data.List.Nodup
import Mathlib.Data.List.Perm.Subperm
import Mathlib.Data.Nat.Find
import Mathlib.Logic.Relation
import Mathlib.Order.Bounds.Basic

/-!
# Breadth-first search

Nodes reached from a start along a relation, by the number of steps. `Walk` counts the steps,
`Distance` is the least number, and a path with no more steps than that repeats no node
(`IsPath.nodup`). A search keeps the nodes it is done with and a queue, each with
a depth; `Inv` is its invariant, and a search is any sequence of two moves: a node that is
next to the head of the queue and not seen yet joins the end (`Inv.discover`), and a head all
of whose neighbours are seen is done (`Inv.retire`). When the queue is empty the nodes done
are the ball around the start, the nearer ones first (`Inv.ball`).
-/

namespace Breadth

universe u

variable {α : Type u} (R : α → α → Prop) (s : α)

/-- Some walk of that many steps leads from the start to the node. -/
inductive Walk : ℕ → α → Prop
  | start : Walk 0 s
  | step {n : ℕ} {x y : α} (walk : Walk n x) (link : R x y) : Walk (n + 1) y

/-- The number of steps of a shortest walk. -/
def Distance (x : α) (n : ℕ) : Prop := IsLeast {n | Walk R s n x} n

/-- The list has the nodes within the limit, each once, the nearer ones first. -/
structure Ball (limit : Option ℕ) (l : List α) : Prop where
  nodup : l.Nodup
  mem_iff : ∀ x, x ∈ l ↔ ∃ n, Distance R s x n ∧ ∀ m ∈ limit, n ≤ m
  sorted : l.Pairwise fun x y => ∀ m n, Distance R s x m → Distance R s y n → m ≤ n

variable {R s} {x y : α} {n m : ℕ}

theorem walk_zero_iff : Walk R s 0 x ↔ x = s := by
  constructor
  · rintro ⟨⟩
    rfl
  · rintro rfl
    exact .start

theorem walk_succ_iff : Walk R s (n + 1) y ↔ ∃ x, Walk R s n x ∧ R x y := by
  constructor
  · rintro (_ | ⟨walk, link⟩)
    exact ⟨_, walk, link⟩
  · rintro ⟨x, walk, link⟩
    exact walk.step link

theorem distance_start : Distance R s s 0 := ⟨.start, fun _ _ => Nat.zero_le _⟩

theorem Distance.walk (h : Distance R s x n) : Walk R s n x := h.1

theorem Distance.unique (h : Distance R s x n) (h' : Distance R s x m) : n = m :=
  IsLeast.unique h h'

/-- Whatever a walk reaches has a distance. -/
theorem Walk.exists_distance (h : Walk R s n x) : ∃ m ≤ n, Distance R s x m := by
  classical
  have hex : ∃ n, Walk R s n x := ⟨n, h⟩
  exact ⟨Nat.find hex, Nat.find_min' hex h, Nat.find_spec hex, fun _ hm => Nat.find_min' hex hm⟩

/-- A neighbour is one step further at most. -/
theorem Distance.step_le (h : Distance R s x n) (link : R x y) (h' : Distance R s y m) :
    m ≤ n + 1 := h'.2 (h.walk.step link)

/-- A node that is not the start has a neighbour one step nearer. -/
theorem Distance.exists_prev (h : Distance R s y (n + 1)) : ∃ x, Distance R s x n ∧ R x y := by
  obtain ⟨x, walk, link⟩ := walk_succ_iff.mp h.walk
  refine ⟨x, ⟨walk, fun m hm => ?_⟩, link⟩
  have := h.2 (Walk.step hm link)
  omega

theorem exists_walk_iff : (∃ n, Walk R s n x) ↔ Relation.ReflTransGen R s x := by
  constructor
  · rintro ⟨n, walk⟩
    induction walk with
    | start => exact .refl
    | step _ link ih => exact ih.tail link
  · intro h
    induction h with
    | refl => exact ⟨0, .start⟩
    | tail _ link ih =>
      obtain ⟨n, walk⟩ := ih
      exact ⟨n + 1, walk.step link⟩

/-! ### Paths -/

/-- The list leads from one node to the other, link by link. -/
structure IsPath (R : α → α → Prop) (x y : α) (l : List α) : Prop where
  starts : l.head? = some x
  ends : l.getLast? = some y
  links : l.IsChain R

namespace IsPath

variable {l : List α} {z : α}

theorem singleton (x : α) : IsPath R x x [x] := ⟨rfl, rfl, List.isChain_singleton x⟩

theorem cons (h : IsPath R x y l) (link : R z x) : IsPath R z y (z :: l) := by
  refine ⟨rfl, ?_, List.isChain_cons.mpr ⟨fun w hw => ?_, h.links⟩⟩
  · rw [List.getLast?_cons, h.ends]
    rfl
  · rw [h.starts] at hw
    exact Option.some.inj hw ▸ link

theorem concat (h : IsPath R s x l) (link : R x y) : IsPath R s y (l ++ [y]) := by
  refine ⟨?_, List.getLast?_concat, List.isChain_append.mpr ⟨h.links, List.isChain_singleton y, ?_⟩⟩
  · rw [List.head?_append, h.starts]
    rfl
  · intro a ha b hb
    rw [h.ends] at ha
    obtain rfl := Option.some.inj ha
    obtain rfl := Option.some.inj hb
    exact link

/-- A path is its start, or a path and one link. -/
theorem cases_concat (h : IsPath R s y l) :
    (l = [s] ∧ y = s) ∨ ∃ l' x, l = l' ++ [y] ∧ IsPath R s x l' ∧ R x y := by
  obtain rfl | ⟨l', z, rfl⟩ := List.eq_nil_or_concat l
  · exact absurd h.starts (by simp)
  rw [List.concat_eq_append] at h ⊢
  obtain rfl : z = y := by simpa using h.ends
  obtain ⟨hchain, -, hlink⟩ := List.isChain_append.mp h.links
  cases hlast : l'.getLast? with
  | none =>
    obtain rfl := List.getLast?_eq_none_iff.mp hlast
    obtain rfl : z = s := by simpa using h.starts
    exact .inl ⟨rfl, rfl⟩
  | some x =>
    refine .inr ⟨l', x, rfl, ⟨?_, hlast, hchain⟩, hlink x hlast z rfl⟩
    have hne : l' ≠ [] := by
      rintro rfl
      cases hlast
    rw [← h.starts, List.head?_append_of_ne_nil _ hne]

/-- A path with one node more than the steps is a walk. -/
theorem walk (h : IsPath R s y l) : ∃ n, l.length = n + 1 ∧ Walk R s n y := by
  induction hn : l.length generalizing l y with
  | zero =>
    obtain rfl := List.eq_nil_of_length_eq_zero hn
    exact absurd h.starts (by simp)
  | succ n ih =>
    obtain ⟨rfl, rfl⟩ | ⟨l', x, rfl, hl', link⟩ := h.cases_concat
    · exact ⟨0, by simpa using hn.symm, .start⟩
    · rw [List.length_append, List.length_singleton] at hn
      obtain ⟨m, hm, walk⟩ := ih hl' (by omega)
      exact ⟨m + 1, by omega, walk.step link⟩

/-- A path that is no longer than the distance repeats no node. -/
theorem nodup (h : IsPath R s y l) (hn : l.length = n + 1) (hy : Distance R s y n) :
    l.Nodup ∧ ∀ x ∈ l, ∃ m ≤ n, Distance R s x m := by
  induction n generalizing l y with
  | zero =>
    obtain ⟨z, rfl⟩ := List.length_eq_one_iff.mp hn
    obtain rfl : z = y := by simpa using h.ends
    refine ⟨List.nodup_singleton z, fun x hx => ⟨0, le_rfl, ?_⟩⟩
    rwa [List.mem_singleton.mp hx]
  | succ n ih =>
    obtain ⟨rfl, -⟩ | ⟨l', x, rfl, hl', link⟩ := h.cases_concat
    · simp at hn
    rw [List.length_append, List.length_singleton] at hn
    obtain ⟨m, hm, walk⟩ := hl'.walk
    -- the node before the last is as near as its place says, or the last were nearer
    obtain ⟨k, hk, hx⟩ := walk.exists_distance
    have hle := hx.step_le link hy
    obtain rfl : k = n := by omega
    obtain ⟨hnodup, hnear⟩ := ih hl' (by omega) hx
    refine ⟨List.nodup_append.mpr ⟨hnodup, List.nodup_singleton y, ?_⟩, fun z hz => ?_⟩
    · rintro a ha b hb rfl
      obtain rfl := List.mem_singleton.mp hb
      obtain ⟨i, hi, hdist⟩ := hnear a ha
      have := hdist.unique hy
      omega
    · obtain hz | hz := List.mem_append.mp hz
      · obtain ⟨i, hi, hdist⟩ := hnear z hz
        exact ⟨i, by omega, hdist⟩
      · obtain rfl := List.mem_singleton.mp hz
        exact ⟨k + 1, le_rfl, hy⟩

end IsPath

theorem Walk.exists_path (h : Walk R s n x) : ∃ l, IsPath R s x l ∧ l.length = n + 1 := by
  induction h with
  | start => exact ⟨[s], .singleton s, rfl⟩
  | step _ link ih =>
    obtain ⟨l, hl, hlen⟩ := ih
    exact ⟨l ++ [_], hl.concat link, by rw [List.length_append, hlen, List.length_singleton]⟩

/-- Distances are below the number of nodes there are. -/
theorem Distance.lt_length (h : Distance R s x n) {nodes : List α}
    (hnodes : ∀ x n, Walk R s n x → x ∈ nodes) : n < nodes.length := by
  obtain ⟨l, hl, hlen⟩ := h.walk.exists_path
  obtain ⟨hnodup, hnear⟩ := hl.nodup hlen h
  have hle := (List.subperm_of_subset hnodup fun y hy => by
    obtain ⟨m, -, hdist⟩ := hnear y hy
    exact hnodes y m hdist.walk).length_le
  omega

/-! ### The search -/

/-- The invariant of the search. Every node carries its distance, the distances rise along the
list and the queue spans one step at most. Nodes that are done have all their neighbours seen,
unless they are at the limit. -/
structure Inv (R : α → α → Prop) (s : α) (limit : Option ℕ) (done queue : List (α × ℕ)) : Prop where
  nodup : ((done ++ queue).map Prod.fst).Nodup
  distance : ∀ p ∈ done ++ queue, Distance R s p.1 p.2
  within : ∀ p ∈ done ++ queue, ∀ m ∈ limit, p.2 ≤ m
  sorted : (done ++ queue).Pairwise fun p q => p.2 ≤ q.2
  narrow : ∀ p ∈ queue, ∀ q ∈ queue, q.2 ≤ p.2 + 1
  start : s ∈ (done ++ queue).map Prod.fst
  closed : ∀ p ∈ done, (∀ m ∈ limit, p.2 < m) → ∀ y, R p.1 y → y ∈ (done ++ queue).map Prod.fst

namespace Inv

variable {limit : Option ℕ} {done queue : List (α × ℕ)} {d : ℕ}

theorem init : Inv R s limit [] [(s, 0)] where
  nodup := List.nodup_singleton s
  distance := by
    simp only [List.nil_append, List.mem_singleton, forall_eq]
    exact distance_start
  within := by simp
  sorted := List.pairwise_singleton _ _
  narrow := by simp
  start := List.mem_singleton.mpr rfl
  closed := nofun

/-- All nodes nearer than the head of the queue, or as near, are seen. -/
theorem mem_of_walk (h : Inv R s limit done ((x, d) :: queue)) (hy : Walk R s n y) (hn : n ≤ d) :
    y ∈ (done ++ (x, d) :: queue).map Prod.fst := by
  induction hy with
  | start => exact h.start
  | @step n z y walk link ih =>
    obtain ⟨⟨z, dz⟩, hz, rfl⟩ := List.mem_map.mp (ih (by omega))
    have hdz : dz ≤ n := (h.distance _ hz).2 walk
    obtain hz | hz := List.mem_append.mp hz
    · -- the node before it is done, and below the limit since the head is within
      refine h.closed _ hz (fun m hm => ?_) y link
      have := h.within (x, d) (by simp) m hm
      dsimp only at this ⊢
      omega
    · have hdz' : d ≤ dz := by
        have hsorted := List.pairwise_cons.mp (List.pairwise_append.mp h.sorted).2.1
        obtain heq | hz := List.mem_cons.mp hz
        · exact (congrArg Prod.snd heq).ge
        · exact hsorted.1 _ hz
      omega

/-- **Discovery.** A neighbour of the head that is not seen yet is one step further. -/
theorem discover (h : Inv R s limit done ((x, d) :: queue)) (link : R x y)
    (hd : ∀ m ∈ limit, d < m) (hy : y ∉ (done ++ (x, d) :: queue).map Prod.fst) :
    Inv R s limit done ((x, d) :: (queue ++ [(y, d + 1)])) := by
  have hcat : done ++ (x, d) :: (queue ++ [(y, d + 1)]) = done ++ (x, d) :: queue ++ [(y, d + 1)] := by
    simp
  have hx : Distance R s x d := h.distance (x, d) (by simp)
  have hdist : Distance R s y (d + 1) := by
    refine ⟨hx.walk.step link, fun n hn => ?_⟩
    by_contra hlt
    exact hy (h.mem_of_walk hn (by omega))
  have hhead : ∀ p ∈ (x, d) :: queue, p.2 ≤ d + 1 := fun p hp =>
    h.narrow (x, d) List.mem_cons_self p hp
  have hlow : ∀ p ∈ (x, d) :: queue, d ≤ p.2 := by
    have hsorted := List.pairwise_cons.mp (List.pairwise_append.mp h.sorted).2.1
    intro p hp
    obtain rfl | hp := List.mem_cons.mp hp
    · exact le_rfl
    · exact hsorted.1 p hp
  refine ⟨?_, ?_, ?_, ?_, ?_, ?_, ?_⟩
  · rw [hcat, List.map_append, List.nodup_append]
    refine ⟨h.nodup, List.nodup_singleton y, fun a ha b hb => ?_⟩
    obtain rfl := List.mem_singleton.mp hb
    rintro rfl
    exact hy ha
  · rw [hcat]
    intro p hp
    obtain hp | hp := List.mem_append.mp hp
    · exact h.distance p hp
    · obtain rfl := List.mem_singleton.mp hp
      exact hdist
  · rw [hcat]
    intro p hp m hm
    obtain hp | hp := List.mem_append.mp hp
    · exact h.within p hp m hm
    · obtain rfl := List.mem_singleton.mp hp
      exact hd m hm
  · rw [hcat, List.pairwise_append]
    refine ⟨h.sorted, List.pairwise_singleton _ _, fun p hp q hq => ?_⟩
    obtain rfl := List.mem_singleton.mp hq
    obtain hp | hp := List.mem_append.mp hp
    · have := (List.pairwise_append.mp h.sorted).2.2 p hp (x, d) List.mem_cons_self
      dsimp only at this ⊢
      omega
    · exact hhead p hp
  · intro p hp q hq
    rw [← List.cons_append, List.mem_append, List.mem_singleton] at hp hq
    obtain hp | rfl := hp <;> obtain hq | rfl := hq
    · exact h.narrow p hp q hq
    · have := hlow p hp
      dsimp only
      omega
    · have := hhead q hq
      dsimp only
      omega
    · exact Nat.le_succ _
  · rw [hcat, List.map_append]
    exact List.mem_append_left _ h.start
  · intro p hp hlimit z hz
    rw [hcat, List.map_append]
    exact List.mem_append_left _ (h.closed p hp hlimit z hz)

/-- **Retirement.** The head is done when its neighbours are seen. -/
theorem retire (h : Inv R s limit done ((x, d) :: queue))
    (hx : (∀ m ∈ limit, d < m) → ∀ y, R x y → y ∈ (done ++ (x, d) :: queue).map Prod.fst) :
    Inv R s limit (done ++ [(x, d)]) queue := by
  have hcat : done ++ [(x, d)] ++ queue = done ++ (x, d) :: queue := by simp
  refine ⟨hcat ▸ h.nodup, hcat ▸ h.distance, hcat ▸ h.within, hcat ▸ h.sorted,
    fun p hp q hq => h.narrow p (List.mem_cons_of_mem _ hp) q (List.mem_cons_of_mem _ hq),
    hcat ▸ h.start, fun p hp hlimit y hy => ?_⟩
  rw [hcat]
  obtain hp | hp := List.mem_append.mp hp
  · exact h.closed p hp hlimit y hy
  · obtain rfl := List.mem_singleton.mp hp
    exact hx hlimit y hy

/-- Nodes are not seen twice, so there are no more than can be reached. -/
theorem length_le (h : Inv R s limit done queue) {nodes : List α}
    (hnodes : ∀ x n, Walk R s n x → x ∈ nodes) : (done ++ queue).length ≤ nodes.length := by
  rw [← List.length_map Prod.fst]
  refine (List.subperm_of_subset h.nodup fun x hx => ?_).length_le
  obtain ⟨p, hp, rfl⟩ := List.mem_map.mp hx
  exact hnodes p.1 p.2 (h.distance p hp).walk

/-- **The end.** With an empty queue the nodes done are the ball. -/
theorem mem_done_iff (h : Inv R s limit done []) :
    x ∈ done.map Prod.fst ↔ ∃ n, Distance R s x n ∧ ∀ m ∈ limit, n ≤ m := by
  have hall : ∀ {n y}, Walk R s n y → (∀ m ∈ limit, n ≤ m) → y ∈ done.map Prod.fst := by
    intro n y walk
    induction walk with
    | start => exact fun _ => by simpa using h.start
    | @step n z y walk link ih =>
      intro hn
      obtain ⟨p, hp, rfl⟩ := List.mem_map.mp (ih fun m hm => (Nat.le_succ n).trans (hn m hm))
      have hle : p.2 ≤ n := (h.distance p (by simpa using hp)).2 walk
      simpa using h.closed p hp (fun m hm => lt_of_le_of_lt hle (hn m hm)) y link
  constructor
  · intro hx
    obtain ⟨p, hp, rfl⟩ := List.mem_map.mp hx
    have hp' : p ∈ done ++ [] := by simpa using hp
    exact ⟨p.2, h.distance p hp', h.within p hp'⟩
  · rintro ⟨n, hn, hlimit⟩
    exact hall hn.walk hlimit

theorem ball (h : Inv R s limit done []) : Ball R s limit (done.map Prod.fst) where
  nodup := by simpa using h.nodup
  mem_iff _ := h.mem_done_iff
  sorted := by
    rw [List.pairwise_map]
    have hsorted : done.Pairwise fun p q => p.2 ≤ q.2 := by simpa using h.sorted
    refine hsorted.imp_of_mem fun {p q} hp hq hle m n hm hn => ?_
    rw [hm.unique (h.distance p (by simpa using hp)), hn.unique (h.distance q (by simpa using hq))]
    exact hle

end Inv

end Breadth
