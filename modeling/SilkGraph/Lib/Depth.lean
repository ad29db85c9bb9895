import SilkGraph.Lib.Breadth

/-!
# Depth-first search with marks on discovery

A search with a stack that marks a node when it is discovered and not when it is visited. The
depth of a node is then the number of steps of some walk that is *chordless*: no node on it can be
reached in one step from a node before its predecessor, or it would have been discovered there.
That walk need not be a shortest one. With a limit on the depth the search visits nodes within the
limit only, and all those it can come to past nodes where no chordless walk is as long as the
limit (`Inv.mem_done_of_sure`).
-/

namespace Depth

open Breadth

universe u

variable {α : Type u} (R : α → α → Prop) (s : α)

/-- A walk of so many steps over the nodes before the last, each node discovered from its
predecessor: no earlier node has a link to it. -/
inductive Chordless : ℕ → List α → α → Prop
  | start : Chordless 0 [] s
  | step {n : ℕ} {before : List α} {x y : α} (walk : Chordless n before x) (link : R x y)
      (ne : y ≠ s) (fresh : ∀ v ∈ before, ¬ R v y) : Chordless (n + 1) (before ++ [x]) y

/-- A chordless walk to the node is as long as the limit. -/
def AtLimit (limit : Option ℕ) (x : α) : Prop := ∃ m ∈ limit, ∃ before, Chordless R s m before x

/-- The node can be reached past nodes that no chordless walk reaches at the limit. -/
def Sure (limit : Option ℕ) : α → Prop :=
  Relation.ReflTransGen (fun x y => R x y ∧ ¬ AtLimit R s limit x) s

variable {R s} {limit : Option ℕ} {x y : α} {n : ℕ}

theorem Chordless.walk {before : List α} (h : Chordless R s n before x) : Walk R s n x := by
  induction h with
  | start => exact .start
  | step _ link _ _ ih => exact ih.step link

/-! ### Where nothing is cut off -/

/-- A node within the limit is sure as long as no node nearer than the limit is at it. -/
theorem sure_of_distance (hx : Distance R s x n) (hn : ∀ m ∈ limit, n ≤ m)
    (hcut : ∀ w k, Distance R s w k → (∀ m ∈ limit, k < m) → ¬ AtLimit R s limit w) :
    Sure R s limit x := by
  induction n generalizing x with
  | zero =>
    obtain rfl := walk_zero_iff.mp hx.walk
    exact .refl
  | succ n ih =>
    obtain ⟨w, hw, link⟩ := hx.exists_prev
    have hlt : ∀ m ∈ limit, n < m := fun m hm => hn m hm
    exact (ih hw fun m hm => (hlt m hm).le).tail ⟨link, hcut w n hw hlt⟩

/-- Up to a limit of two steps no node nearer than the limit is at it. -/
theorem not_atLimit_of_le_two (hlimit : ∀ m ∈ limit, m ≤ 2) {w : α} {k : ℕ}
    (hw : Distance R s w k) (hk : ∀ m ∈ limit, k < m) : ¬ AtLimit R s limit w := by
  rintro ⟨m, hm, before, hwalk⟩
  have hle := hlimit m hm
  have hlt := hk m hm
  cases hwalk with
  | start => exact absurd hlt (Nat.not_lt_zero k)
  | @step n before v _ walk _ ne fresh =>
    cases walk with
    | start =>
      -- one step, so the node is the start
      obtain rfl : k = 0 := by omega
      exact ne (walk_zero_iff.mp hw.walk)
    | @step n before u _ walk _ _ _ =>
      obtain rfl : n = 0 := by omega
      cases walk with
      | start =>
        obtain rfl | rfl : k = 0 ∨ k = 1 := by omega
        · exact ne (walk_zero_iff.mp hw.walk)
        · obtain ⟨x, hx, link⟩ := walk_succ_iff.mp hw.walk
          obtain rfl := walk_zero_iff.mp hx
          exact fresh x (by simp) link

/-! ### The search -/

/-- The invariant of the search. A node and its depth come with a chordless walk over nodes all of
whose neighbours are seen, and nodes that are done have all their neighbours seen, unless they are
at the limit. -/
structure Inv (R : α → α → Prop) (s : α) (limit : Option ℕ) (done stack : List (α × ℕ)) : Prop where
  nodup : ((done ++ stack).map Prod.fst).Nodup
  chordless : ∀ p ∈ done ++ stack, ∃ before, Chordless R s p.2 before p.1 ∧
    ∀ v ∈ before, ∀ y, R v y → y ∈ (done ++ stack).map Prod.fst
  within : ∀ p ∈ done ++ stack, ∀ m ∈ limit, p.2 ≤ m
  start : s ∈ (done ++ stack).map Prod.fst
  closed : ∀ p ∈ done, (∀ m ∈ limit, p.2 < m) → ∀ y, R p.1 y → y ∈ (done ++ stack).map Prod.fst

namespace Inv

variable {done stack : List (α × ℕ)} {d : ℕ}

theorem init : Inv R s limit [] [(s, 0)] where
  nodup := List.nodup_singleton s
  chordless := by
    simp only [List.nil_append, List.mem_singleton, forall_eq]
    exact ⟨[], .start, nofun⟩
  within := by simp
  start := List.mem_singleton.mpr rfl
  closed := nofun

/-- **Turn.** The node on top is done, and its new neighbours go on the stack. At the limit there
are none. -/
theorem pop (h : Inv R s limit done ((x, d) :: stack)) {new : List α} (hnodup : new.Nodup)
    (hnew : ∀ y ∈ new, (∀ m ∈ limit, d < m) ∧ R x y ∧ y ∉ (done ++ (x, d) :: stack).map Prod.fst)
    (hall : (∀ m ∈ limit, d < m) → ∀ y, R x y →
      y ∈ (done ++ (x, d) :: stack).map Prod.fst ∨ y ∈ new) :
    Inv R s limit (done ++ [(x, d)]) (new.map (fun y => (y, d + 1)) ++ stack) := by
  have hperm : (done ++ [(x, d)] ++ (new.map (fun y => (y, d + 1)) ++ stack)).Perm
      (done ++ (x, d) :: stack ++ new.map fun y => (y, d + 1)) := by
    have hcomm : (new.map (fun y => (y, d + 1)) ++ stack).Perm
        (stack ++ new.map fun y => (y, d + 1)) := List.perm_append_comm
    rw [List.append_assoc, List.append_assoc]
    exact (hcomm.cons (x, d)).append_left done
  have hmap : (done ++ (x, d) :: stack ++ new.map fun y => (y, d + 1)).map Prod.fst =
      (done ++ (x, d) :: stack).map Prod.fst ++ new := by
    rw [List.map_append, List.map_map]
    exact congrArg _ (List.map_id new)
  have hseen : ∀ z, z ∈ (done ++ [(x, d)] ++ (new.map (fun y => (y, d + 1)) ++ stack)).map Prod.fst ↔
      z ∈ (done ++ (x, d) :: stack).map Prod.fst ∨ z ∈ new := fun z => by
    rw [(hperm.map Prod.fst).mem_iff, hmap, List.mem_append]
  have hmem : ∀ p, p ∈ done ++ [(x, d)] ++ (new.map (fun y => (y, d + 1)) ++ stack) ↔
      p ∈ done ++ (x, d) :: stack ∨ ∃ y ∈ new, (y, d + 1) = p := fun p => by
    rw [hperm.mem_iff, List.mem_append, List.mem_map]
  refine ⟨?_, ?_, ?_, ?_, ?_⟩
  · rw [(hperm.map Prod.fst).nodup_iff, hmap, List.nodup_append]
    refine ⟨h.nodup, hnodup, fun a ha b hb hab => (hnew b hb).2.2 (hab ▸ ha)⟩
  · intro p hp
    obtain hp | ⟨y, hy, rfl⟩ := (hmem p).mp hp
    · obtain ⟨before, hwalk, hbefore⟩ := h.chordless p hp
      exact ⟨before, hwalk, fun v hv z hz => (hseen z).mpr (.inl (hbefore v hv z hz))⟩
    · obtain ⟨hd, link, hfresh⟩ := hnew y hy
      obtain ⟨before, hwalk, hbefore⟩ := h.chordless (x, d) (by simp)
      refine ⟨before ++ [x], hwalk.step link ?_ fun v hv hvy => hfresh (hbefore v hv y hvy), ?_⟩
      · rintro rfl
        exact hfresh h.start
      · intro v hv z hz
        rw [hseen]
        obtain hv | hv := List.mem_append.mp hv
        · exact .inl (hbefore v hv z hz)
        · obtain rfl := List.mem_singleton.mp hv
          exact hall hd z hz
  · intro p hp m hm
    obtain hp | ⟨y, hy, rfl⟩ := (hmem p).mp hp
    · exact h.within p hp m hm
    · exact (hnew y hy).1 m hm
  · exact (hseen s).mpr (.inl h.start)
  · intro p hp hlimit y hy
    rw [hseen]
    obtain hp | hp := List.mem_append.mp hp
    · exact .inl (h.closed p hp hlimit y hy)
    · obtain rfl := List.mem_singleton.mp hp
      exact hall hlimit y hy

/-- Nodes are not seen twice, so there are no more than can be reached. -/
theorem length_le (h : Inv R s limit done stack) {nodes : List α}
    (hnodes : ∀ x n, Walk R s n x → x ∈ nodes) : (done ++ stack).length ≤ nodes.length := by
  rw [← List.length_map Prod.fst]
  refine (List.subperm_of_subset h.nodup fun x hx => ?_).length_le
  obtain ⟨p, hp, rfl⟩ := List.mem_map.mp hx
  obtain ⟨before, hwalk, -⟩ := h.chordless p hp
  exact hnodes p.1 p.2 hwalk.walk

/-- Every node that is done is within the limit. -/
theorem exists_distance (h : Inv R s limit done []) (hx : x ∈ done.map Prod.fst) :
    ∃ n, Distance R s x n ∧ ∀ m ∈ limit, n ≤ m := by
  obtain ⟨p, hp, rfl⟩ := List.mem_map.mp hx
  rw [← List.append_nil done] at hp
  obtain ⟨before, hwalk, -⟩ := h.chordless p hp
  obtain ⟨n, hn, hdist⟩ := hwalk.walk.exists_distance
  exact ⟨n, hdist, fun m hm => hn.trans (h.within p hp m hm)⟩

/-- **The end.** With an empty stack every node that is sure is done. -/
theorem mem_done_of_sure (h : Inv R s limit done []) (hx : Sure R s limit x) :
    x ∈ done.map Prod.fst := by
  induction hx with
  | refl => simpa using h.start
  | @tail w y _ hlink ih =>
    obtain ⟨link, hcut⟩ := hlink
    obtain ⟨p, hp, rfl⟩ := List.mem_map.mp ih
    have hp' : p ∈ done ++ [] := by simpa using hp
    obtain ⟨before, hwalk, -⟩ := h.chordless p hp'
    -- its depth is not the limit, so its neighbours were discovered
    have hlt : ∀ m ∈ limit, p.2 < m := fun m hm =>
      lt_of_le_of_ne (h.within p hp' m hm) fun heq => hcut ⟨m, hm, before, heq ▸ hwalk⟩
    simpa using h.closed p hp hlt y link

end Inv

end Depth
