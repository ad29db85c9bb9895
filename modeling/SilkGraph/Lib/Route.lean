import Mathlib.Data.List.Shortlex
import SilkGraph.Lib.Dag

/-!
# The order of a topological sort with a queue

`Dag.KahnRun` lists a set of nodes parents first. Where every batch is sorted by a key, the
order of the whole listing has a description that does not mention the queue. The *route* of
a node is the keys along one of the longest chains that lead to it inside the set: its own
key after the route of the parent listed last. Nodes are listed by their routes, shorter ones
first and routes of one length lexicographically (`KahnRun.pairwise_route`).
-/

namespace Dag

variable {α κ : Type*} [LinearOrder κ]

/-- The order of routes: by length, then from the first key on. -/
abbrev RouteLT (r s : List κ) : Prop := List.Shortlex (· < ·) r s

instance : DecidableRel (RouteLT : List κ → List κ → Prop) := fun _ _ =>
  decidable_of_iff _ List.shortlex_def.symm

/-- The greatest of some routes, the empty one if there is none. -/
def lastRoute : List (List κ) → List κ
  | [] => []
  | r :: rs => if RouteLT r (lastRoute rs) then lastRoute rs else r

/-- The keys of a longest chain of links inside `S` that ends at a node, as far as the first
argument allows. -/
def route (parents : α → List α) (S : α → Bool) (key : α → κ) : ℕ → α → List κ
  | 0, _ => []
  | n + 1, x => lastRoute (((parents x).filter S).map (route parents S key n)) ++ [key x]

variable {parents : α → List α} {S : α → Bool} {key : α → κ}

theorem lastRoute_mem {rs : List (List κ)} (h : rs ≠ []) : lastRoute rs ∈ rs := by
  induction rs with
  | nil => exact absurd rfl h
  | cons r rs ih =>
    rw [lastRoute]
    split
    · rename_i hlt
      have hne : rs ≠ [] := by
        rintro rfl
        exact List.not_shortlex_nil_right hlt
      exact List.mem_cons_of_mem r (ih hne)
    · exact List.mem_cons_self

/-- A route that no other of the list exceeds is the last one. -/
theorem lastRoute_eq {rs : List (List κ)} {r : List κ} (hr : r ∈ rs)
    (hmax : ∀ s ∈ rs, s = r ∨ RouteLT s r) : lastRoute rs = r := by
  induction rs with
  | nil => cases hr
  | cons s rs ih =>
    have hrest : ∀ t ∈ rs, t = r ∨ RouteLT t r := fun t ht => hmax t (List.mem_cons_of_mem s ht)
    rw [lastRoute]
    by_cases hin : r ∈ rs
    · rw [ih hin hrest]
      rcases hmax s List.mem_cons_self with rfl | hs
      · exact ite_self _
      · exact if_pos hs
    · obtain rfl : r = s := (List.mem_cons.mp hr).resolve_right hin
      -- what the others come to is one of them, or empty, and does not exceed `r`
      rw [if_neg fun hlt => ?_]
      have hne : rs ≠ [] := by
        rintro rfl
        exact List.not_shortlex_nil_right hlt
      rcases hrest _ (lastRoute_mem hne) with heq | hlast
      · exact hin (heq ▸ lastRoute_mem hne)
      · exact Std.Asymm.asymm _ _ hlt hlast

/-- Going on after the lower of two routes leads to the lower of two routes. -/
theorem RouteLT.concat {r s : List κ} (h : RouteLT r s) (a b : κ) :
    RouteLT (r ++ [a]) (s ++ [b]) := by
  rw [RouteLT, List.shortlex_def] at h ⊢
  rw [List.length_append, List.length_append, List.length_singleton, List.length_singleton]
  rcases h with hlen | ⟨hlen, hlex⟩
  · exact .inl (by omega)
  · refine .inr ⟨by omega, ?_⟩
    induction hlex with
    | nil => simp at hlen
    | cons _ ih => exact .cons (ih (by simpa using hlen))
    | rel hab => exact .rel hab

theorem routeLT_concat_iff {r : List κ} {a b : κ} : RouteLT (r ++ [a]) (r ++ [b]) ↔ a < b := by
  induction r with
  | nil => exact List.shortlex_singleton_iff a b
  | cons c r ih => exact List.shortlex_cons_iff.trans ih

theorem RouteLT.trans {r s t : List κ} (h₁ : RouteLT r s) (h₂ : RouteLT s t) : RouteLT r t := by
  rw [RouteLT, List.shortlex_def] at h₁ h₂ ⊢
  rcases h₁ with h₁ | ⟨hlen₁, hlex₁⟩ <;> rcases h₂ with h₂ | ⟨hlen₂, hlex₂⟩
  · exact .inl (h₁.trans h₂)
  · exact .inl (hlen₂ ▸ h₁)
  · exact .inl (hlen₁ ▸ h₂)
  · exact .inr ⟨hlen₁.trans hlen₂, List.lex_trans lt_trans hlex₁ hlex₂⟩

/-- A route is lower than one that goes on after a route no lower. -/
theorem routeLT_concat {r s : List κ} (h : r = s ∨ RouteLT r s) (a : κ) :
    RouteLT r (s ++ [a]) := by
  refine .of_length_lt ?_
  rw [List.length_append, List.length_singleton]
  rcases h with rfl | h
  · omega
  · rcases List.shortlex_def.mp h with h | h <;> omega

/-! ### The recursion -/

/-- Fewer members of a list have the rank of a parent at most than that of its child. -/
private theorem countP_rank_lt {rank : α → ℕ} {l : List α} {p x : α} (hx : x ∈ l)
    (hpx : rank p < rank x) :
    l.countP (fun y => rank y ≤ rank p) < l.countP fun y => rank y ≤ rank x := by
  have hmono : ∀ l : List α,
      l.countP (fun y => rank y ≤ rank p) ≤ l.countP fun y => rank y ≤ rank x := fun l =>
    List.countP_mono_left fun y _ hy => by
      simp only [decide_eq_true_eq] at hy ⊢
      omega
  obtain ⟨pre, post, rfl⟩ := List.append_of_mem hx
  have h₁ := hmono pre
  have h₂ := hmono post
  have hxp : ¬ rank x ≤ rank p := by omega
  simp only [List.countP_append, List.countP_cons, hxp, decide_false, le_refl, decide_true,
    if_true, Bool.false_eq_true, if_false]
  omega

/-- No chain inside a finite set is longer than the number of members that rank no higher than
its end. -/
private theorem route_stable {l : List α} (hS : ∀ x, S x → x ∈ l) {rank : α → ℕ}
    (hrank : ∀ x, ∀ p ∈ parents x, rank p < rank x) {n m : ℕ} {x : α} (hx : S x)
    (hn : l.countP (fun y => rank y ≤ rank x) ≤ n) (hm : l.countP (fun y => rank y ≤ rank x) ≤ m) :
    route parents S key n x = route parents S key m x := by
  have hpos : 0 < l.countP fun y => rank y ≤ rank x :=
    List.countP_pos_iff.mpr ⟨x, hS x hx, by simp⟩
  induction n generalizing m x with
  | zero => omega
  | succ n ih =>
    obtain ⟨m, rfl⟩ : ∃ k, m = k + 1 := ⟨m - 1, by omega⟩
    have hmap : ((parents x).filter S).map (route parents S key n) =
        ((parents x).filter S).map (route parents S key m) := by
      refine List.map_congr_left fun p hp => ?_
      obtain ⟨hpx, hpS⟩ := List.mem_filter.mp hp
      have hlt := countP_rank_lt (hS x hx) (hrank x p hpx)
      exact ih hpS (by omega) (by omega) (List.countP_pos_iff.mpr ⟨p, hS p hpS, by simp⟩)
    rw [route, route, hmap]

/-- **The recursion of routes.** With room for the whole set, a route goes on after the last
route of a parent in the set. -/
theorem route_eq (hac : Acyclic parents) {l : List α} (hS : ∀ x, S x → x ∈ l) {n : ℕ}
    (hn : l.length ≤ n) {x : α} (hx : S x) : route parents S key n x =
      lastRoute (((parents x).filter S).map (route parents S key n)) ++ [key x] := by
  obtain ⟨rank, hrank⟩ := hac
  have hle : ∀ y, l.countP (fun z => rank z ≤ rank y) ≤ n := fun _ =>
    List.countP_le_length.trans hn
  calc route parents S key n x
      = route parents S key (n + 1) x :=
        route_stable hS hrank hx (hle x) ((hle x).trans (Nat.le_succ n))
    _ = lastRoute (((parents x).filter S).map (route parents S key n)) ++ [key x] := rfl

/-! ### The listing -/

/-- What a run keeps: the routes of what is listed and queued grow, and a queued node was
queued at the start or released by a listed one. -/
private structure RouteInv (r : α → List κ) (key : α → κ) (done queue : List α) : Prop where
  sorted : (done ++ queue).Pairwise fun a b => RouteLT (r a) (r b)
  queued : ∀ y ∈ queue, r y = [key y] ∨ ∃ x ∈ done, r y = r x ++ [key y]

/-- One pop keeps it, if the batch is sorted by key and goes on after the route of the node
that releases it. -/
private theorem RouteInv.step {r : α → List κ} {done queue ready : List α} {x : α}
    (h : RouteInv r key done (x :: queue)) (hx : r x ≠ [])
    (hready : ∀ y ∈ ready, r y = r x ++ [key y])
    (hkey : ready.Pairwise fun a b => key a < key b) :
    RouteInv r key (done ++ [x]) (queue ++ ready) := by
  have hcat : done ++ [x] ++ (queue ++ ready) = (done ++ x :: queue) ++ ready := by simp
  have hbefore : ∀ a ∈ done, RouteLT (r a) (r x) := fun a ha =>
    (List.pairwise_append.mp h.sorted).2.2 a ha x List.mem_cons_self
  refine ⟨?_, fun y hy => ?_⟩
  · rw [hcat, List.pairwise_append]
    refine ⟨h.sorted, hkey.imp_of_mem fun {a b} ha hb hab => ?_, fun a ha b hb => ?_⟩
    · rw [hready a ha, hready b hb]
      exact routeLT_concat_iff.mpr hab
    · rw [hready b hb]
      rcases List.mem_append.mp ha with hdone | hqueue
      · exact routeLT_concat (.inr (hbefore a hdone)) _
      · rcases List.mem_cons.mp hqueue with rfl | hrest
        · exact routeLT_concat (.inl rfl) _
        -- what is still queued was released by a node listed before `x`, or by none
        · rcases h.queued a (List.mem_cons_of_mem x hrest) with hroot | ⟨z, hz, hza⟩
          · rw [hroot]
            refine .of_length_lt ?_
            have := List.length_pos_iff.mpr hx
            rw [List.length_append, List.length_singleton, List.length_singleton]
            omega
          · rw [hza]
            exact (hbefore z hz).concat _ _
  · rcases List.mem_append.mp hy with hy | hy
    · refine (h.queued y (List.mem_cons_of_mem x hy)).imp_right ?_
      rintro ⟨z, hz, hzy⟩
      exact ⟨z, List.mem_append_left _ hz, hzy⟩
    · exact .inr ⟨x, List.mem_append_right done List.mem_cons_self, hready y hy⟩

private theorem KahnRun.pairwise_of_routeInv {batch : List α → α → List α}
    {done queue result : List α} {r : α → List κ}
    (hr : ∀ x, S x → r x = lastRoute (((parents x).filter S).map r) ++ [key x])
    (hbatch : ∀ done x, ∀ y ∈ batch done x,
      x ∈ parents y ∧ Ready parents (fun p => S p) (done ++ [x]) y)
    (hkey : ∀ done x, (batch done x).Pairwise fun a b => key a < key b)
    (hrun : KahnRun batch done queue result) (hqueue : ∀ y ∈ queue, S y)
    (hinv : RouteInv r key done queue) : result.Pairwise fun a b => RouteLT (r a) (r b) := by
  induction hrun with
  | finish done => simpa using hinv.sorted
  | @pop done queue result x rest ih =>
    have hxS := hqueue x List.mem_cons_self
    refine ih (fun y hy => ?_) (hinv.step ?_ (fun y hy => ?_) (hkey done x))
    · rcases List.mem_append.mp hy with hy | hy
      · exact hqueue y (List.mem_cons_of_mem x hy)
      · exact (hbatch done x y hy).2.1
    · rw [hr x hxS]
      exact List.append_ne_nil_of_right_ne_nil _ (List.cons_ne_nil _ _)
    · -- the parents of `y` in the set are listed up to `x`, so its route goes on after that of `x`
      obtain ⟨hxy, hyS, hdone⟩ := hbatch done x y hy
      have hmem : r x ∈ ((parents y).filter S).map r :=
        List.mem_map_of_mem (List.mem_filter.mpr ⟨hxy, hxS⟩)
      rw [hr y hyS, lastRoute_eq hmem fun s hs => ?_]
      obtain ⟨p, hp, rfl⟩ := List.mem_map.mp hs
      obtain ⟨hpy, hpS⟩ := List.mem_filter.mp hp
      rcases List.mem_append.mp (hdone p hpy hpS) with hpd | hpx
      · exact .inr ((List.pairwise_append.mp hinv.sorted).2.2 p hpd x List.mem_cons_self)
      · exact .inl (congrArg r (List.mem_singleton.mp hpx))

/-- **The order of the listing.** Where the nodes to start from and the batches are sorted by
key, and a batch holds nodes of the set whose parents in the set are all done, the last of
them the one just listed, a run lists by routes. -/
theorem KahnRun.pairwise_route {batch : List α → α → List α} {start result : List α}
    {r : α → List κ} (hr : ∀ x, S x → r x = lastRoute (((parents x).filter S).map r) ++ [key x])
    (hbatch : ∀ done x, ∀ y ∈ batch done x,
      x ∈ parents y ∧ Ready parents (fun p => S p) (done ++ [x]) y)
    (hkey : ∀ done x, (batch done x).Pairwise fun a b => key a < key b)
    (hstart : ∀ y ∈ start, Ready parents (fun p => S p) [] y)
    (hskey : start.Pairwise fun a b => key a < key b) (hrun : KahnRun batch [] start result) :
    result.Pairwise fun a b => RouteLT (r a) (r b) := by
  -- a node to start from has no parent in the set, so its route is its own key
  have hroot : ∀ y ∈ start, r y = [key y] := by
    intro y hy
    have hnone : (parents y).filter S = [] := List.filter_eq_nil_iff.mpr fun p hp hpS =>
      List.not_mem_nil ((hstart y hy).2 p hp hpS)
    rw [hr y (hstart y hy).1, hnone]
    rfl
  have hinit : RouteInv r key [] start := by
    refine ⟨?_, fun y hy => .inl (hroot y hy)⟩
    rw [List.nil_append]
    refine hskey.imp_of_mem fun {a b} ha hb hab => ?_
    rw [hroot a ha, hroot b hb]
    exact (List.shortlex_singleton_iff _ _).mpr hab
  exact pairwise_of_routeInv hr hbatch hkey hrun (fun y hy => (hstart y hy).1) hinit

/-- `y` descends from `x` through nodes outside a set only, at least one of them. -/
def Skips (parents : α → List α) (T : α → Prop) (x y : α) : Prop :=
  ∃ u, Relation.TransGen (fun a b => a ∈ parents b ∧ ¬ T b) x u ∧ u ∈ parents y

theorem Skips.ancestor {T : α → Prop} {x y : α} (h : Skips parents T x y) :
    Ancestor parents x y := by
  obtain ⟨u, hxu, huy⟩ := h
  exact (Relation.TransGen.mono (fun _ _ hab => hab.1) _ _ hxu).tail huy

/-- **Ancestry inside a set** is made of links between members and of descents outside. -/
theorem Ancestor.of_skips {T : α → Prop} {R : α → α → Prop}
    (htrans : ∀ a b c, R a b → R b c → R a c)
    (hlink : ∀ a b, T a → T b → a ∈ parents b → R a b)
    (hskip : ∀ a b, T a → T b → Skips parents T a b → R a b) {x y : α} (hx : T x) (hy : T y)
    (h : Ancestor parents x y) : R x y := by
  -- below a node outside the set, the chain has last left the set at some member `z`
  have hstrong : ∀ y, Ancestor parents x y → (T y → R x y) ∧ (¬ T y → ∃ z, T z ∧
      (z = x ∨ R x z) ∧ Relation.TransGen (fun a b => a ∈ parents b ∧ ¬ T b) z y) := by
    intro y h
    induction h with
    | single hxy => exact ⟨fun hy => hlink _ _ hx hy hxy, fun hy => ⟨x, hx, .inl rfl, .single ⟨hxy, hy⟩⟩⟩
    | @tail b c _ hbc ih =>
      by_cases hb : T b
      · have hxb := ih.1 hb
        exact ⟨fun hc => htrans _ _ _ hxb (hlink _ _ hb hc hbc),
          fun hc => ⟨b, hb, .inr hxb, .single ⟨hbc, hc⟩⟩⟩
      · obtain ⟨z, hz, hxz, hzb⟩ := ih.2 hb
        refine ⟨fun hc => ?_, fun hc => ⟨z, hz, hxz, hzb.tail ⟨hbc, hc⟩⟩⟩
        have hzc := hskip _ _ hz hc ⟨b, hzb, hbc⟩
        rcases hxz with rfl | hxz
        · exact hzc
        · exact htrans _ _ _ hxz hzc
  exact (hstrong y h).1 hy

/-- In a list sorted by an asymmetric relation, that relation is the order of its members. -/
theorem pair_sublist_iff {R : α → α → Prop} (hasymm : ∀ a b, R a b → ¬ R b a) {l : List α}
    (hl : l.Pairwise R) {x y : α} (hx : x ∈ l) (hy : y ∈ l) : [x, y].Sublist l ↔ R x y := by
  refine ⟨fun h => List.pairwise_iff_forall_sublist.mp hl h, fun hxy => ?_⟩
  obtain ⟨pre, post, rfl⟩ := List.append_of_mem hy
  rcases List.mem_append.mp hx with hpre | hpost
  · exact (List.singleton_sublist.mpr hpre).append (List.singleton_sublist.mpr List.mem_cons_self)
  · rcases List.mem_cons.mp hpost with rfl | hpost
    · exact absurd hxy (hasymm x x hxy)
    · have hsorted := List.pairwise_cons.mp (List.pairwise_append.mp hl).2.1
      exact absurd (hsorted.1 x hpost) (hasymm x y hxy)

end Dag
