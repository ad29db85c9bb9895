import Mathlib.Data.Finset.Card
import Mathlib.Data.List.Induction
import Mathlib.Data.List.MinMax
import Mathlib.Data.List.Nodup
import Mathlib.Logic.Relation

/-!
# Finite directed acyclic graphs given by parent lists

A graph is a function `parents : α → List α`; a set of nodes `S` is a predicate. The module
develops what a causal log needs of it:

* `Ancestor`, `ParentClosed`, and `Acyclic` (a rank that grows along every edge);
* `ParentsFirst`, the lists in which a node comes after its parents;
* `KahnInv`, the invariant of every variant of Kahn's algorithm. A variant keeps the nodes
  already listed and a queue, and each pop appends the popped node and enqueues exactly the
  nodes that this makes ready (`KahnInv.step`). When the queue is empty and the graph is
  acyclic everything has been listed (`KahnInv.complete`).
-/

namespace Dag

variable {α : Type*} (parents : α → List α)

/-- `p` is a proper ancestor of `x`: a chain of parent links leads from `x` down to `p`. -/
def Ancestor (p x : α) : Prop := Relation.TransGen (fun a b => a ∈ parents b) p x

/-- A set that contains the parents of its members. -/
def ParentClosed (S : α → Prop) : Prop := ∀ x, S x → ∀ p ∈ parents x, S p

/-- A graph whose parent links go down along some rank. -/
def Acyclic : Prop := ∃ rank : α → ℕ, ∀ x, ∀ p ∈ parents x, rank p < rank x

/-- A list in which every node of `S` that is a parent of a listed node stands before it. -/
def ParentsFirst (S : α → Prop) (l : List α) : Prop :=
  ∀ pre x post, l = pre ++ x :: post → ∀ p ∈ parents x, S p → p ∈ pre

variable {parents} {S : α → Prop}

theorem Ancestor.of_parent {p x : α} (h : p ∈ parents x) : Ancestor parents p x :=
  Relation.TransGen.single h

theorem Ancestor.trans {a b c : α} (h₁ : Ancestor parents a b) (h₂ : Ancestor parents b c) :
    Ancestor parents a c :=
  Relation.TransGen.trans h₁ h₂

/-- A parent-closed set contains the ancestors of its members. -/
theorem ParentClosed.ancestor (hS : ParentClosed parents S) {p x : α}
    (h : Ancestor parents p x) (hx : S x) : S p := by
  induction h using Relation.TransGen.head_induction_on with
  | single hpx => exact hS x hx _ hpx
  | head hab _ ih => exact hS _ ih _ hab

private theorem ParentClosed.ancestor_of_agree {parents' : α → List α}
    (hS : ParentClosed parents S) (heq : ∀ x, S x → parents' x = parents x) {a x : α} (hx : S x)
    (h : Ancestor parents a x) : Ancestor parents' a x := by
  induction h with
  | single hax => exact .single (heq _ hx ▸ hax)
  | tail _ hbc ih => exact (ih (hS _ hx _ hbc)).tail (heq _ hx ▸ hbc)

/-- Ancestry only depends on the links inside a parent-closed set. -/
theorem ParentClosed.ancestor_congr {parents' : α → List α} (hS : ParentClosed parents S)
    (heq : ∀ x, S x → parents' x = parents x) {a x : α} (hx : S x) :
    Ancestor parents' a x ↔ Ancestor parents a x := by
  have hS' : ParentClosed parents' S := fun y hy p hp => hS y hy p (heq y hy ▸ hp)
  exact ⟨hS'.ancestor_of_agree (fun y hy => (heq y hy).symm) hx, hS.ancestor_of_agree heq hx⟩

/-- Ranks grow from an ancestor to its descendant. -/
theorem rank_lt_of_ancestor {rank : α → ℕ} (hrank : ∀ x, ∀ p ∈ parents x, rank p < rank x)
    {p x : α} (h : Ancestor parents p x) : rank p < rank x := by
  induction h with
  | single hpx => exact hrank _ _ hpx
  | tail _ hbc ih => exact ih.trans (hrank _ _ hbc)

/-- Acyclic is to have no cycle, when finitely many nodes are parents: the rank of a node is the
number of its ancestors. -/
theorem acyclic_iff_irrefl {l : List α} (hl : ∀ x, ∀ p ∈ parents x, p ∈ l) :
    Acyclic parents ↔ ∀ x, ¬ Ancestor parents x x := by
  classical
  constructor
  · rintro ⟨rank, hrank⟩ x hx
    exact lt_irrefl _ (rank_lt_of_ancestor hrank hx)
  · intro h
    have hmem : ∀ {p x}, Ancestor parents p x → p ∈ l := fun hpx => by
      induction hpx using Relation.TransGen.head_induction_on with
      | single hpx => exact hl _ _ hpx
      | head hab _ _ => exact hl _ _ hab
    let above : α → Finset α := fun x => l.toFinset.filter fun p => Ancestor parents p x
    refine ⟨fun x => (above x).card, fun x p hp => Finset.card_lt_card ?_⟩
    have hpx : Ancestor parents p x := .of_parent hp
    refine Finset.ssubset_iff_of_subset (fun a ha => ?_) |>.mpr ⟨p, ?_, fun hin => ?_⟩
    · obtain ⟨hal, hap⟩ := Finset.mem_filter.mp ha
      exact Finset.mem_filter.mpr ⟨hal, hap.trans hpx⟩
    · exact Finset.mem_filter.mpr ⟨List.mem_toFinset.mpr (hmem hpx), hpx⟩
    · exact h p (Finset.mem_filter.mp hin).2

/-- **Every node has a last descendant.** In a finite acyclic set, each node is a node no
member names as a parent, or an ancestor of such a node. -/
theorem Acyclic.exists_tip (h : Acyclic parents) {l : List α} {x : α} (hx : x ∈ l) :
    ∃ t ∈ l, (t = x ∨ Ancestor parents x t) ∧ ∀ y ∈ l, t ∉ parents y := by
  classical
  obtain ⟨rank, hrank⟩ := h
  let above := l.filter fun t => t = x ∨ Ancestor parents x t
  have hxa : x ∈ above := List.mem_filter.mpr ⟨hx, by simp⟩
  obtain ⟨t, ht, hmax⟩ : ∃ t ∈ above, ∀ y ∈ above, rank y ≤ rank t := by
    cases harg : above.argmax rank with
    | none => exact absurd (List.argmax_eq_none.mp harg) (List.ne_nil_of_mem hxa)
    | some t => exact ⟨t, List.argmax_mem harg, fun y hy => List.le_of_mem_argmax hy harg⟩
  obtain ⟨htl, htx⟩ := List.mem_filter.mp ht
  simp only [decide_eq_true_eq] at htx
  refine ⟨t, htl, htx, fun y hy hty => ?_⟩
  -- a member with `t` as a parent would lie above `x` with a larger rank
  have hya : y ∈ above := by
    refine List.mem_filter.mpr ⟨hy, ?_⟩
    simp only [decide_eq_true_eq]
    right
    rcases htx with rfl | htx
    · exact .of_parent hty
    · exact htx.trans (.of_parent hty)
  exact absurd (hmax y hya) (not_le.mpr (hrank y t hty))

/-! ### Lists with parents first -/

theorem ParentsFirst.nil : ParentsFirst parents S [] := by
  intro pre x post h
  simp at h

theorem ParentsFirst.concat {l : List α} {x : α} (hl : ParentsFirst parents S l)
    (hx : ∀ p ∈ parents x, S p → p ∈ l) : ParentsFirst parents S (l ++ [x]) := by
  intro pre y post h p hp hSp
  rcases List.eq_nil_or_concat post with rfl | ⟨post', z, rfl⟩
  · obtain ⟨rfl, rfl⟩ : l = pre ∧ x = y := by simpa using List.append_inj' h rfl
    exact hx p hp hSp
  · rw [List.concat_eq_append, ← List.cons_append, ← List.append_assoc] at h
    exact hl pre y post' (List.append_inj' h rfl).1 p hp hSp

/-- The parents of a listed node are listed too. -/
theorem ParentsFirst.mem {l : List α} (hl : ParentsFirst parents S l) {x p : α} (hx : x ∈ l)
    (hp : p ∈ parents x) (hSp : S p) : p ∈ l := by
  obtain ⟨pre, post, rfl⟩ := List.append_of_mem hx
  exact List.mem_append_left _ (hl pre x post rfl p hp hSp)

/-- Dropping nodes keeps parents first, as seen from the nodes that stay. -/
theorem ParentsFirst.filter {l : List α} (hl : ParentsFirst parents S l) (q : α → Bool) :
    ParentsFirst parents (fun p => S p ∧ q p) (l.filter q) := by
  induction l using List.reverseRecOn with
  | nil => exact .nil
  | append_singleton l x ih =>
    have hl' : ParentsFirst parents S l := fun pre y post h =>
      hl pre y (post ++ [x]) (by rw [h, List.append_assoc, List.cons_append])
    rw [List.filter_append]
    by_cases hq : q x
    · rw [List.filter_cons_of_pos hq, List.filter_nil]
      refine (ih hl').concat fun p hp hSp => List.mem_filter.mpr ⟨?_, hSp.2⟩
      exact hl l x [] rfl p hp hSp.1
    · rw [List.filter_cons_of_neg hq, List.filter_nil, List.append_nil]
      exact ih hl'

/-- In a list with parents first an ancestor inside the set stands before its descendant. -/
theorem ParentsFirst.ancestor {l : List α} (hl : ParentsFirst parents S l)
    (hS : ParentClosed parents S) {pre post : List α} {x a : α} (h : l = pre ++ x :: post)
    (hx : S x) (ha : Ancestor parents a x) : a ∈ pre := by
  induction ha using Relation.TransGen.head_induction_on with
  | single hax => exact hl pre x post h _ hax (hS x hx _ hax)
  | @head a b hab hbx ih =>
    obtain ⟨pre', post', rfl⟩ := List.append_of_mem ih
    have hb : S b := hS.ancestor hbx hx
    have := hl pre' b (post' ++ x :: post) (by rw [h]; simp) a hab (hS b hb a hab)
    exact List.mem_append_left _ this

/-- The same for a set that is closed upwards inside a parent-closed one. -/
theorem ParentsFirst.ancestor_above {T : α → Prop} {l : List α} (hl : ParentsFirst parents S l)
    (hT : ParentClosed parents T) (hS : ∀ a b, S a → a ∈ parents b → T b → S b)
    {pre post : List α} {x a : α} (h : l = pre ++ x :: post) (hx : T x)
    (ha : Ancestor parents a x) (hSa : S a) : a ∈ pre := by
  induction ha using Relation.TransGen.head_induction_on with
  | single hax => exact hl pre x post h _ hax hSa
  | @head a b hab hbx ih =>
    obtain ⟨pre', post', rfl⟩ := List.append_of_mem (ih (hS a b hSa hab (hT.ancestor hbx hx)))
    have := hl pre' b (post' ++ x :: post) (by rw [h]; simp) a hab hSa
    exact List.mem_append_left _ this

/-! ### Kahn's algorithm -/

/-- A node of the set all of whose parents in the set are done. -/
def Ready (parents : α → List α) (S : α → Prop) (done : List α) (x : α) : Prop :=
  S x ∧ ∀ p ∈ parents x, S p → p ∈ done

/-- The invariant of Kahn's algorithm: the nodes listed so far and the queue are together,
without repetition, the nodes ready now, and the listed ones stand after their parents. -/
structure KahnInv (parents : α → List α) (S : α → Prop) (done queue : List α) : Prop where
  nodup : (done ++ queue).Nodup
  mem_iff : ∀ x, x ∈ done ++ queue ↔ Ready parents S done x
  parentsFirst : ParentsFirst parents S done

theorem Ready.mono {done done' : List α} {x : α} (h : Ready parents S done x)
    (hsub : done ⊆ done') : Ready parents S done' x :=
  ⟨h.1, fun p hp hSp => hsub (h.2 p hp hSp)⟩

theorem KahnInv.init {queue : List α} (hnd : queue.Nodup)
    (hq : ∀ x, x ∈ queue ↔ Ready parents S [] x) : KahnInv parents S [] queue :=
  ⟨by simpa using hnd, by simpa using hq, .nil⟩

/-- **One pop.** The popped node is listed and exactly the nodes this makes ready join the
queue, in any order. -/
theorem KahnInv.step {done queue ready : List α} {x : α}
    (h : KahnInv parents S done (x :: queue)) (hnd : ready.Nodup)
    (hr : ∀ y, y ∈ ready ↔ Ready parents S (done ++ [x]) y ∧ ¬ Ready parents S done y) :
    KahnInv parents S (done ++ [x]) (queue ++ ready) := by
  have hcat : done ++ [x] ++ (queue ++ ready) = (done ++ x :: queue) ++ ready := by simp
  refine ⟨?_, fun y => ?_, ?_⟩
  · rw [hcat]
    refine List.Nodup.append h.nodup hnd fun y hy hyr => ?_
    exact ((hr y).mp hyr).2 ((h.mem_iff y).mp hy)
  · rw [hcat, List.mem_append, h.mem_iff, hr]
    constructor
    · rintro (hy | hy)
      · exact hy.mono (List.subset_append_left _ _)
      · exact hy.1
    · intro hy
      by_cases hyd : Ready parents S done y
      · exact .inl hyd
      · exact .inr ⟨hy, hyd⟩
  · refine h.parentsFirst.concat ?_
    exact ((h.mem_iff x).mp (by simp)).2

/-- **Completeness.** When the queue is empty, every node of an acyclic set is listed. -/
theorem KahnInv.complete {done : List α} (h : KahnInv parents S done []) (hac : Acyclic parents)
    (x : α) : x ∈ done ↔ S x := by
  obtain ⟨rank, hrank⟩ := hac
  have hmem : ∀ y, y ∈ done ↔ Ready parents S done y := by simpa using h.mem_iff
  refine ⟨fun hx => ((hmem x).mp hx).1, ?_⟩
  induction hn : rank x using Nat.strong_induction_on generalizing x with
  | _ n ih =>
    subst hn
    intro hx
    exact (hmem x).mpr ⟨hx, fun p hp hSp => ih _ (hrank x p hp) p rfl hSp⟩

/-- A run of Kahn's algorithm with a queue: the first node is listed and the batch it
releases joins at the end. -/
inductive KahnRun (batch : List α → α → List α) : List α → List α → List α → Prop where
  | finish (done : List α) : KahnRun batch done [] done
  | pop {done queue result : List α} {x : α}
      (rest : KahnRun batch (done ++ [x]) (queue ++ batch done x) result) :
      KahnRun batch done (x :: queue) result

section KahnRun

variable {batch batch' : List α → α → List α} {done queue result result' : List α}

/-- A run has one outcome. -/
theorem KahnRun.unique (h : KahnRun batch done queue result)
    (h' : KahnRun batch done queue result') : result = result' := by
  induction h with
  | finish done =>
    obtain ⟨⟩ := h'
    rfl
  | pop _ ih =>
    obtain _ | h' := h'
    exact ih h'

/-- The result starts with what is done and goes on with the queue. -/
theorem KahnRun.starts (h : KahnRun batch done queue result) : done ++ queue <+: result := by
  induction h with
  | finish done => simp
  | @pop done queue result x rest ih =>
    refine List.IsPrefix.trans ⟨batch done x, ?_⟩ ih
    simp

/-- **Stability.** If the nodes to keep are released by kept nodes only, and among them as in
another run, what the first run lists of them is what the other lists. -/
theorem KahnRun.filter (keep : α → Bool)
    (hkeep : ∀ done x, keep x = true →
      (batch done x).filter keep = batch' (done.filter keep) x)
    (hdrop : ∀ done x, keep x = false → (batch done x).filter keep = [])
    (h : KahnRun batch done queue result) :
    KahnRun batch' (done.filter keep) (queue.filter keep) (result.filter keep) := by
  induction h with
  | finish done => exact .finish _
  | @pop done queue result x rest ih =>
    rw [List.filter_append, List.filter_append] at ih
    cases hx : keep x with
    | true =>
      rw [hkeep done x hx, List.filter_cons_of_pos hx, List.filter_nil] at ih
      rw [List.filter_cons_of_pos hx]
      exact .pop ih
    | false =>
      have hx' : ¬ keep x = true := by simp [hx]
      rw [hdrop done x hx, List.filter_cons_of_neg hx', List.filter_nil, List.append_nil,
        List.append_nil] at ih
      rw [List.filter_cons_of_neg hx']
      exact ih

/-- Runs whose batches agree on the nodes they meet are the same run. -/
theorem KahnRun.congr {S : Set α} (hsame : ∀ done, ∀ x ∈ S, batch done x = batch' done x)
    (hclosed : ∀ done, ∀ x ∈ S, ∀ y ∈ batch done x, y ∈ S) (hqueue : ∀ x ∈ queue, x ∈ S)
    (h : KahnRun batch done queue result) : KahnRun batch' done queue result := by
  induction h with
  | finish done => exact .finish done
  | @pop done queue result x rest ih =>
    obtain ⟨hx, hqueue⟩ := List.forall_mem_cons.mp hqueue
    have hrest := ih fun y hy => (List.mem_append.mp hy).elim (hqueue y) (hclosed done x hx y)
    rw [hsame done x hx] at hrest
    exact .pop hrest

end KahnRun

end Dag
