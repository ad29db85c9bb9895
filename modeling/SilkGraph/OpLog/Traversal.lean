import Mathlib.Algebra.Order.BigOperators.Group.List
import Mathlib.Algebra.Order.Group.Nat
import Mathlib.Data.List.Dedup
import SilkGraph.OpLog.Invariant

/-!
# Traversing the log

What the two traversals of the log compute: `reachable_from` is the least set that holds the
starting points and is closed under links, and `topo_sort` lists its subset without
repetition and parents first. On a log whose entries name each parent once and whose `refs`
stay inside the log, `entries_since(None)` therefore lists every entry exactly once.

Acyclicity is not a structure of the log but a consequence of how it grows: an entry enters
after its parents, under a hash no earlier entry can have named. `WellFormed` adds it to the
representation invariant.
-/

namespace SilkGraph

namespace OpLog

variable {L : OpLog} {e : Entry} {h p : Hash}

/-! ### Acyclicity -/

/-- The log's parent links go down along some rank. -/
def Causal (L : OpLog) : Prop := Dag.Acyclic L.nextOf

theorem nextOf_eq_of_get (he : L.entries[h]? = some e) : L.nextOf h = e.next := by
  simp [nextOf, get, he]

theorem mem_nextOf : p ∈ L.nextOf h ↔ ∃ e : Entry, L.entries[h]? = some e ∧ p ∈ e.next := by
  cases he : L.entries[h]? with
  | none => simp [nextOf, get, he]
  | some e => simp [nextOf_eq_of_get he]

theorem Causal.new {g : Entry} (hroot : g.next = []) : (OpLog.new g).Causal := by
  refine ⟨fun _ => 0, fun x p hp => ?_⟩
  obtain ⟨e, he, hpe⟩ := mem_nextOf.mp hp
  rw [getElem?_new] at he
  split at he <;> simp_all

theorem Causal.insertEntry [Crates] (hL : L.RepInv) (hc : L.Causal) (hd : e.hash ∉ L.entries)
    (hp : ∀ p ∈ e.next, p ∈ L.entries) : (L.insertEntry e).Causal := by
  obtain ⟨rank, hrank⟩ := hc
  -- the new entry goes above all its parents; the others keep their rank
  refine ⟨fun h => if e.hash = h then (e.next.map rank).sum + 1 else rank h, fun x p hx => ?_⟩
  change ite _ _ _ < ite _ _ _
  obtain ⟨e', he', hpe'⟩ := mem_nextOf.mp hx
  rw [getElem?_insertEntry] at he'
  by_cases hxe : e.hash = x
  · obtain rfl : e = e' := by simpa [hxe] using he'
    have hne : e.hash ≠ p := by
      rintro rfl
      exact hd (hp _ hpe')
    have hle : rank p ≤ (e.next.map rank).sum :=
      List.le_sum_of_mem (List.mem_map_of_mem hpe')
    rw [if_neg hne, if_pos hxe]
    omega
  · rw [if_neg hxe] at he'
    have hne : e.hash ≠ p := by
      rintro rfl
      exact hd (hL.parents x e' he' _ hpe')
    rw [if_neg hne, if_neg hxe]
    exact hrank x p (mem_nextOf.mpr ⟨e', he', hpe'⟩)

/-- A log as it is built: the structures agree, something is stored, links are acyclic. -/
structure WellFormed [Crates] (L : OpLog) : Prop where
  rep : L.RepInv
  nonempty : L.entries ≠ ∅
  causal : L.Causal

theorem WellFormed.new [Crates] {g : Entry} (hg : g.verifyHash) (hroot : g.next = []) :
    (OpLog.new g).WellFormed :=
  ⟨.new hg hroot, entries_new_ne_empty g, .new hroot⟩

/-- Every append keeps a log well formed. -/
theorem WellFormed.append [Crates] (hL : L.WellFormed) (e : Entry) :
    (L.append e).2.WellFormed := by
  refine ⟨hL.rep.append hL.nonempty e, entries_append_ne_empty hL.nonempty e, ?_⟩
  rcases append_cases hL.nonempty e with ⟨-, h⟩ | ⟨-, -, h⟩ | ⟨-, -, hc, h⟩ |
    ⟨-, -, -, p, -, -, h⟩ | ⟨-, hd, -, hp, h⟩ <;> rw [h]
  · exact hL.causal
  · exact hL.causal
  · simp only [Entry.isRootCheckpoint, Bool.and_eq_true, List.isEmpty_iff] at hc
    exact .new hc.1
  · exact hL.causal
  · exact hL.causal.insertEntry hL.rep hd hp

theorem WellFormed.appendAll [Crates] (hL : L.WellFormed) (es : List Entry) :
    (L.appendAll es).WellFormed := by
  induction es generalizing L with
  | nil => exact hL
  | cons e es ih => exact ih (hL.append e)

/-- The stored hashes are closed under parents. -/
theorem RepInv.parentClosed [Crates] (hL : L.RepInv) :
    Dag.ParentClosed L.nextOf (· ∈ L.entries) := by
  intro x _ p hp
  obtain ⟨e, he, hpe⟩ := mem_nextOf.mp hp
  exact hL.parents x e he p hpe

/-- Every stored entry is a head or an ancestor of one. -/
theorem WellFormed.exists_head [Crates] (hL : L.WellFormed) (hh : h ∈ L.entries) :
    ∃ t ∈ L.heads, t = h ∨ Dag.Ancestor L.nextOf h t := by
  obtain ⟨t, ht, hht, htip⟩ := hL.causal.exists_tip (Std.ExtTreeMap.mem_keys.mpr hh)
  refine ⟨t, (hL.rep.heads t).mpr ⟨Std.ExtTreeMap.mem_keys.mp ht, fun h' e he hc => ?_⟩, hht⟩
  refine htip h' (Std.ExtTreeMap.mem_keys.mpr (HashMap.mem_iff_getElem?.mpr ⟨e, he⟩)) ?_
  exact mem_nextOf.mpr ⟨e, he, hc⟩

/-! ### Reachability -/

/-- The links the backwards search follows from a hash. -/
def linksOf (self : OpLog) (h : Hash) : List Hash :=
  ((self.get h).map fun e => e.next ++ e.refs).getD []

/-- The links of the stored entries outside a set, counted. -/
def linksOutside (self : OpLog) (visited : HashSet Hash) : ℕ :=
  ((self.entries.toList.filter fun kv => !visited.contains kv.1).map fun kv =>
    kv.2.next.length + kv.2.refs.length).sum

private theorem sum_filter_ne {K V : Type} [DecidableEq K] (w : V → ℕ) {l : List (K × V)}
    (hnd : (l.map Prod.fst).Nodup) {k : K} {v : V} (hkv : (k, v) ∈ l) :
    ((l.filter fun kv => !decide (kv.1 = k)).map fun kv => w kv.2).sum + w v =
      (l.map fun kv => w kv.2).sum := by
  induction l with
  | nil => simp at hkv
  | cons a l ih =>
    obtain ⟨ha, hnd⟩ := List.nodup_cons.mp hnd
    rcases List.mem_cons.mp hkv with rfl | hkv
    · have hall : l.filter (fun kv => !decide (kv.1 = k)) = l := by
        refine List.filter_eq_self.mpr fun kv hkv => ?_
        have hmem : kv.1 ∈ l.map Prod.fst := List.mem_map_of_mem hkv
        have hne : kv.1 ≠ k := fun h => ha (h ▸ hmem)
        simp [hne]
      simp [hall, Nat.add_comm]
    · have hmem : k ∈ l.map Prod.fst := List.mem_map.mpr ⟨(k, v), hkv, rfl⟩
      have hak : a.1 ≠ k := fun h => ha (h ▸ hmem)
      have := ih hnd hkv
      simp only [hak, decide_false, Bool.not_false, List.filter_cons_of_pos, List.map_cons,
        List.sum_cons]
      omega

/-- Visiting a stored entry takes its links off the count. -/
theorem linksOutside_insert {visited : HashSet Hash} (he : L.entries[h]? = some e)
    (hv : h ∉ visited) :
    L.linksOutside (visited.insert h) + (e.next.length + e.refs.length) =
      L.linksOutside visited := by
  have hfilter : (L.entries.toList.filter fun kv => !(visited.insert h).contains kv.1) =
      (L.entries.toList.filter fun kv => !visited.contains kv.1).filter
        fun kv => !decide (kv.1 = h) := by
    rw [List.filter_filter]
    refine List.filter_congr fun kv _ => ?_
    rw [Bool.eq_iff_iff]
    simp only [Bool.not_eq_true', ← Bool.not_eq_true, Std.ExtTreeSet.contains_iff_mem,
      HashSet.mem_insert, Bool.and_eq_true, decide_eq_true_eq]
    grind
  have hnd : ((L.entries.toList.filter fun kv => !visited.contains kv.1).map Prod.fst).Nodup := by
    refine List.Nodup.sublist (List.filter_sublist.map _) ?_
    rw [Std.ExtTreeMap.map_fst_toList_eq_keys]
    exact Std.ExtTreeMap.nodup_keys
  have hmem : (h, e) ∈ L.entries.toList.filter fun kv => !visited.contains kv.1 := by
    refine List.mem_filter.mpr ⟨HashMap.mem_toList.mpr he, ?_⟩
    simpa [← Std.ExtTreeSet.contains_iff_mem] using hv
  rw [linksOutside, linksOutside, hfilter]
  exact sum_filter_ne (fun e : Entry => e.next.length + e.refs.length) hnd hmem

/-- **Turn.** A new hash is visited and those of its links that are not visited are queued. -/
theorem reachLoop_visit (fuel : ℕ) (queue : List Hash) {visited : HashSet Hash} {h : Hash}
    (hv : h ∉ visited) : ∃ links : List Hash, (∀ y ∈ links, y ∈ L.linksOf h) ∧
      (∀ y ∈ L.linksOf h, y ∈ visited.insert h ∨ y ∈ links) ∧
      links.length + L.linksOutside (visited.insert h) ≤ L.linksOutside visited ∧
      L.reachLoop (fuel + 1) (h :: queue) visited =
        L.reachLoop fuel (queue ++ links) (visited.insert h) := by
  cases he : L.entries[h]? with
  | none =>
    refine ⟨[], by simp, fun y hy => by simp [linksOf, get, he] at hy, ?_, ?_⟩
    · rw [List.length_nil, Nat.zero_add]
      refine le_of_eq (congrArg List.sum (congrArg _ (List.filter_congr fun kv hkv => ?_)))
      have hne : h ≠ kv.1 := by
        rintro rfl
        rw [HashMap.mem_toList.mp hkv] at he
        cases he
      rw [Bool.eq_iff_iff]
      simp [hne]
    · simp [reachLoop, hv, he]
  | some e =>
    refine ⟨(e.next.filter fun p => !(visited.insert h).contains p) ++
      e.refs.filter fun r => !(visited.insert h).contains r, ?_, ?_, ?_, ?_⟩
    · intro y hy
      simp only [List.mem_append, List.mem_filter] at hy
      simp only [linksOf, get, he, Option.map_some, Option.getD_some, List.mem_append]
      tauto
    · intro y hy
      simp only [linksOf, get, he, Option.map_some, Option.getD_some,
        List.mem_append] at hy
      by_cases hyv : y ∈ visited.insert h
      · exact .inl hyv
      · have hyc : (visited.insert h).contains y = false := by
          rw [← Bool.not_eq_true, Std.ExtTreeSet.contains_iff_mem]
          exact hyv
        refine .inr ?_
        simp only [List.mem_append, List.mem_filter, hyc]
        tauto
    · rw [← linksOutside_insert he hv, List.length_append]
      have h1 := List.length_filter_le (fun p => !(visited.insert h).contains p) e.next
      have h2 := List.length_filter_le (fun r => !(visited.insert h).contains r) e.refs
      omega
    · simp [reachLoop, hv, he, List.append_assoc]

/-- **The search loop.** Where the links of visited hashes are visited or queued and the pops
suffice, the result contains what is visited and queued, is closed under links, and is the
least such set. -/
theorem reachLoop_spec (fuel : ℕ) (queue : List Hash) (visited : HashSet Hash)
    (hfuel : queue.length + L.linksOutside visited ≤ fuel)
    (hinv : ∀ x ∈ visited, ∀ y ∈ L.linksOf x, y ∈ visited ∨ y ∈ queue) :
    (∀ x, x ∈ visited ∨ x ∈ queue → x ∈ L.reachLoop fuel queue visited) ∧
    (∀ x ∈ L.reachLoop fuel queue visited, ∀ y ∈ L.linksOf x,
      y ∈ L.reachLoop fuel queue visited) ∧
    ∀ S : Hash → Prop, (∀ x, x ∈ visited ∨ x ∈ queue → S x) →
      (∀ x, S x → ∀ y ∈ L.linksOf x, S y) → ∀ x ∈ L.reachLoop fuel queue visited, S x := by
  induction fuel generalizing queue visited with
  | zero =>
    obtain rfl : queue = [] := List.eq_nil_of_length_eq_zero (by omega)
    exact ⟨fun x hx => by simpa [reachLoop] using hx,
      fun x hx y hy => by simpa [reachLoop] using hinv x hx y hy,
      fun S hS _ x hx => hS x (.inl hx)⟩
  | succ fuel ih =>
    cases queue with
    | nil =>
      exact ⟨fun x hx => by simpa [reachLoop] using hx,
        fun x hx y hy => by simpa [reachLoop] using hinv x hx y hy,
        fun S hS _ x hx => hS x (.inl hx)⟩
    | cons h queue =>
      have hlen : queue.length + 1 + L.linksOutside visited ≤ fuel + 1 := by simpa using hfuel
      by_cases hv : h ∈ visited
      · -- already visited: the pop only shortens the queue
        have hstep : L.reachLoop (fuel + 1) (h :: queue) visited =
            L.reachLoop fuel queue visited := by simp [reachLoop, hv]
        rw [hstep]
        obtain ⟨h1, h2, h3⟩ := ih queue visited (by omega) fun x hx y hy => by
          rcases hinv x hx y hy with hy | hy
          · exact .inl hy
          · rcases List.mem_cons.mp hy with rfl | hy
            · exact .inl hv
            · exact .inr hy
        refine ⟨fun x hx => h1 x ?_, h2, fun S hS => h3 S fun x hx => hS x ?_⟩
        · rcases hx with hx | hx
          · exact .inl hx
          · rcases List.mem_cons.mp hx with rfl | hx
            · exact .inl hv
            · exact .inr hx
        · exact hx.imp_right (List.mem_cons_of_mem _)
      · -- a new hash: it is visited and its unvisited links are queued
        obtain ⟨links, hl1, hl2, hl3, hstep⟩ := reachLoop_visit (L := L) fuel queue hv
        rw [hstep]
        obtain ⟨h1, h2, h3⟩ := ih (queue ++ links) (visited.insert h)
          (by rw [List.length_append]; omega) fun x hx y hy => by
            rcases HashSet.mem_insert.mp hx with rfl | hx
            · rcases hl2 y hy with hy | hy
              · exact .inl hy
              · exact .inr (List.mem_append_right _ hy)
            · rcases hinv x hx y hy with hy | hy
              · exact .inl (HashSet.mem_insert.mpr (.inr hy))
              · rcases List.mem_cons.mp hy with rfl | hy
                · exact .inl (HashSet.mem_insert.mpr (.inl rfl))
                · exact .inr (List.mem_append_left _ hy)
        refine ⟨fun x hx => h1 x ?_, h2, fun S hS hcl => h3 S (fun x hx => ?_) hcl⟩
        · rcases hx with hx | hx
          · exact .inl (HashSet.mem_insert.mpr (.inr hx))
          · rcases List.mem_cons.mp hx with rfl | hx
            · exact .inl (HashSet.mem_insert.mpr (.inl rfl))
            · exact .inr (List.mem_append_left _ hx)
        · have hSh : S h := hS h (.inr List.mem_cons_self)
          rcases hx with hx | hx
          · rcases HashSet.mem_insert.mp hx with rfl | hx
            · exact hSh
            · exact hS x (.inl hx)
          · rcases List.mem_append.mp hx with hx | hx
            · exact hS x (.inr (List.mem_cons_of_mem _ hx))
            · exact hcl h hSh x (hl1 x hx)

/-- `reachable_from` holds its starting points, is closed under links, and is contained in
every set with these two properties. -/
theorem reachableFrom_spec (L : OpLog) (starts : List Hash) :
    (∀ x ∈ starts, x ∈ L.reachableFrom starts) ∧
    (∀ x ∈ L.reachableFrom starts, ∀ y ∈ L.linksOf x, y ∈ L.reachableFrom starts) ∧
    ∀ S : Hash → Prop, (∀ x ∈ starts, S x) → (∀ x, S x → ∀ y ∈ L.linksOf x, S y) →
      ∀ x ∈ L.reachableFrom starts, S x := by
  have hcount : L.linksOutside ∅ = L.linkCount := by
    simp [linksOutside, linkCount]
  obtain ⟨h1, h2, h3⟩ := L.reachLoop_spec (starts.length + L.linkCount) starts ∅
    (by rw [hcount]) (by simp)
  refine ⟨fun x hx => h1 x (.inr hx), h2, fun S hS => h3 S fun x hx => ?_⟩
  rcases hx with hx | hx
  · simp at hx
  · exact hS x hx

/-- The links of stored entries stay inside the log. `append` sees to it for `next`; `refs`
it does not look at. -/
def RefsStored (L : OpLog) : Prop :=
  ∀ (h : Hash) (e : Entry), L.entries[h]? = some e → ∀ r ∈ e.refs, r ∈ L.entries

/-- Everything stored is reachable from the heads, and nothing else is. -/
theorem WellFormed.mem_reachableFrom_heads [Crates] (hL : L.WellFormed) (hr : L.RefsStored) :
    h ∈ L.reachableFrom L.heads.toList ↔ h ∈ L.entries := by
  obtain ⟨h1, h2, h3⟩ := L.reachableFrom_spec L.heads.toList
  constructor
  · refine h3 (· ∈ L.entries) (fun x hx => ?_) (fun x _ y hy => ?_) h
    · exact ((hL.rep.heads x).mp (Std.ExtTreeSet.mem_toList.mp hx)).1
    · cases he : L.entries[x]? with
      | none => simp [linksOf, get, he] at hy
      | some e =>
        simp only [linksOf, get, he, Option.map_some, Option.getD_some, List.mem_append] at hy
        rcases hy with hy | hy
        · exact hL.rep.parents x e he y hy
        · exact hr x e he y hy
  · intro hh
    obtain ⟨t, ht, htx⟩ := hL.exists_head hh
    have htR := h1 t (Std.ExtTreeSet.mem_toList.mpr ht)
    rcases htx with rfl | hanc
    · exact htR
    · refine Dag.ParentClosed.ancestor (S := (· ∈ L.reachableFrom L.heads.toList))
        (fun x hx y hy => h2 x hx y ?_) hanc htR
      obtain ⟨e, he, hye⟩ := mem_nextOf.mp hy
      simp [linksOf, get, he, hye]

/-! ### Topological order -/

/-- No stored entry names a parent twice. `topo_sort` counts a repeated parent twice and
takes it off once, so it loses the entry and everything above it. -/
def NextNodup (L : OpLog) : Prop :=
  ∀ (h : Hash) (e : Entry), L.entries[h]? = some e → e.next.Nodup

theorem NextNodup.nextOf (hL : L.NextNodup) (h : Hash) : (L.nextOf h).Nodup := by
  cases he : L.entries[h]? with
  | none => simp [OpLog.nextOf, get, he]
  | some e => rw [nextOf_eq_of_get he]; exact hL h e he

/-- The same for a subset: no member names a parent in it twice. -/
def NextNodupIn (L : OpLog) (hashes : HashSet Hash) : Prop :=
  ∀ h ∈ hashes, ((L.nextOf h).filter fun p => hashes.contains p).Nodup

theorem NextNodup.within (hL : L.NextNodup) (hashes : HashSet Hash) : L.NextNodupIn hashes :=
  fun h _ => (hL.nextOf h).filter _

theorem getElem?_inDegrees (L : OpLog) (hashes : HashSet Hash) (h : Hash) :
    (L.inDegrees hashes)[h]? =
      if h ∈ hashes then some ((L.nextOf h).countP fun p => hashes.contains p) else none := by
  have hfold : ∀ (l : List Hash) (deg : HashMap Hash ℕ) (w : Hash → ℕ),
      (l.foldl (fun deg h => deg.insert h (w h)) deg)[h]? =
        if h ∈ l then some (w h) else deg[h]? := by
    intro l deg w
    induction l generalizing deg with
    | nil => simp
    | cons a l ih =>
      rw [List.foldl_cons, ih, HashMap.getElem?_insert]
      by_cases ha : a = h
      · subst ha; simp
      · simp [ha, Ne.symm ha]
  rw [inDegrees, hfold]
  simp

/-- Releasing the children of a popped entry: each one in the subset loses one in-degree,
and those that had one left are the ready ones. -/
theorem releaseChildren_spec {hashes : HashSet Hash} {D : Hash → ℕ} {ch : List Hash}
    {deg : HashMap Hash ℕ} (hch : ch.Nodup) (hdeg : ∀ h ∈ hashes, deg[h]? = some (D h)) :
    (∀ h ∈ hashes, (releaseChildren hashes ch deg).1[h]? =
      some (if h ∈ ch then usizePred (D h) else D h)) ∧
    (releaseChildren hashes ch deg).2 =
      ch.filter fun c => hashes.contains c && usizePred (D c) == 0 := by
  induction ch generalizing deg D with
  | nil => exact ⟨fun h hh => by simpa [releaseChildren] using hdeg h hh, rfl⟩
  | cons c ch ih =>
    obtain ⟨hc, hch⟩ := List.nodup_cons.mp hch
    by_cases hcS : c ∈ hashes
    · have hdeg' : ∀ h ∈ hashes, (deg.insert c (usizePred (D c)))[h]? =
          some (if c = h then usizePred (D h) else D h) := by
        intro h hh
        rw [HashMap.getElem?_insert]
        split
        · rename_i heq
          rw [heq]
        · exact hdeg h hh
      obtain ⟨ih1, ih2⟩ := ih (D := fun h => if c = h then usizePred (D h) else D h) hch hdeg'
      have hstep : releaseChildren hashes (c :: ch) deg =
          ((releaseChildren hashes ch (deg.insert c (usizePred (D c)))).1,
            if usizePred (D c) = 0 then
              c :: (releaseChildren hashes ch (deg.insert c (usizePred (D c)))).2
            else (releaseChildren hashes ch (deg.insert c (usizePred (D c)))).2) := by
        simp [releaseChildren, hcS, hdeg c hcS]
      rw [hstep]
      refine ⟨fun h hh => ?_, ?_⟩
      · rw [ih1 h hh]
        by_cases hch' : c = h
        · subst hch'
          simp [hc]
        · simp [hch', Ne.symm hch']
      · have hrest : (ch.filter fun x => hashes.contains x &&
            usizePred (if c = x then usizePred (D x) else D x) == 0) =
            ch.filter fun x => hashes.contains x && usizePred (D x) == 0 := by
          refine List.filter_congr fun x hx => ?_
          have hcx : c ≠ x := fun h => hc (h ▸ hx)
          rw [if_neg hcx]
        change (if usizePred (D c) = 0 then _ else _) = _
        rw [ih2, hrest, List.filter_cons]
        simp [hcS]
    · have hstep : releaseChildren hashes (c :: ch) deg = releaseChildren hashes ch deg := by
        simp [releaseChildren, hcS]
      obtain ⟨ih1, ih2⟩ := ih hch hdeg
      rw [hstep, ih2]
      refine ⟨fun h hh => ?_, ?_⟩
      · have hne : h ≠ c := fun heq => hcS (heq ▸ hh)
        rw [ih1 h hh]
        simp [hne]
      · simp [hcS]

/-- The parents of `h` in the subset that are not done yet, counted. -/
def pendingParents (self : OpLog) (hashes : HashSet Hash) (done : List Hash) (h : Hash) : ℕ :=
  (self.nextOf h).countP fun p => hashes.contains p && !done.contains p

theorem ready_iff (L : OpLog) {hashes : HashSet Hash} {done : List Hash} :
    Dag.Ready L.nextOf (· ∈ hashes) done h ↔ h ∈ hashes ∧ L.pendingParents hashes done h = 0 := by
  rw [pendingParents, List.countP_eq_zero, Dag.Ready]
  simp

/-- What is left of an in-degree: the links into the subset, counted with repetition, less
the distinct parents popped so far. -/
def openLinks (self : OpLog) (hashes : HashSet Hash) (done : List Hash) (h : Hash) : ℕ :=
  ((self.nextOf h).countP fun p => hashes.contains p) -
    (self.nextOf h).dedup.countP fun p => hashes.contains p && done.contains p

/-- Popping `x` takes one off each of its children, however often they name it. -/
theorem openLinks_concat {hashes : HashSet Hash} {done : List Hash} {x : Hash} (hx : x ∈ hashes) (hxd : x ∉ done) :
    (x ∈ L.nextOf h → L.openLinks hashes (done ++ [x]) h + 1 = L.openLinks hashes done h) ∧
    (x ∉ L.nextOf h → L.openLinks hashes (done ++ [x]) h = L.openLinks hashes done h) := by
  have hcount : ∀ l : List Hash, l.Nodup →
      (l.countP fun p => hashes.contains p && (done ++ [x]).contains p) =
        (l.countP fun p => hashes.contains p && done.contains p) + if x ∈ l then 1 else 0 := by
    intro l hl
    induction l with
    | nil => simp
    | cons a l ih =>
      obtain ⟨ha, hl⟩ := List.nodup_cons.mp hl
      rw [List.countP_cons, List.countP_cons, ih hl]
      by_cases hax : a = x
      · subst hax
        simp [ha, hx, hxd]
      · simp [hax, Ne.symm hax]
        omega
  -- the difference never runs below zero: each popped parent is one of the links
  have hle : ((L.nextOf h).dedup.countP fun p => hashes.contains p && (done ++ [x]).contains p) ≤
      (L.nextOf h).countP fun p => hashes.contains p :=
    ((List.dedup_sublist _).countP_le).trans
      (List.countP_mono_left fun p _ hp => (Bool.and_eq_true_iff.mp hp).1)
  have hdd := hcount (L.nextOf h).dedup (List.nodup_dedup _)
  simp only [List.mem_dedup] at hdd
  unfold openLinks
  constructor
  · intro hmem
    rw [if_pos hmem] at hdd
    omega
  · intro hmem
    rw [if_neg hmem] at hdd
    omega

/-- An in-degree can reach zero only if no parent in the subset is named twice. -/
theorem nodup_of_openLinks {hashes : HashSet Hash} {done : List Hash}
    (h0 : L.openLinks hashes done h = 0) :
    ((L.nextOf h).filter fun p => hashes.contains p).Nodup := by
  have hsub : ((L.nextOf h).dedup.filter fun p => hashes.contains p).Sublist
      ((L.nextOf h).filter fun p => hashes.contains p) := (List.dedup_sublist _).filter _
  have hle : ((L.nextOf h).dedup.countP fun p => hashes.contains p && done.contains p) ≤
      (L.nextOf h).dedup.countP fun p => hashes.contains p :=
    List.countP_mono_left fun p _ hp => (Bool.and_eq_true_iff.mp hp).1
  unfold openLinks at h0
  simp only [List.countP_eq_length_filter] at h0 hle
  rw [← hsub.eq_of_length_le (by omega)]
  exact (List.nodup_dedup _).filter _

/-- Where no parent in the subset is named twice, these are the pending parents. -/
theorem openLinks_eq {hashes : HashSet Hash} (hnd : L.NextNodupIn hashes) (hh : h ∈ hashes)
    (done : List Hash) : L.openLinks hashes done h = L.pendingParents hashes done h := by
  have hperm : ((L.nextOf h).dedup.filter fun p => hashes.contains p).Perm
      ((L.nextOf h).filter fun p => hashes.contains p) := by
    refine (List.perm_ext_iff_of_nodup ((List.nodup_dedup _).filter _) (hnd h hh)).mpr fun p => ?_
    rw [List.mem_filter, List.mem_filter, List.mem_dedup]
  have hswap : ∀ (l : List Hash) (q : Hash → Bool),
      (l.countP fun p => hashes.contains p && q p) =
        (l.filter fun p => hashes.contains p).countP q := fun l q => by
    rw [List.countP_filter]
    exact List.countP_congr fun p _ => by rw [Bool.and_comm]
  rw [openLinks, pendingParents, hswap, hswap, hperm.countP_eq, List.countP_eq_length_filter,
    List.length_eq_countP_add_countP done.contains, Nat.add_sub_cancel_left]
  exact List.countP_congr fun p _ => by simp

/-- Popping `x` takes one pending parent off each of its children in the subset. -/
theorem pendingParents_concat {hashes : HashSet Hash} (hnd : L.NextNodupIn hashes)
    {done : List Hash} {x : Hash} (hx : x ∈ hashes) (hxd : x ∉ done) (hh : h ∈ hashes) :
    (x ∈ L.nextOf h → L.pendingParents hashes (done ++ [x]) h + 1 =
      L.pendingParents hashes done h) ∧
    (x ∉ L.nextOf h → L.pendingParents hashes (done ++ [x]) h =
      L.pendingParents hashes done h) := by
  rw [← openLinks_eq hnd hh, ← openLinks_eq hnd hh]
  exact openLinks_concat hx hxd

theorem length_le_size {hashes : HashSet Hash} {l : List Hash} (hl : l.Nodup)
    (hsub : ∀ x ∈ l, x ∈ hashes) : l.length ≤ hashes.size := by
  rw [← Std.ExtTreeSet.length_toList]
  exact (List.subperm_of_subset hl fun x hx => Std.ExtTreeSet.mem_toList.mpr (hsub x hx)).length_le

/-- What popping `x` adds to the queue: its children in the subset with no parent left to
wait for, sorted. -/
def released (self : OpLog) (hashes : HashSet Hash) (done : List Hash) (x : Hash) : List Hash :=
  self.sortReady ((self.childrenOf x).toList.filter fun y =>
    hashes.contains y && self.pendingParents hashes (done ++ [x]) y == 0)

theorem WellFormed.mem_childrenOf [Crates] (hL : L.WellFormed) {x y : Hash} :
    y ∈ L.childrenOf x ↔ x ∈ L.nextOf y :=
  (hL.rep.children x y).trans mem_nextOf.symm

theorem mem_released [Crates] (hL : L.WellFormed) {hashes : HashSet Hash} {done : List Hash}
    {x y : Hash} : y ∈ L.released hashes done x ↔
      x ∈ L.nextOf y ∧ y ∈ hashes ∧ L.pendingParents hashes (done ++ [x]) y = 0 := by
  rw [released, sortReady, List.mem_insertionSort, List.mem_filter, Std.ExtTreeSet.mem_toList,
    hL.mem_childrenOf]
  simp

/-- **One pop.** With the in-degrees counting open links, the loop lists the first hash of the
queue and appends its children in the subset with no link left open. -/
theorem topoLoop_pop [Crates] (hL : L.WellFormed) {hashes : HashSet Hash} (fuel : ℕ)
    (queue : List Hash) {deg : HashMap Hash ℕ} {done : List Hash} {x : Hash} (hx : x ∈ hashes)
    (hxd : x ∉ done) (hdeg : ∀ h ∈ hashes, deg[h]? = some (L.openLinks hashes done h)) :
    ∃ deg', L.topoLoop hashes (fuel + 1) (x :: queue) deg done =
        L.topoLoop hashes fuel (queue ++ L.sortReady ((L.childrenOf x).toList.filter fun y =>
          hashes.contains y && L.openLinks hashes (done ++ [x]) y == 0)) deg' (done ++ [x]) ∧
      ∀ h ∈ hashes, deg'[h]? = some (L.openLinks hashes (done ++ [x]) h) := by
  have hopen := fun h => openLinks_concat (L := L) (h := h) hx hxd
  cases hc : L.children[x]? with
  | none =>
    have hno : L.childrenOf x = ∅ := by rw [childrenOf, hc, Option.getD_none]
    have hnone : L.sortReady ((L.childrenOf x).toList.filter fun y =>
        hashes.contains y && L.openLinks hashes (done ++ [x]) y == 0) = [] := by
      rw [hno]
      rfl
    refine ⟨deg, by simp [topoLoop, hc, hnone], fun h hh => ?_⟩
    have hnot : x ∉ L.nextOf h := fun hmem => by
      have := hL.mem_childrenOf.mpr hmem
      rw [hno] at this
      exact Std.ExtTreeSet.not_mem_empty this
    rw [(hopen h).2 hnot]
    exact hdeg h hh
  | some ch =>
    have hch : L.childrenOf x = ch := by rw [childrenOf, hc, Option.getD_some]
    have hmemch : ∀ y, y ∈ ch.toList ↔ x ∈ L.nextOf y := fun y => by
      rw [Std.ExtTreeSet.mem_toList, ← hch, hL.mem_childrenOf]
    obtain ⟨hdeg', hready⟩ := releaseChildren_spec HashSet.nodup_toList hdeg
    have hrel : ((L.childrenOf x).toList.filter fun y =>
        hashes.contains y && L.openLinks hashes (done ++ [x]) y == 0) =
          (releaseChildren hashes ch.toList deg).2 := by
      rw [hch, hready]
      refine List.filter_congr fun y hy => ?_
      rw [← (hopen y).1 ((hmemch y).mp hy)]
      simp [usizePred]
    refine ⟨(releaseChildren hashes ch.toList deg).1, by simp [topoLoop, hc, hrel], fun h hh => ?_⟩
    rw [hdeg' h hh]
    by_cases hhx : x ∈ L.nextOf h
    · rw [if_pos ((hmemch h).mpr hhx), ← (hopen h).1 hhx]
      simp [usizePred]
    · rw [if_neg (fun h' => hhx ((hmemch h).mp h')), (hopen h).2 hhx]

/-- The same with the in-degrees counting pending parents. -/
theorem topoLoop_step [Crates] (hL : L.WellFormed) {hashes : HashSet Hash}
    (hnd : L.NextNodupIn hashes) (fuel : ℕ) (queue : List Hash) {deg : HashMap Hash ℕ}
    {done : List Hash} {x : Hash} (hx : x ∈ hashes) (hxd : x ∉ done)
    (hdeg : ∀ h ∈ hashes, deg[h]? = some (L.pendingParents hashes done h)) :
    ∃ deg', L.topoLoop hashes (fuel + 1) (x :: queue) deg done =
        L.topoLoop hashes fuel (queue ++ L.released hashes done x) deg' (done ++ [x]) ∧
      ∀ h ∈ hashes, deg'[h]? = some (L.pendingParents hashes (done ++ [x]) h) := by
  obtain ⟨deg', hloop, hdeg'⟩ := topoLoop_pop hL fuel queue hx hxd fun h hh => by
    rw [openLinks_eq hnd hh, hdeg h hh]
  refine ⟨deg', ?_, fun h hh => by rw [hdeg' h hh, openLinks_eq hnd hh]⟩
  have hreleased : ((L.childrenOf x).toList.filter fun y =>
      hashes.contains y && L.openLinks hashes (done ++ [x]) y == 0) =
        (L.childrenOf x).toList.filter fun y =>
          hashes.contains y && L.pendingParents hashes (done ++ [x]) y == 0 := by
    refine List.filter_congr fun y _ => ?_
    cases hy : hashes.contains y with
    | false => rfl
    | true => rw [openLinks_eq hnd (Std.ExtTreeSet.contains_iff_mem.mp hy)]
  rw [hloop, hreleased, released]

/-- **The loop of Kahn's algorithm.** With the in-degrees counting pending parents, the loop
is a run of the algorithm; it lists its subset without repetition, parents first. -/
theorem topoLoop_spec [Crates] (hL : L.WellFormed) {hashes : HashSet Hash}
    (hnd : L.NextNodupIn hashes) (fuel : ℕ) (queue : List Hash) (deg : HashMap Hash ℕ) (done : List Hash)
    (hfuel : hashes.size ≤ fuel + done.length)
    (hinv : Dag.KahnInv L.nextOf (· ∈ hashes) done queue)
    (hdeg : ∀ h ∈ hashes, deg[h]? = some (L.pendingParents hashes done h)) :
    Dag.KahnRun (L.released hashes) done queue (L.topoLoop hashes fuel queue deg done) ∧
      Dag.KahnInv L.nextOf (· ∈ hashes) (L.topoLoop hashes fuel queue deg done) [] := by
  have hsub : ∀ y ∈ done ++ queue, y ∈ hashes := fun y hy => ((hinv.mem_iff y).mp hy).1
  induction fuel generalizing queue deg done with
  | zero =>
    -- out of pops: everything is listed, so nothing can be queued
    have hlen := length_le_size hinv.nodup hsub
    rw [List.length_append] at hlen
    obtain rfl := List.eq_nil_of_length_eq_zero (l := queue) (by omega)
    exact ⟨.finish _, hinv⟩
  | succ fuel ih =>
    cases queue with
    | nil => exact ⟨.finish _, hinv⟩
    | cons x queue =>
      have hx : x ∈ hashes := hsub x (by simp)
      have hxd : x ∉ done := fun hxd =>
        (List.disjoint_of_nodup_append hinv.nodup) hxd List.mem_cons_self
      obtain ⟨deg', hloop, hdeg'⟩ := topoLoop_step hL hnd fuel queue hx hxd hdeg
      have hrnd : (L.released hashes done x).Nodup := by
        rw [released, sortReady, (List.perm_insertionSort _ _).nodup_iff]
        exact HashSet.nodup_toList.filter _
      have hinv' := hinv.step hrnd fun y => by
        rw [mem_released hL, ready_iff, ready_iff]
        by_cases hyS : y ∈ hashes
        · have hpend := pendingParents_concat hnd hx hxd hyS
          by_cases hyx : x ∈ L.nextOf y
          · rw [← hpend.1 hyx]
            simp [hyx]
          · rw [hpend.2 hyx]
            simp [hyx]
        · simp [hyS]
      rw [hloop]
      obtain ⟨hrun, hdone⟩ := ih (queue ++ L.released hashes done x) deg' (done ++ [x]) (by
        rw [List.length_append, List.length_singleton]
        omega) hinv' hdeg' fun y hy => ((hinv'.mem_iff y).mp hy).1
      exact ⟨.pop hrun, hdone⟩

/-- The queue a topological sort starts from: what has no parent in the subset, sorted. -/
def startQueue (self : OpLog) (hashes : HashSet Hash) : List Hash :=
  self.sortReady (hashes.toList.filter fun h => self.pendingParents hashes [] h == 0)

/-- A topological sort is a run of Kahn's algorithm. -/
theorem topoHashes_run [Crates] (hL : L.WellFormed) {hashes : HashSet Hash}
    (hnd : L.NextNodupIn hashes) :
    Dag.KahnRun (L.released hashes) [] (L.startQueue hashes) (L.topoHashes hashes) ∧
      Dag.KahnInv L.nextOf (· ∈ hashes) (L.topoHashes hashes) [] := by
  have hdeg : ∀ h ∈ hashes, (L.inDegrees hashes)[h]? =
      some (L.pendingParents hashes [] h) := fun h hh => by
    rw [getElem?_inDegrees, if_pos hh, pendingParents]
    simp
  have hstart : L.sortReady (hashes.toList.filter fun h => (L.inDegrees hashes)[h]? == some 0) =
      L.startQueue hashes := by
    rw [startQueue]
    congr 1
    refine List.filter_congr fun h hh => ?_
    rw [hdeg h (Std.ExtTreeSet.mem_toList.mp hh)]
    rfl
  rw [topoHashes, hstart]
  refine topoLoop_spec hL hnd _ _ _ [] (by simp) (.init ?_ fun x => ?_) hdeg
  · rw [startQueue, sortReady, (List.perm_insertionSort _ _).nodup_iff]
    exact HashSet.nodup_toList.filter _
  · rw [startQueue, sortReady, List.mem_insertionSort, List.mem_filter,
      Std.ExtTreeSet.mem_toList, ready_iff, beq_iff_eq]

/-- **Topological sort.** On a well-formed log, where no member of the subset names a parent in
it twice, `topo_sort` lists its subset without repetition and parents first. -/
theorem topoHashes_spec [Crates] (hL : L.WellFormed) {hashes : HashSet Hash}
    (hnd : L.NextNodupIn hashes) :
    (L.topoHashes hashes).Nodup ∧ (∀ h, h ∈ L.topoHashes hashes ↔ h ∈ hashes) ∧
    Dag.ParentsFirst L.nextOf (· ∈ hashes) (L.topoHashes hashes) := by
  have hinv := (topoHashes_run hL hnd).2
  exact ⟨by simpa using hinv.nodup, hinv.complete hL.causal, hinv.parentsFirst⟩

/-- Looking up hashes that are all stored. -/
theorem mapM_get (hs : List Hash) (hhs : ∀ h ∈ hs, h ∈ L.entries) :
    ∃ es, (hs.mapM fun h => L.entries[h]?) = some es ∧
      List.Forall₂ (fun h e => L.entries[h]? = some e) hs es := by
  induction hs with
  | nil => exact ⟨[], rfl, .nil⟩
  | cons h hs ih =>
    obtain ⟨es, hes, hall⟩ := ih fun h' hh' => hhs h' (List.mem_cons_of_mem _ hh')
    obtain ⟨e, he⟩ := HashMap.mem_iff_getElem?.mp (hhs h List.mem_cons_self)
    exact ⟨e :: es, by simp [List.mapM_cons, he, hes], .cons he hall⟩

theorem map_hash_of_forall₂ [Crates] (hL : L.WellFormed) {hs : List Hash} {es : List Entry}
    (hf : List.Forall₂ (fun h e => L.entries[h]? = some e) hs es) :
    es.map Entry.hash = hs ∧ ∀ e ∈ es, L.entries[e.hash]? = some e := by
  have hkeyed : ∀ h (e : Entry), L.entries[h]? = some e → e.hash = h := fun h e he =>
    (hL.rep.keyed h e he).1
  induction hf with
  | nil => simp
  | cons he _ ih =>
    refine ⟨by rw [List.map_cons, hkeyed _ _ he, ih.1], ?_⟩
    rintro e (_ | ⟨_, hmem⟩)
    · rw [hkeyed _ _ he]
      exact he
    · exact ih.2 e hmem

/-- A topological sort of stored hashes does not panic and returns the stored entries. -/
theorem topoSort_spec [Crates] (hL : L.WellFormed) {hashes : HashSet Hash}
    (hnd : L.NextNodupIn hashes) (hs : ∀ h ∈ hashes, h ∈ L.entries) :
    ∃ es, L.topoSort hashes = some es ∧ es.map Entry.hash = L.topoHashes hashes ∧
      ∀ e ∈ es, L.entries[e.hash]? = some e := by
  have hall : (hashes.toList.all fun h => L.entries.contains h) = true := by
    simpa using hs
  obtain ⟨es, hes, hf⟩ := mapM_get (L.topoHashes hashes) fun h hh =>
    hs h (((topoHashes_spec hL hnd).2.1 h).mp hh)
  exact ⟨es, by rw [topoSort, if_pos hall, hes], map_hash_of_forall₂ hL hf⟩

/-- **The whole log, in order.** With `refs` inside the log, `entries_since(None)` returns
every stored entry exactly once, parents first. -/
theorem entriesSince_none_spec [Crates] (hL : L.WellFormed) (hnd : L.NextNodup)
    (hr : L.RefsStored) :
    ∃ es, L.entriesSince none = some es ∧ (es.map Entry.hash).Nodup ∧
      (∀ e : Entry, e ∈ es ↔ L.entries[e.hash]? = some e) ∧
      Dag.ParentsFirst L.nextOf (· ∈ L.entries) (es.map Entry.hash) := by
  have hreach := fun h => hL.mem_reachableFrom_heads (h := h) hr
  have hstored : ∀ h ∈ L.reachableFrom L.heads.toList, h ∈ L.entries := fun h => (hreach h).mp
  obtain ⟨es, hes, hmap, hget⟩ := topoSort_spec hL (hnd.within _) hstored
  obtain ⟨h1, h2, h3⟩ := topoHashes_spec hL (hnd.within (L.reachableFrom L.heads.toList))
  refine ⟨es, by rw [entriesSince, hes], hmap ▸ h1, fun e => ⟨hget e, fun he => ?_⟩, ?_⟩
  · have hmem : e.hash ∈ es.map Entry.hash := by
      rw [hmap, h2, hreach]
      exact HashMap.mem_iff_getElem?.mpr ⟨e, he⟩
    obtain ⟨e', he', heq⟩ := List.mem_map.mp hmem
    have := hget e' he'
    rw [heq, he] at this
    exact (Option.some.inj this) ▸ he'
  · rw [hmap]
    intro pre x post h p hp hpS
    exact h3 pre x post h p hp ((hreach p).mpr hpS)

end OpLog

end SilkGraph
