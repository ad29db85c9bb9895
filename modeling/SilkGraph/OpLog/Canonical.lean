import SilkGraph.OpLog.Order

/-!
# The topological order is canonical

`topo_sort` walks hash maps and hash sets, whose iteration order is not the same in two
processes, or in two logs that were built in different orders. `topoSortIn` is `topo_sort` with
these walks made explicit. Whatever is collected in a walk is sorted by time and hash before it
is used, and the counts of a walk do not depend on its order, so every walk leads to the same
sequence (`topoSortIn_eq`). That sequence is determined by the entries of the log alone
(`topo_sort_canonical`).
-/

namespace SilkGraph

namespace OpLog

section

variable {L : OpLog} {hashes : HashSet Hash}

/-! ### The walks of `topo_sort` -/

/-- In-degrees of the subset, counted in a walk over it. -/
def inDegreesIn (self : OpLog) (σ : HashOrder) (hashes : HashSet Hash) : HashMap Hash ℕ :=
  (σ.walk hashes.toList).foldl
    (fun deg h => deg.insert h ((self.nextOf h).countP fun p => hashes.contains p)) ∅

/-- The main loop of Kahn's algorithm, which walks the children of every popped entry. -/
def topoLoopIn (self : OpLog) (σ : HashOrder) (hashes : HashSet Hash) :
    ℕ → List Hash → HashMap Hash ℕ → List Hash → List Hash
  | 0, _, _, result => result
  | _ + 1, [], _, result => result
  | fuel + 1, h :: queue, deg, result =>
    let result := result ++ [h]
    match self.children[h]? with
    | none => self.topoLoopIn σ hashes fuel queue deg result
    | some ch =>
      let (deg', ready) := releaseChildren hashes (σ.walk ch.toList) deg
      self.topoLoopIn σ hashes fuel (queue ++ self.sortReady ready) deg' result

/-- The hashes of the result, the first queue collected in a walk over the in-degrees. -/
def topoHashesIn (self : OpLog) (σ : HashOrder) (hashes : HashSet Hash) : List Hash :=
  let deg := self.inDegreesIn σ hashes
  let queue := self.sortReady (((σ.walk deg.toList).filter fun hd => hd.2 == 0).map Prod.fst)
  self.topoLoopIn σ hashes hashes.size queue deg []

/-- `topo_sort` with the iteration order of its maps and sets. -/
def topoSortIn (self : OpLog) (σ : HashOrder) (hashes : HashSet Hash) : Option (List Entry) :=
  if hashes.toList.all fun h => self.entries.contains h then
    (self.topoHashesIn σ hashes).mapM fun h => self.entries[h]?
  else none

/-! ### Every walk counts the same -/

/-- Counts do not depend on the order of the walk. -/
theorem inDegreesIn_eq (L : OpLog) (σ : HashOrder) (hashes : HashSet Hash) :
    L.inDegreesIn σ hashes = L.inDegrees hashes := by
  refine (σ.perm hashes.toList).foldl_eq' (fun a _ b _ deg => ?_) ∅
  refine Std.ExtTreeMap.ext_getElem? fun {k} => ?_
  rw [HashMap.getElem?_insert, HashMap.getElem?_insert, HashMap.getElem?_insert,
    HashMap.getElem?_insert]
  by_cases ha : a = k
  · by_cases hb : b = k <;> simp [ha, hb]
  · simp [ha]

/-- The counts after one child has lost an in-degree. -/
def lowered (hashes : HashSet Hash) (deg : HashMap Hash ℕ) (child : Hash) : HashMap Hash ℕ :=
  if hashes.contains child then
    match deg[child]? with
    | some d => deg.insert child (usizePred d)
    | none => deg
  else deg

/-- The child, if it is ready then. -/
def freed (hashes : HashSet Hash) (deg : HashMap Hash ℕ) (child : Hash) : List Hash :=
  if hashes.contains child && (deg[child]?.map usizePred == some 0) then [child] else []

theorem releaseChildren_cons (c : Hash) (ch : List Hash) (deg : HashMap Hash ℕ) :
    releaseChildren hashes (c :: ch) deg = ((releaseChildren hashes ch (lowered hashes deg c)).1,
      freed hashes deg c ++ (releaseChildren hashes ch (lowered hashes deg c)).2) := by
  rw [releaseChildren, lowered, freed]
  cases hashes.contains c with
  | false => rfl
  | true =>
    cases deg[c]? with
    | none => rfl
    | some d => by_cases hd : usizePred d = 0 <;> simp [hd]

theorem getElem?_lowered (deg : HashMap Hash ℕ) (c k : Hash) : (lowered hashes deg c)[k]? =
    if c = k ∧ hashes.contains c = true then deg[k]?.map usizePred else deg[k]? := by
  rw [lowered]
  split <;> rename_i hc
  · cases hd : deg[c]? with
    | none =>
      by_cases hk : c = k
      · subst hk
        simp [hc, hd]
      · simp [hk]
    | some d =>
      dsimp only
      rw [HashMap.getElem?_insert]
      by_cases hk : c = k
      · subst hk
        simp [hc, hd]
      · simp [hk]
  · simp [hc]

theorem lowered_comm (deg : HashMap Hash ℕ) (a b : Hash) :
    lowered hashes (lowered hashes deg a) b = lowered hashes (lowered hashes deg b) a := by
  refine Std.ExtTreeMap.ext_getElem? fun {k} => ?_
  simp only [getElem?_lowered]
  split <;> split <;> rfl

theorem freed_lowered {a b : Hash} (hne : a ≠ b) (deg : HashMap Hash ℕ) :
    freed hashes (lowered hashes deg a) b = freed hashes deg b := by
  rw [freed, freed, getElem?_lowered]
  simp only [hne, false_and, if_false]

/-- Children are released in any order: the counts are the same, and so are the ready ones. -/
theorem releaseChildren_perm {ch ch' : List Hash} (hperm : ch.Perm ch') (hnd : ch.Nodup)
    (deg : HashMap Hash ℕ) :
    (releaseChildren hashes ch deg).1 = (releaseChildren hashes ch' deg).1 ∧
      (releaseChildren hashes ch deg).2.Perm (releaseChildren hashes ch' deg).2 := by
  induction hperm generalizing deg with
  | nil => exact ⟨rfl, .refl _⟩
  | cons c _ ih =>
    obtain ⟨h1, h2⟩ := ih (List.nodup_cons.mp hnd).2 (lowered hashes deg c)
    rw [releaseChildren_cons, releaseChildren_cons]
    exact ⟨h1, h2.append_left _⟩
  | swap a b l =>
    have hne : b ≠ a := fun h => (List.nodup_cons.mp hnd).1 (h ▸ List.mem_cons_self)
    simp only [releaseChildren_cons]
    rw [lowered_comm, freed_lowered hne, freed_lowered hne.symm]
    refine ⟨rfl, ?_⟩
    rw [← List.append_assoc, ← List.append_assoc]
    exact List.perm_append_comm.append_right _
  | trans h₁ _ ih₁ ih₂ =>
    obtain ⟨h1, h2⟩ := ih₁ hnd deg
    obtain ⟨h3, h4⟩ := ih₂ (h₁.nodup_iff.mp hnd) deg
    exact ⟨h1.trans h3, h2.trans h4⟩

/-- The released children lie in the subset. -/
theorem mem_of_releaseChildren {ch : List Hash} {deg : HashMap Hash ℕ} {c : Hash}
    (hc : c ∈ (releaseChildren hashes ch deg).2) : c ∈ hashes := by
  induction ch generalizing deg with
  | nil => cases hc
  | cons a ch ih =>
    rw [releaseChildren_cons] at hc
    obtain hc | hc := List.mem_append.mp hc
    · rw [freed] at hc
      split at hc <;> rename_i hmem
      · obtain rfl := List.mem_singleton.mp hc
        simpa using (Bool.and_eq_true_iff.mp hmem).1
      · cases hc
    · exact ih hc

/-! ### Every walk sorts the same -/

/-- Stored hashes are sorted into one sequence, in whatever order they come. -/
theorem sortReady_perm {l l' : List Hash} (hl : ∀ h ∈ l, h ∈ L.entries) (hperm : l.Perm l') :
    L.sortReady l = L.sortReady l' := by
  have h := filter_sortReady (A := L) (fun _ => true) hl (fun h hh => hl h (hperm.mem_iff.mpr hh))
    (fun _ _ => rfl) (by rw [List.filter_true]; exact hperm)
  rwa [List.filter_true] at h

theorem topoLoopIn_eq (σ : HashOrder) (hs : ∀ h ∈ hashes, h ∈ L.entries) (fuel : ℕ)
    (queue : List Hash) (deg : HashMap Hash ℕ) (result : List Hash) :
    L.topoLoopIn σ hashes fuel queue deg result = L.topoLoop hashes fuel queue deg result := by
  induction fuel generalizing queue deg result with
  | zero => rfl
  | succ fuel ih =>
    cases queue with
    | nil => rfl
    | cons h queue =>
      rw [topoLoopIn, topoLoop]
      cases L.children[h]? with
      | none => exact ih ..
      | some ch =>
        obtain ⟨hdeg, hready⟩ := @releaseChildren_perm hashes _ _ (σ.perm ch.toList).symm
          HashSet.nodup_toList deg
        have hsort := sortReady_perm (L := L) (fun c hc => hs c (mem_of_releaseChildren hc)) hready
        dsimp only
        rw [ih, hdeg, hsort]

/-- **Walks.** `topo_sort` returns the same in whatever order it walks its maps and sets. -/
theorem topoSortIn_eq (L : OpLog) (σ : HashOrder) (hashes : HashSet Hash) :
    L.topoSortIn σ hashes = L.topoSort hashes := by
  rw [topoSortIn, topoSort]
  split <;> rename_i hall
  · have hs : ∀ h ∈ hashes, h ∈ L.entries := by simpa using hall
    have hdeg := L.inDegreesIn_eq σ hashes
    -- both start with the hashes whose count is zero
    have hstart : (((σ.walk (L.inDegrees hashes).toList).filter fun hd => hd.2 == 0).map Prod.fst).Perm
        (hashes.toList.filter fun h => (L.inDegrees hashes)[h]? == some 0) := by
      refine (List.perm_ext_iff_of_nodup ?_ (HashSet.nodup_toList.filter _)).mpr fun h => ?_
      · refine (List.filter_sublist.map Prod.fst).nodup ?_
        rw [((σ.perm (L.inDegrees hashes).toList).map Prod.fst).nodup_iff,
          Std.ExtTreeMap.map_fst_toList_eq_keys]
        exact Std.ExtTreeMap.nodup_keys
      · simp only [List.mem_map, List.mem_filter, HashOrder.mem_walk, Prod.exists, HashMap.mem_toList,
          Std.ExtTreeSet.mem_toList, beq_iff_eq]
        constructor
        · rintro ⟨h', d, ⟨hget, hd⟩, rfl⟩
          rw [hd] at hget
          rw [getElem?_inDegrees] at hget
          split at hget
          · rename_i hmem
            exact ⟨hmem, by rw [getElem?_inDegrees, if_pos hmem, hget]⟩
          · cases hget
        · rintro ⟨-, hget⟩
          exact ⟨h, 0, ⟨hget, rfl⟩, rfl⟩
    have hstored : ∀ h ∈ hashes.toList.filter fun h => (L.inDegrees hashes)[h]? == some 0,
        h ∈ L.entries := fun h hh => hs h (Std.ExtTreeSet.mem_toList.mp (List.mem_of_mem_filter hh))
    have hqueue := sortReady_perm hstored hstart.symm
    rw [topoHashesIn, topoHashes, hdeg]
    rw [← hqueue, topoLoopIn_eq σ hs]
  · rfl

/-! ### Logs that hold the same entries -/

variable [Crates]

/-- The causal order of what is sorted: each member once, after its parents among them. -/
structure CausalListing (L : OpLog) (hashes : HashSet Hash) (sorted : List Entry) : Prop where
  nodup : (sorted.map Entry.hash).Nodup
  stored : ∀ e ∈ sorted, L.entries[e.hash]? = some e
  complete : ∀ h, h ∈ sorted.map Entry.hash ↔ h ∈ hashes
  parentsFirst : ∀ pre e post, sorted = pre ++ e :: post →
    ∀ p ∈ e.next, p ∈ hashes → p ∈ pre.map Entry.hash

/-- **Topological sort.** Every subset is listed in causal order. -/
theorem topoSort_causal (hL : L.WellFormed) (hnd : L.NextNodup) (hs : ∀ h ∈ hashes, h ∈ L.entries) :
    ∃ sorted, L.topoSort hashes = some sorted ∧ L.CausalListing hashes sorted := by
  obtain ⟨sorted, hsort, hmap, hget⟩ := topoSort_spec hL (hnd.within _) hs
  obtain ⟨h1, h2, h3⟩ := topoHashes_spec hL (hnd.within hashes)
  rw [← hmap] at h1 h2 h3
  refine ⟨sorted, hsort, h1, hget, h2, fun pre e post heq p hp hph => ?_⟩
  have hin : e ∈ sorted := heq ▸ List.mem_append_right pre List.mem_cons_self
  have hnext : L.nextOf e.hash = e.next := nextOf_eq_of_get (hget e hin)
  refine h3 (pre.map Entry.hash) e.hash (post.map Entry.hash) ?_ p (hnext ▸ hp) hph
  rw [heq, List.map_append, List.map_cons]

/-- **One sequence.** The listing depends on the entries of the log alone. -/
theorem topoSort_congr {L' : OpLog} (hL : L.WellFormed) (hL' : L'.WellFormed) (hnd : L.NextNodup)
    (same : ∀ h : Hash, L.entries[h]? = L'.entries[h]?) (hashes : HashSet Hash) :
    L.topoSort hashes = L'.topoSort hashes := by
  have hentries : L.entries = L'.entries := Std.ExtTreeMap.ext_getElem? fun {h} => same h
  have hnd' : L'.NextNodup := fun h e he => hnd h e ((same h).trans he)
  -- what Kahn's algorithm asks of a log, it can read off the entries
  have hnext : L.nextOf = L'.nextOf := funext fun h => by
    rw [nextOf, nextOf, get, get, hentries]
  have hsort : L.sortReady = L'.sortReady := funext fun l => by
    have hle : L.readyLE = L'.readyLE := funext fun a => funext fun b => by
      rw [readyLE, readyLE, hentries]
    rw [sortReady, sortReady, hle]
  have hpending : L.pendingParents hashes = L'.pendingParents hashes := funext fun done =>
    funext fun h => by rw [pendingParents, pendingParents, hnext]
  have hchildren : ∀ x, L.childrenOf x = L'.childrenOf x := fun x =>
    Std.ExtTreeSet.ext_mem fun y => by rw [hL.mem_childrenOf, hL'.mem_childrenOf, hnext]
  have hreleased : L.released hashes = L'.released hashes := funext fun done => funext fun x => by
    rw [released, released, hsort, hchildren, hpending]
  have hrun := (topoHashes_run hL (hnd.within hashes)).1
  have hrun' := (topoHashes_run hL' (hnd'.within hashes)).1
  rw [hreleased, startQueue, hsort, hpending] at hrun
  rw [topoSort, topoSort, hentries, hrun.unique hrun']

/-- **Topological order is canonical and causal.** Two logs that were built by appends in
different orders, and hold the same entries, list every subset of them in one sequence, in
whatever order they walk their maps. It has every member once, after its parents. -/
theorem topo_sort_canonical {g g' : Entry} (hg : g.verifyHash) (hroot : g.next = [])
    (hg' : g'.verifyHash) (hroot' : g'.next = []) (es es' : List Entry)
    (hnd : ((new g).appendAll es).NextNodup)
    (same : ∀ h : Hash, ((new g).appendAll es).entries[h]? = ((new g').appendAll es').entries[h]?)
    (σ σ' : HashOrder) (hashes : HashSet Hash)
    (hs : ∀ h ∈ hashes, h ∈ ((new g).appendAll es).entries) :
    ∃ sorted, ((new g).appendAll es).topoSortIn σ hashes = some sorted ∧
      ((new g').appendAll es').topoSortIn σ' hashes = some sorted ∧
      ((new g).appendAll es).CausalListing hashes sorted := by
  have hL := (WellFormed.new hg hroot).appendAll es
  have hL' := (WellFormed.new hg' hroot').appendAll es'
  obtain ⟨sorted, hsort, hcausal⟩ := topoSort_causal hL hnd hs
  refine ⟨sorted, ?_, ?_, hcausal⟩
  · rw [topoSortIn_eq, hsort]
  · rw [topoSortIn_eq, ← topoSort_congr hL hL' hnd same, hsort]

omit [Crates] in
/-- Logs with entries of one pool, told apart by their hashes, agree if they have the same
keys. -/
theorem same_of_keys {A B : OpLog} {pool : List Entry} (hpool : (pool.map Entry.hash).Nodup)
    (hA : A.All fun h e => e.hash = h ∧ e ∈ pool) (hB : B.All fun h e => e.hash = h ∧ e ∈ pool)
    (hkeys : A.entries.keys = B.entries.keys) (h : Hash) : A.entries[h]? = B.entries[h]? := by
  have hmem : h ∈ A.entries ↔ h ∈ B.entries := by
    rw [← Std.ExtTreeMap.mem_keys, hkeys, Std.ExtTreeMap.mem_keys]
  cases ha : A.entries[h]? with
  | none => exact (HashMap.not_mem_iff_getElem?.mp (mt hmem.mpr (HashMap.not_mem_iff_getElem?.mpr ha))).symm
  | some a =>
    obtain ⟨b, hb⟩ := HashMap.mem_iff_getElem?.mp (hmem.mp (HashMap.mem_iff_getElem?.mpr ⟨a, ha⟩))
    obtain ⟨hah, hap⟩ := hA h a ha
    obtain ⟨hbh, hbp⟩ := hB h b hb
    rw [hb, List.inj_on_of_nodup_map hpool hap hbp (hah.trans hbh.symm)]

end

open Sample in
/-- A fork, its two branches appended in either order, the maps walked forwards and backwards. -/
theorem topo_sort_canonical_fork :
    let g := Entry.new (.removeNode "a") [] [] ⟨"ann", 1, 0⟩ "ann"
    let l := Entry.new (.removeNode "l") [g.hash] [] ⟨"ann", 2, 0⟩ "ann"
    let r := Entry.new (.removeNode "r") [g.hash] [] ⟨"ann", 3, 0⟩ "ann"
    let A := (new g).appendAll [l, r]
    let B := (new g).appendAll [r, l]
    let hashes : HashSet Hash := Std.ExtTreeSet.ofList [r.hash, g.hash] compare
    ∃ sorted, A.topoSortIn .keyOrder hashes = some sorted ∧
      B.topoSortIn ⟨List.reverse, List.reverse_perm⟩ hashes = some sorted ∧
      sorted.map Entry.hash = [g.hash, r.hash] := by
  intro g l r A B hashes
  have hA : A.All fun h e => e.hash = h ∧ e ∈ [g, l, r] :=
    ((All.new ⟨rfl, by simp⟩).append ⟨rfl, by simp⟩).append ⟨rfl, by simp⟩
  have hB : B.All fun h e => e.hash = h ∧ e ∈ [g, l, r] :=
    ((All.new ⟨rfl, by simp⟩).append ⟨rfl, by simp⟩).append ⟨rfl, by simp⟩
  have hnd : A.NextNodup := fun h e he => by
    have hpool : ∀ e ∈ [g, l, r], e.next.Nodup := by decide +kernel
    exact hpool e (hA h e he).2
  have hstored : ∀ h ∈ hashes, h ∈ A.entries := fun h hh => by
    have hlist : (hashes.toList.all fun h => A.entries.contains h) = true := by decide +kernel
    exact Std.ExtTreeMap.contains_iff_mem.mp (List.all_eq_true.mp hlist h (Std.ExtTreeSet.mem_toList.mpr hh))
  obtain ⟨sorted, hsort, hsort', -⟩ := topo_sort_canonical (Entry.verifyHash_new ..) rfl
    (Entry.verifyHash_new ..) rfl [l, r] [r, l] hnd
    (same_of_keys (by decide +kernel) hA hB (by decide +kernel)) .keyOrder
    ⟨List.reverse, List.reverse_perm⟩ hashes hstored
  refine ⟨sorted, hsort, hsort', ?_⟩
  have hhashes : (A.topoSortIn .keyOrder hashes).map (fun es => es.map Entry.hash) =
      some [g.hash, r.hash] := by decide +kernel
  rw [hsort] at hhashes
  exact Option.some.inj hhashes

end OpLog

end SilkGraph
