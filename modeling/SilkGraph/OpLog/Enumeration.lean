import SilkGraph.OpLog.Traversal

/-!
# What the log enumerates

`append` looks at `next` only, and only at whether the parents are there. Two things it lets
pass decide whether the traversals work: a `refs` hash that is not in the log is followed
like any other link, and `topo_sort` panics at it; a parent named twice counts twice in the
in-degree and is taken off once, so the entry is never listed.

On a log that starts from a parentless genesis these are the only two (`enumerates_iff`). One
direction is the correctness of the traversals (`entriesSince_none_spec`). The other needs
Kahn's algorithm on any parent lists: an entry is listed only if its in-degree reaches zero,
and `openLinks` counts what is left of it.
-/

namespace SilkGraph

namespace OpLog

variable {L : OpLog} {h x : Hash} {hashes : HashSet Hash} {done : List Hash}

/-- **Kahn's loop on any parent lists.** Nothing is listed twice, what is queued is listed,
and what is listed is in the subset and names no parent in it twice. -/
theorem topoLoop_any [Crates] (hL : L.WellFormed) (fuel : ℕ) (queue : List Hash)
    (deg : HashMap Hash ℕ) (done : List Hash) (hfuel : hashes.size ≤ fuel + done.length)
    (hnd : (done ++ queue).Nodup)
    (hzero : ∀ y ∈ done ++ queue, y ∈ hashes ∧ L.openLinks hashes done y = 0)
    (hdone : ∀ y ∈ done, ((L.nextOf y).filter fun p => hashes.contains p).Nodup)
    (hdeg : ∀ y ∈ hashes, deg[y]? = some (L.openLinks hashes done y)) :
    (L.topoLoop hashes fuel queue deg done).Nodup ∧
      (∀ y ∈ done ++ queue, y ∈ L.topoLoop hashes fuel queue deg done) ∧
      ∀ y ∈ L.topoLoop hashes fuel queue deg done, y ∈ hashes ∧
        ((L.nextOf y).filter fun p => hashes.contains p).Nodup := by
  have hempty : queue = [] → done.Nodup ∧ (∀ y ∈ done ++ queue, y ∈ done) ∧
      ∀ y ∈ done, y ∈ hashes ∧ ((L.nextOf y).filter fun p => hashes.contains p).Nodup := by
    rintro rfl
    rw [List.append_nil] at hnd
    exact ⟨hnd, by simp, fun y hy => ⟨(hzero y (by simp [hy])).1, hdone y hy⟩⟩
  induction fuel generalizing queue deg done with
  | zero =>
    -- out of pops: everything is listed, so nothing can be queued
    have hlen := length_le_size hnd fun y hy => (hzero y hy).1
    rw [List.length_append] at hlen
    exact hempty (List.eq_nil_of_length_eq_zero (by omega))
  | succ fuel ih =>
    cases queue with
    | nil => exact hempty rfl
    | cons x queue =>
      obtain ⟨hx, hx0⟩ := hzero x (by simp)
      have hxd : x ∉ done := fun hxd =>
        (List.disjoint_of_nodup_append hnd) hxd List.mem_cons_self
      have hpop := fun y => openLinks_concat (L := L) (h := y) hx hxd
      let ready := L.sortReady ((L.childrenOf x).toList.filter fun y =>
        hashes.contains y && L.openLinks hashes (done ++ [x]) y == 0)
      obtain ⟨deg', hloop, hdeg'⟩ := topoLoop_pop hL fuel queue hx hxd hdeg
      have hrnd : ready.Nodup :=
        (List.perm_insertionSort _ _).nodup_iff.mpr (HashSet.nodup_toList.filter _)
      have hready : ∀ y ∈ ready, y ∈ hashes ∧ L.openLinks hashes (done ++ [x]) y = 0 ∧
          L.openLinks hashes done y ≠ 0 := by
        intro y hy
        obtain ⟨hyx, hy⟩ := List.mem_filter.mp ((List.mem_insertionSort _).mp hy)
        rw [Std.ExtTreeSet.mem_toList, hL.mem_childrenOf] at hyx
        simp only [Bool.and_eq_true, Std.ExtTreeSet.contains_iff_mem, beq_iff_eq] at hy
        have hone := (hpop y).1 hyx
        exact ⟨hy.1, hy.2, by omega⟩
      have hmono : ∀ y, L.openLinks hashes done y = 0 → L.openLinks hashes (done ++ [x]) y = 0 := by
        intro y hy
        by_cases hyx : x ∈ L.nextOf y
        · have := (hpop y).1 hyx
          omega
        · rw [(hpop y).2 hyx, hy]
      have hcat : done ++ [x] ++ (queue ++ ready) = (done ++ x :: queue) ++ ready := by simp
      have hnd' : (done ++ [x] ++ (queue ++ ready)).Nodup := by
        rw [hcat]
        exact hnd.append hrnd fun y hy hyr => (hready y hyr).2.2 (hzero y hy).2
      have hzero' : ∀ y ∈ done ++ [x] ++ (queue ++ ready),
          y ∈ hashes ∧ L.openLinks hashes (done ++ [x]) y = 0 := by
        intro y hy
        rw [hcat] at hy
        rcases List.mem_append.mp hy with hy | hy
        · exact ⟨(hzero y hy).1, hmono y (hzero y hy).2⟩
        · exact ⟨(hready y hy).1, (hready y hy).2.1⟩
      have hdone' : ∀ y ∈ done ++ [x],
          ((L.nextOf y).filter fun p => hashes.contains p).Nodup := by
        intro y hy
        rcases List.mem_append.mp hy with hy | hy
        · exact hdone y hy
        · obtain rfl := List.mem_singleton.mp hy
          exact nodup_of_openLinks hx0
      have hlen : hashes.size ≤ fuel + (done ++ [x]).length := by
        rw [List.length_append, List.length_singleton]
        omega
      obtain ⟨i1, i2, i3⟩ := ih _ deg' _ hlen hnd' hzero' hdone' hdeg' <| by
        intro hnil
        rw [hnil, List.append_nil] at hnd' hzero'
        exact ⟨hnd', by simp [hnil], fun y hy => ⟨(hzero' y hy).1, hdone' y hy⟩⟩
      rw [hloop]
      refine ⟨i1, fun y hy => i2 y ?_, i3⟩
      rw [hcat]
      exact List.mem_append_left _ hy

/-- **Topological sort on any parent lists.** It lists without repetition entries of its
subset that name no parent in it twice, among them those that name none. -/
theorem topoHashes_any [Crates] (hL : L.WellFormed) (hashes : HashSet Hash) :
    (L.topoHashes hashes).Nodup ∧ (∀ y ∈ hashes, L.nextOf y = [] → y ∈ L.topoHashes hashes) ∧
      ∀ y ∈ L.topoHashes hashes, y ∈ hashes ∧
        ((L.nextOf y).filter fun p => hashes.contains p).Nodup := by
  have hdeg : ∀ y ∈ hashes, (L.inDegrees hashes)[y]? = some (L.openLinks hashes [] y) :=
    fun y hy => by
      rw [getElem?_inDegrees, if_pos hy, openLinks]
      simp
  let queue := L.sortReady (hashes.toList.filter fun h => (L.inDegrees hashes)[h]? == some 0)
  have hqueue : ∀ y, y ∈ queue ↔ y ∈ hashes ∧ L.openLinks hashes [] y = 0 := fun y => by
    simp only [queue, sortReady]
    rw [(List.perm_insertionSort _ _).mem_iff, List.mem_filter, Std.ExtTreeSet.mem_toList]
    refine and_congr_right fun hy => ?_
    rw [hdeg y hy]
    simp
  have hnd : queue.Nodup := by
    simp only [queue, sortReady]
    rw [(List.perm_insertionSort _ _).nodup_iff]
    exact HashSet.nodup_toList.filter _
  obtain ⟨h1, h2, h3⟩ := topoLoop_any hL hashes.size queue _ [] (by simp) hnd
    (fun y hy => (hqueue y).mp hy) (by simp) hdeg
  refine ⟨h1, fun y hy hroot => h2 y ((hqueue y).mpr ⟨hy, ?_⟩), h3⟩
  simp [openLinks, hroot]

/-! ### Which logs are enumerated -/

/-- The traversals work: none of them panics, and the whole log is listed exactly once. -/
structure Enumerates (L : OpLog) : Prop where
  whole : ∃ es, L.entriesSince none = some es ∧ (es.map Entry.hash).Nodup ∧
    ∀ e : Entry, e ∈ es ↔ L.entries[e.hash]? = some e
  since : ∀ h, (L.entriesSince (some h)).isSome
  sinceHeads : ∀ cursor, L.headsKnown cursor → (L.entriesSinceHeads cursor).isSome
  asOf : ∀ cutoffPhysical cutoffLogical, (L.entriesAsOf cutoffPhysical cutoffLogical).isSome

/-- A sort of hashes that are all stored, on a log without repeated parents, returns. -/
theorem isSome_topoSort [Crates] (hL : L.WellFormed) (hnd : L.NextNodup)
    (hs : ∀ h ∈ hashes, h ∈ L.entries) : (L.topoSort hashes).isSome := by
  obtain ⟨es, hes, -⟩ := topoSort_spec hL (hnd.within _) hs
  rw [hes]
  rfl

theorem Enumerates.of_links [Crates] (hL : L.WellFormed) (hr : L.RefsStored)
    (hnd : L.NextNodup) : L.Enumerates := by
  obtain ⟨es, hes, h1, h2, -⟩ := entriesSince_none_spec hL hnd hr
  -- whatever is left out, what remains of the reachable hashes is stored
  have hsub : ∀ known : HashSet Hash, ∀ h ∈ (L.reachableFrom L.heads.toList).filter fun h =>
      !known.contains h, h ∈ L.entries := fun known h hh => by
    obtain ⟨hh, -⟩ := Std.ExtTreeSet.mem_filter.mp hh
    exact (hL.mem_reachableFrom_heads hr).mp hh
  refine ⟨⟨es, hes, h1, h2⟩, fun h => isSome_topoSort hL hnd (hsub _), fun cursor hc => ?_,
    fun p l => isSome_topoSort hL hnd fun h hh => ?_⟩
  · have hmiss : L.missingParent cursor = none :=
      missingParent_eq_none.mpr fun h hh => by
        have := List.all_eq_true.mp hc h hh
        simpa using this
    simp only [entriesSinceHeads, hmiss, Option.isSome_map]
    exact isSome_topoSort hL hnd (hsub _)
  · obtain ⟨kv, hkv, rfl⟩ := List.mem_map.mp (HashSet.mem_ofList.mp hh)
    exact HashMap.mem_iff_getElem?.mpr ⟨kv.2, HashMap.mem_toList.mp (List.mem_filter.mp hkv).1⟩

/-- Everything stored is reachable from the heads, whatever the `refs` are. -/
theorem mem_reachableFrom_of_stored [Crates] (hL : L.WellFormed) (hx : x ∈ L.entries) :
    x ∈ L.reachableFrom L.heads.toList := by
  obtain ⟨h1, h2, -⟩ := L.reachableFrom_spec L.heads.toList
  obtain ⟨t, ht, htx⟩ := hL.exists_head hx
  have htR := h1 t (Std.ExtTreeSet.mem_toList.mpr ht)
  rcases htx with rfl | hanc
  · exact htR
  · refine Dag.ParentClosed.ancestor (fun y hy z hz => h2 y hy z ?_) hanc htR
    obtain ⟨e', he', hze⟩ := mem_nextOf.mp hz
    simp [linksOf, get, he', hze]

/-- `entries_since(None)` returns exactly if all references are stored. -/
theorem isSome_entriesSince_iff [Crates] (hL : L.WellFormed) :
    (L.entriesSince none).isSome ↔ L.RefsStored := by
  constructor
  · intro hsome x e he r hr
    have hstored : ∀ x ∈ L.reachableFrom L.heads.toList, x ∈ L.entries := by
      rw [entriesSince, topoSort] at hsome
      split at hsome
      · rename_i hall
        simpa using hall
      · cases hsome
    have hx := mem_reachableFrom_of_stored hL (HashMap.mem_iff_getElem?.mpr ⟨e, he⟩)
    refine hstored r ((L.reachableFrom_spec L.heads.toList).2.1 x hx r ?_)
    simp [linksOf, get, he, hr]
  · intro hr
    have hstored : ∀ x ∈ L.reachableFrom L.heads.toList, x ∈ L.entries := fun x hx =>
      (hL.mem_reachableFrom_heads hr).mp hx
    have hall : ((L.reachableFrom L.heads.toList).toList.all fun h => L.entries.contains h) =
        true := by simpa using hstored
    obtain ⟨es, hes, -⟩ := mapM_get (L.topoHashes (L.reachableFrom L.heads.toList)) fun y hy =>
      hstored y ((topoHashes_any hL _).2.2 y hy).1
    rw [entriesSince, topoSort, if_pos hall, hes]
    rfl

theorem Enumerates.refsStored [Crates] (hL : L.WellFormed) (h : L.Enumerates) : L.RefsStored := by
  obtain ⟨es, hes, -⟩ := h.whole
  exact (isSome_entriesSince_iff hL).mp (by rw [hes]; rfl)

theorem mem_of_mapM {α β : Type} {f : α → Option β} {l : List α} {r : List β} {b : β}
    (hr : l.mapM f = some r) (hb : b ∈ r) : ∃ a ∈ l, f a = some b := by
  induction l generalizing r with
  | nil =>
    obtain rfl : [] = r := by simpa using hr
    cases hb
  | cons a l ih =>
    simp only [List.mapM_cons, Option.bind_eq_bind, Option.bind_eq_some_iff, Option.pure_def,
      Option.some.injEq] at hr
    obtain ⟨b', ha, r', hr', rfl⟩ := hr
    rcases List.mem_cons.mp hb with rfl | hb
    · exact ⟨a, List.mem_cons_self, ha⟩
    · obtain ⟨a', ha', heq⟩ := ih hr' hb
      exact ⟨a', List.mem_cons_of_mem _ ha', heq⟩

/-- What is listed is stored, whatever the log. -/
theorem stored_of_entriesSince {es : List Entry} {e : Entry} (hes : L.entriesSince none = some es)
    (he : e ∈ es) : ∃ h : Hash, L.entries[h]? = some e := by
  rw [entriesSince, topoSort] at hes
  split at hes
  · obtain ⟨h, -, hget⟩ := mem_of_mapM hes he
    exact ⟨h, hget⟩
  · cases hes

/-- A listed entry names no parent twice. -/
theorem next_nodup_of_listed [Crates] (hL : L.WellFormed) {es : List Entry} {e : Entry}
    (hes : L.entriesSince none = some es) (he : L.entries[e.hash]? = some e) (hin : e ∈ es) :
    e.next.Nodup := by
  have hr : L.RefsStored := (isSome_entriesSince_iff hL).mp (by rw [hes]; rfl)
  have hmem : e.hash ∈ L.topoHashes (L.reachableFrom L.heads.toList) := by
    rw [entriesSince, topoSort] at hes
    split at hes
    · obtain ⟨y, hy, hye⟩ := mem_of_mapM hes hin
      rw [(hL.rep.keyed y e hye).1]
      exact hy
    · cases hes
  have hnd := ((topoHashes_any hL _).2.2 _ hmem).2
  rw [nextOf_eq_of_get he] at hnd
  rwa [List.filter_eq_self.mpr fun p hp => ?_] at hnd
  rw [Std.ExtTreeSet.contains_iff_mem, hL.mem_reachableFrom_heads hr]
  exact hL.rep.parents e.hash e he p hp

/-- If every stored entry is listed, none names a parent twice. -/
theorem nextNodup_of_listed [Crates] (hL : L.WellFormed) {es : List Entry}
    (hes : L.entriesSince none = some es) (hall : L.All fun _ e => e ∈ es) : L.NextNodup := by
  intro x e he
  obtain rfl := (hL.rep.keyed x e he).1
  exact next_nodup_of_listed hL hes he (hall _ e he)

theorem Enumerates.nextNodup [Crates] (hL : L.WellFormed) (h : L.Enumerates) : L.NextNodup := by
  obtain ⟨es, hes, -, hall⟩ := h.whole
  refine nextNodup_of_listed hL hes fun x e he => ?_
  exact (hall e).mpr ((hL.rep.keyed x e he).1 ▸ he)

/-- What a sort returns: the sorted hashes with their entries. -/
theorem topoSort_eq_some [Crates] (hL : L.WellFormed) {es : List Entry}
    (hes : L.topoSort hashes = some es) :
    es.map Entry.hash = L.topoHashes hashes ∧ ∀ e ∈ es, L.entries[e.hash]? = some e := by
  rw [topoSort] at hes
  split at hes
  · rename_i hall
    have hstored : ∀ h ∈ hashes, h ∈ L.entries := by simpa using hall
    obtain ⟨es', hes', hf⟩ := mapM_get (L.topoHashes hashes) fun y hy =>
      hstored y ((topoHashes_any hL _).2.2 y hy).1
    obtain rfl : es' = es := Option.some.inj (hes'.symm.trans hes)
    exact map_hash_of_forall₂ hL hf
  · cases hes

/-- A sort lists no more entries than the log has. -/
theorem length_topoSort_le [Crates] (hL : L.WellFormed) {es : List Entry}
    (hes : L.topoSort hashes = some es) : es.length ≤ L.entries.size := by
  obtain ⟨hmap, hget⟩ := topoSort_eq_some hL hes
  have hnd : (es.map Entry.hash).Nodup := hmap ▸ (topoHashes_any hL _).1
  have hsub : ∀ x ∈ es.map Entry.hash, x ∈ L.entries.keys := fun x hx => by
    obtain ⟨e, he, rfl⟩ := List.mem_map.mp hx
    exact Std.ExtTreeMap.mem_keys.mpr (HashMap.mem_iff_getElem?.mpr ⟨e, hget e he⟩)
  have hle := (List.subperm_of_subset hnd hsub).length_le
  rwa [List.length_map, Std.ExtTreeMap.length_keys] at hle

/-- What `entries_since(None)` returns: the sorted hashes with their entries. -/
theorem entriesSince_eq_some [Crates] (hL : L.WellFormed) {es : List Entry}
    (hes : L.entriesSince none = some es) :
    es.map Entry.hash = L.topoHashes (L.reachableFrom L.heads.toList) ∧
      ∀ e ∈ es, L.entries[e.hash]? = some e :=
  topoSort_eq_some hL hes

/-- **Enumeration.** For every log that starts from a hash-valid parentless genesis and every
sequence of appends, of any entries: the traversals work exactly if the `refs` of the stored
entries are stored too and no stored entry names a parent twice. -/
theorem enumerates_iff [Crates] (genesis : Entry) (hg : genesis.verifyHash)
    (hroot : genesis.next = []) (es : List Entry) :
    let L := (OpLog.new genesis).appendAll es
    L.Enumerates ↔ L.RefsStored ∧ L.NextNodup := by
  intro L
  have hL : L.WellFormed := (WellFormed.new hg hroot).appendAll es
  exact ⟨fun h => ⟨h.refsStored hL, h.nextNodup hL⟩, fun h => .of_links hL h.1 h.2⟩

open Sample in
/-- A genesis and an entry on top of it. -/
theorem enumerates_chain :
    let g := Entry.new (.defineOntology ⟨∅, ∅⟩) [] [] ⟨"ann", 1, 0⟩ "ann"
    let a := Entry.new (.removeNode "a") [g.hash] [] ⟨"ann", 2, 0⟩ "ann"
    ((OpLog.new g).appendAll [a]).Enumerates := by
  intro g a
  have hlinks : ∀ kv ∈ ((OpLog.new g).appendAll [a]).entries.toList,
      kv.2.refs.isEmpty ∧ kv.2.next.Nodup := by decide +kernel
  refine (enumerates_iff g (Entry.verifyHash_new ..) rfl [a]).mpr ⟨fun h e he r hr => ?_,
    fun h e he => (hlinks (h, e) (HashMap.mem_toList.mpr he)).2⟩
  have hnil := List.isEmpty_iff.mp (hlinks (h, e) (HashMap.mem_toList.mpr he)).1
  rw [show e.refs = [] from hnil] at hr
  cases hr

open Sample in
/-- An entry that names its parent twice is stored and not listed; one with a reference into
nowhere makes the listing panic. -/
theorem enumeration_broken :
    let g := Entry.new (.defineOntology ⟨∅, ∅⟩) [] [] ⟨"ann", 1, 0⟩ "ann"
    let twice := Entry.new (.removeNode "a") [g.hash, g.hash] [] ⟨"bob", 2, 0⟩ "bob"
    let dangling := Entry.new (.removeNode "b") [g.hash] [0] ⟨"bob", 3, 0⟩ "bob"
    ((OpLog.new g).append twice).1 = .ok true ∧
      (((OpLog.new g).append twice).2.entriesSince none).map (fun es => es.map Entry.hash) =
        some [g.hash] ∧
      ((OpLog.new g).append dangling).1 = .ok true ∧
      (((OpLog.new g).append dangling).2.entriesSince none).isNone := by
  intro g twice dangling
  refine ⟨?_, ?_, ?_, ?_⟩ <;> decide +kernel

end OpLog

end SilkGraph
