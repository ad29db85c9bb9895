import SilkGraph.Sync.Merge
import SilkGraph.Store.Basic

/-!
# What the reconstruction of a log computes

`reconstruct_oplog` gets the entries of a log in the order of their hashes. It makes the
first root the genesis, appends the other roots and ignores what `append` says, and then
runs Kahn's algorithm over the rest. `reconstructOplog_ok` says that this gives back exactly
the table it was fed, provided that no root after the first is a checkpoint;
`reconstructOplog_drops` says what happens otherwise: the checkpoint wipes the roots before
it, and they never come back.
-/

namespace SilkGraph

namespace Store

variable {D : HashMap Hash Entry} {es : List Entry} {h p x : Hash}

/-! ### Entry tables -/

/-- The causal predecessors an entry table names for a hash. -/
def nextIn (D : HashMap Hash Entry) (h : Hash) : List Hash := (D[h]?.map Entry.next).getD []

/-- A table a log can have: keyed by valid hashes, closed under parents, acyclic. -/
structure Table [Crates] (D : HashMap Hash Entry) : Prop where
  keyed : ∀ (h : Hash) (e : Entry), D[h]? = some e → e.hash = h ∧ e.verifyHash
  parents : ∀ (h : Hash) (e : Entry), D[h]? = some e → ∀ p ∈ e.next, p ∈ D
  acyclic : Dag.Acyclic (nextIn D)

/-- The list holds the entries of the table, each once, in some order. -/
def Enumerates (es : List Entry) (D : HashMap Hash Entry) : Prop :=
  es.Perm (D.toList.map Prod.snd)

theorem Table.of_wellFormed [Crates] {L : OpLog} (hL : L.WellFormed) : Table L.entries :=
  ⟨hL.rep.keyed, hL.rep.parents, hL.causal⟩

theorem nextIn_eq {e : Entry} (he : D[h]? = some e) : nextIn D h = e.next := by
  simp [nextIn, he]

theorem mem_nextIn : p ∈ nextIn D h ↔ ∃ e : Entry, D[h]? = some e ∧ p ∈ e.next := by
  cases he : D[h]? with
  | none => simp [nextIn, he]
  | some e => simp [nextIn_eq he]

/-- The list holds exactly the entries of the table. -/
theorem Enumerates.mem [Crates] (hes : Enumerates es D) (hD : Table D) {e : Entry} :
    e ∈ es ↔ D[e.hash]? = some e := by
  rw [List.Perm.mem_iff hes, List.mem_map]
  constructor
  · rintro ⟨⟨h, e⟩, hkv, rfl⟩
    have he := HashMap.mem_toList.mp hkv
    have hh : e.hash = h := (hD.keyed h e he).1
    rw [hh]
    exact he
  · exact fun he => ⟨(e.hash, e), HashMap.mem_toList.mpr he, rfl⟩

theorem Enumerates.nodup [Crates] (hes : Enumerates es D) (hD : Table D) :
    (es.map Entry.hash).Nodup := by
  have hkeys : (D.toList.map Prod.snd).map Entry.hash = D.keys := by
    rw [List.map_map, ← Std.ExtTreeMap.map_fst_toList_eq_keys]
    refine List.map_congr_left fun kv hkv => ?_
    exact (hD.keyed kv.1 kv.2 (HashMap.mem_toList.mp hkv)).1
  rw [(List.Perm.map Entry.hash hes).nodup_iff, hkeys]
  exact Std.ExtTreeMap.nodup_keys

/-- Indexing the enumerated entries by hash gives the table back. -/
theorem indexByHash_eq [Crates] (hes : Enumerates es D) (hD : Table D) : indexByHash es = D := by
  have hfold : ∀ (es : List Entry) (m : HashMap Hash Entry), (es.map Entry.hash).Nodup →
      (∀ e ∈ es, (es.foldl (fun m e => m.insert e.hash e) m)[e.hash]? = some e) ∧
      ∀ h, h ∉ es.map Entry.hash → (es.foldl (fun m e => m.insert e.hash e) m)[h]? = m[h]? := by
    intro es
    induction es with
    | nil => simp
    | cons a es ih =>
      intro m hnd
      obtain ⟨ha, hnd⟩ := List.nodup_cons.mp hnd
      obtain ⟨h1, h2⟩ := ih (m.insert a.hash a) hnd
      refine ⟨fun e he => ?_, fun h hh => ?_⟩
      · rcases List.mem_cons.mp he with rfl | he
        · rw [List.foldl_cons, h2 _ ha, HashMap.getElem?_insert, if_pos rfl]
        · exact h1 e he
      · rw [List.map_cons, List.mem_cons, not_or] at hh
        rw [List.foldl_cons, h2 h hh.2, HashMap.getElem?_insert, if_neg (Ne.symm hh.1)]
  obtain ⟨h1, h2⟩ := hfold es ∅ (hes.nodup hD)
  refine Std.ExtTreeMap.ext_getElem? fun h => ?_
  by_cases hh : h ∈ es.map Entry.hash
  · obtain ⟨e, he, rfl⟩ := List.mem_map.mp hh
    rw [indexByHash, h1 e he, (hes.mem hD).mp he]
  · have hD' : D[h]? = none := by
      refine HashMap.not_mem_iff_getElem?.mp fun hmem => hh ?_
      obtain ⟨e, he⟩ := HashMap.mem_iff_getElem?.mp hmem
      obtain ⟨rfl, -⟩ := hD.keyed h e he
      exact List.mem_map_of_mem ((hes.mem hD).mpr he)
    rw [indexByHash, h2 h hh, hD']
    simp

/-- The hashes of the parentless entries. -/
theorem mem_rootsOf [Crates] (hes : Enumerates es D) (hD : Table D) :
    h ∈ (rootsOf es).map Entry.hash ↔ h ∈ D ∧ nextIn D h = [] := by
  simp only [rootsOf, List.mem_map, List.mem_filter, List.isEmpty_iff]
  constructor
  · rintro ⟨e, ⟨he, hn⟩, rfl⟩
    have hget := (hes.mem hD).mp he
    exact ⟨HashMap.mem_iff_getElem?.mpr ⟨e, hget⟩, by rw [nextIn_eq hget, hn]⟩
  · rintro ⟨hh, hn⟩
    obtain ⟨e, he⟩ := HashMap.mem_iff_getElem?.mp hh
    obtain ⟨rfl, -⟩ := hD.keyed h e he
    exact ⟨e, ⟨(hes.mem hD).mpr he, by rwa [nextIn_eq he] at hn⟩, rfl⟩

/-- Below every entry of a table there is a parentless one. -/
theorem Table.exists_root [Crates] (hD : Table D) (hh : h ∈ D) : ∃ r ∈ D, nextIn D r = [] := by
  obtain ⟨rank, hrank⟩ := hD.acyclic
  induction hn : rank h using Nat.strong_induction_on generalizing h with
  | _ n ih =>
    subst hn
    cases hnext : nextIn D h with
    | nil => exact ⟨h, hh, hnext⟩
    | cons p rest =>
      have hp : p ∈ nextIn D h := hnext ▸ List.mem_cons_self
      obtain ⟨e, he, hpe⟩ := mem_nextIn.mp hp
      exact ih _ (hrank h p hp) (hD.parents h e he p hpe) rfl

/-! ### The parent index -/

theorem getD_pushChild (ch : HashMap Hash (List Hash)) (q h p : Hash) :
    (pushChild ch q h)[p]?.getD [] = ch[p]?.getD [] ++ if q = p then [h] else [] := by
  rw [pushChild, HashMap.getElem?_insert]
  by_cases hq : q = p
  · subst hq
    simp
  · simp [hq]

theorem getD_foldl_pushChild (ps : List Hash) (hps : ps.Nodup) (ch : HashMap Hash (List Hash))
    (h p : Hash) :
    (ps.foldl (fun ch p => pushChild ch p h) ch)[p]?.getD [] =
      ch[p]?.getD [] ++ if p ∈ ps then [h] else [] := by
  induction ps generalizing ch with
  | nil => simp
  | cons q ps ih =>
    obtain ⟨hq, hps⟩ := List.nodup_cons.mp hps
    rw [List.foldl_cons, ih hps, getD_pushChild]
    by_cases hqp : q = p
    · subst hqp
      simp [hq]
    · have hpq : p ≠ q := Ne.symm hqp
      simp [hqp, hpq]

/-- Index one entry of the table, unless it is resolved. -/
def indexEntry (σ : HashOrder) (resolved : HashSet Hash) (ix : ParentIndex)
    (kv : Hash × Entry) : ParentIndex :=
  if resolved.contains kv.1 then ix
  else
    let parents : HashSet Hash := Std.ExtTreeSet.ofList kv.2.next compare
    { childrenOf := (σ.walk parents.toList).foldl (fun ch p => pushChild ch p kv.1) ix.childrenOf
      pendingParents := ix.pendingParents.insert kv.1 parents }

/-- The index of a part of the table. -/
structure Indexes (resolved : HashSet Hash) (l : List (Hash × Entry)) (ix : ParentIndex) : Prop where
  pending : ∀ (h : Hash) (e : Entry), (h, e) ∈ l → h ∉ resolved →
    ∃ s : HashSet Hash, ix.pendingParents[h]? = some s ∧ ∀ p, p ∈ s ↔ p ∈ e.next
  absent : ∀ h : Hash, h ∉ l.map Prod.fst ∨ h ∈ resolved → ix.pendingParents[h]? = none
  nodup : ∀ p : Hash, (ix.childrenOf[p]?.getD []).Nodup
  children : ∀ p k : Hash, k ∈ ix.childrenOf[p]?.getD [] ↔
    k ∉ resolved ∧ ∃ e, (k, e) ∈ l ∧ p ∈ e.next

section Indexes

variable {resolved : HashSet Hash} {l : List (Hash × Entry)} {kv : Hash × Entry} {ix : ParentIndex}

theorem not_mem_of_append (hh : h ∉ (l ++ [kv]).map Prod.fst ∨ h ∈ resolved) :
    h ∉ l.map Prod.fst ∨ h ∈ resolved := by
  refine hh.imp_left fun hc hm => hc ?_
  rw [List.map_append]
  exact List.mem_append_left _ hm

/-- A resolved entry is left out. -/
theorem Indexes.skip (hi : Indexes resolved l ix) (hr : kv.1 ∈ resolved) :
    Indexes resolved (l ++ [kv]) ix := by
  have hold : ∀ {h e}, (h, e) ∈ l ++ [kv] → h ∉ resolved → (h, e) ∈ l := by
    intro h e he hhr
    obtain he | he := List.mem_append.mp he
    · exact he
    · obtain rfl := List.mem_singleton.mp he
      exact absurd hr hhr
  refine ⟨fun h e he hhr => hi.pending h e (hold he hhr) hhr,
    fun h hh => hi.absent h (not_mem_of_append hh), hi.nodup, fun p k => ?_⟩
  rw [hi.children]
  refine and_congr_right fun hk => ⟨?_, ?_⟩
  · rintro ⟨e, he, hpe⟩
    exact ⟨e, List.mem_append_left _ he, hpe⟩
  · rintro ⟨e, he, hpe⟩
    exact ⟨e, hold he hk, hpe⟩

/-- An entry that is not resolved waits for its parents and is a child of each. -/
theorem Indexes.push (σ : HashOrder) (hi : Indexes resolved l ix) (hr : kv.1 ∉ resolved)
    (hkv : kv.1 ∉ l.map Prod.fst) :
    Indexes resolved (l ++ [kv]) (indexEntry σ resolved ix kv) := by
  let parents : HashSet Hash := Std.ExtTreeSet.ofList kv.2.next compare
  have hentry : indexEntry σ resolved ix kv =
      ⟨(σ.walk parents.toList).foldl (fun ch p => pushChild ch p kv.1) ix.childrenOf,
        ix.pendingParents.insert kv.1 parents⟩ :=
    if_neg fun hc => hr (Std.ExtTreeSet.contains_iff_mem.mp hc)
  have hwalk : (σ.walk parents.toList).Nodup := (σ.perm _).nodup_iff.mpr HashSet.nodup_toList
  have hmem : ∀ p, p ∈ σ.walk parents.toList ↔ p ∈ kv.2.next := fun p => by
    rw [HashOrder.mem_walk, Std.ExtTreeSet.mem_toList, HashSet.mem_ofList]
  have hchildren : ∀ p, ((indexEntry σ resolved ix kv).childrenOf[p]?.getD []) =
      ix.childrenOf[p]?.getD [] ++ if p ∈ kv.2.next then [kv.1] else [] := fun p => by
    rw [hentry, getD_foldl_pushChild _ hwalk]
    simp only [hmem]
  refine ⟨fun h e he hhr => ?_, fun h hh => ?_, fun p => ?_, fun p k => ?_⟩
  · rw [hentry, HashMap.getElem?_insert]
    obtain he | he := List.mem_append.mp he
    · have hne : kv.1 ≠ h := by
        rintro rfl
        exact hkv (List.mem_map.mpr ⟨_, he, rfl⟩)
      rw [if_neg hne]
      exact hi.pending h e he hhr
    · obtain rfl := List.mem_singleton.mp he
      exact ⟨parents, if_pos rfl, fun p => HashSet.mem_ofList⟩
  · have hne : kv.1 ≠ h := by
      rintro rfl
      obtain hh | hh := hh
      · exact hh (by rw [List.map_append]; simp)
      · exact hr hh
    rw [hentry, HashMap.getElem?_insert, if_neg hne]
    exact hi.absent h (not_mem_of_append hh)
  · have hold : kv.1 ∉ ix.childrenOf[p]?.getD [] := fun hc => by
      obtain ⟨-, e, he, -⟩ := (hi.children p kv.1).mp hc
      exact hkv (List.mem_map.mpr ⟨_, he, rfl⟩)
    rw [hchildren]
    split
    · exact List.nodup_append'.mpr ⟨hi.nodup p, List.nodup_singleton _,
        List.disjoint_singleton.mpr hold⟩
    · rw [List.append_nil]
      exact hi.nodup p
  · rw [hchildren, List.mem_append, hi.children]
    constructor
    · rintro (⟨hk, e, he, hpe⟩ | hk)
      · exact ⟨hk, e, List.mem_append_left _ he, hpe⟩
      · split at hk
        · obtain rfl := List.mem_singleton.mp hk
          exact ⟨hr, kv.2, List.mem_append_right _ (List.mem_singleton_self _), by assumption⟩
        · cases hk
    · rintro ⟨hk, e, he, hpe⟩
      obtain he | he := List.mem_append.mp he
      · exact .inl ⟨hk, e, he, hpe⟩
      · obtain rfl := List.mem_singleton.mp he
        exact .inr (by rw [if_pos hpe]; exact List.mem_singleton_self _)

/-- The fold over any part of the table, which has no key twice. -/
theorem indexes_foldl (σ : HashOrder) (hl : (l.map Prod.fst).Nodup) :
    Indexes resolved l (l.foldl (indexEntry σ resolved) ⟨∅, ∅⟩) := by
  induction l using List.reverseRecOn with
  | nil => exact ⟨nofun, fun h _ => Std.ExtTreeMap.getElem?_empty, fun p => by simp, by simp⟩
  | append_singleton l kv ih =>
    rw [List.map_append, List.map_singleton] at hl
    obtain ⟨hl, -, hdisj⟩ := List.nodup_append'.mp hl
    have hkv : kv.1 ∉ l.map Prod.fst := fun hc => hdisj hc (List.mem_singleton_self _)
    rw [List.foldl_append, List.foldl_cons, List.foldl_nil]
    by_cases hr : kv.1 ∈ resolved
    · have hentry : ∀ ix, indexEntry σ resolved ix kv = ix := fun ix =>
        if_pos (Std.ExtTreeSet.contains_iff_mem.mpr hr)
      rw [hentry]
      exact (ih hl).skip hr
    · exact (ih hl).push σ hr hkv

end Indexes

/-- **The parent index.** An unresolved entry waits for its parents, and a hash has as
children the unresolved entries that name it, each once. -/
theorem indexParents_spec (σ : HashOrder) (resolved : HashSet Hash) (D : HashMap Hash Entry) :
    (∀ h (e : Entry), D[h]? = some e → h ∉ resolved →
      ∃ s : HashSet Hash, (indexParents σ resolved D).pendingParents[h]? = some s ∧
        ∀ p, p ∈ s ↔ p ∈ e.next) ∧
    (∀ h, h ∉ D ∨ h ∈ resolved → (indexParents σ resolved D).pendingParents[h]? = none) ∧
    ∀ p, ((indexParents σ resolved D).childrenOf[p]?.getD []).Nodup ∧
      ∀ k, k ∈ (indexParents σ resolved D).childrenOf[p]?.getD [] ↔
        k ∉ resolved ∧ p ∈ nextIn D k := by
  have hperm := σ.perm D.toList
  have hmem : ∀ h (e : Entry), (h, e) ∈ σ.walk D.toList ↔ D[h]? = some e := fun h e => by
    rw [HashOrder.mem_walk, HashMap.mem_toList]
  have hkeys : ∀ h, h ∈ (σ.walk D.toList).map Prod.fst ↔ h ∈ D := fun h => by
    rw [(hperm.map Prod.fst).mem_iff, Std.ExtTreeMap.map_fst_toList_eq_keys,
      Std.ExtTreeMap.mem_keys]
  have hnd : ((σ.walk D.toList).map Prod.fst).Nodup := by
    rw [(hperm.map Prod.fst).nodup_iff, Std.ExtTreeMap.map_fst_toList_eq_keys]
    exact Std.ExtTreeMap.nodup_keys
  have hi : Indexes resolved (σ.walk D.toList) (indexParents σ resolved D) := indexes_foldl σ hnd
  refine ⟨fun h e he => hi.pending h e ((hmem h e).mpr he), fun h hh => hi.absent h ?_,
    fun p => ⟨hi.nodup p, fun k => ?_⟩⟩
  · exact hh.imp_left fun hc hm => hc ((hkeys h).mp hm)
  · refine (hi.children p k).trans (and_congr_right fun _ => ?_)
    rw [mem_nextIn]
    simp only [hmem]

/-! ### The traversal -/

/-- The entries outside the roots wait for exactly those parents that are not done. -/
structure Waiting (D : HashMap Hash Entry) (roots : HashSet Hash) (done : List Hash)
    (pp : HashMap Hash (HashSet Hash)) : Prop where
  waits : ∀ h ∈ D, h ∉ roots →
    ∃ s : HashSet Hash, pp[h]? = some s ∧ ∀ p, p ∈ s ↔ p ∈ nextIn D h ∧ p ∉ done
  rest : ∀ h, h ∉ D ∨ h ∈ roots → pp[h]? = none

/-- The children lists of a table: who names a hash as a parent, roots apart. -/
def ChildrenOf (D : HashMap Hash Entry) (roots : HashSet Hash)
    (childrenOf : HashMap Hash (List Hash)) : Prop :=
  ∀ p, (childrenOf[p]?.getD []).Nodup ∧
    ∀ k, k ∈ childrenOf[p]?.getD [] ↔ k ∉ roots ∧ p ∈ nextIn D k

/-- `unblock` touches the rows of the given children only, and queues those it empties. -/
theorem unblock_spec (x : Hash) (kids : List Hash) (hnd : kids.Nodup)
    (pp : HashMap Hash (HashSet Hash)) (ready : List Hash) :
    (∀ k, (unblock x kids pp ready).1[k]? =
      if k ∈ kids then (pp[k]?).map fun s => s.erase x else pp[k]?) ∧
    (unblock x kids pp ready).2 = ready ++ kids.filter fun k =>
      (pp[k]?.map fun s => (s.erase x).isEmpty).getD false := by
  induction kids generalizing pp ready with
  | nil => simp [unblock]
  | cons a kids ih =>
    obtain ⟨ha, hnd⟩ := List.nodup_cons.mp hnd
    cases hpa : pp[a]? with
    | none =>
      obtain ⟨ih1, ih2⟩ := ih hnd pp ready
      have hstep : unblock x (a :: kids) pp ready = unblock x kids pp ready := by
        simp [unblock, hpa]
      rw [hstep]
      refine ⟨fun k => ?_, by rw [ih2, List.filter_cons]; simp [hpa]⟩
      rw [ih1]
      by_cases hk : k = a
      · subst hk
        simp [hpa]
      · simp [hk]
    | some s =>
      have hstep : unblock x (a :: kids) pp ready = unblock x kids (pp.insert a (s.erase x))
          (if (s.erase x).isEmpty then ready ++ [a] else ready) := by
        simp [unblock, hpa]
      obtain ⟨ih1, ih2⟩ := ih hnd (pp.insert a (s.erase x))
        (if (s.erase x).isEmpty then ready ++ [a] else ready)
      rw [hstep]
      refine ⟨fun k => ?_, ?_⟩
      · rw [ih1, HashMap.getElem?_insert]
        by_cases hk : a = k
        · subst hk
          simp [ha, hpa]
        · simp [hk, Ne.symm hk]
      · have hrest : (kids.filter fun k =>
            ((pp.insert a (s.erase x))[k]?.map fun s => (s.erase x).isEmpty).getD false) =
            kids.filter fun k => (pp[k]?.map fun s => (s.erase x).isEmpty).getD false := by
          refine List.filter_congr fun k hk => ?_
          have hak : a ≠ k := fun h => ha (h ▸ hk)
          rw [HashMap.getElem?_insert, if_neg hak]
        rw [ih2, hrest, List.filter_cons]
        by_cases hs : (s.erase x).isEmpty
        · simp [hpa, hs]
        · simp [hpa, hs]

/-- **One pop.** Unblocking the children of a popped hash queues exactly what becomes
ready. -/
theorem unblock_step [Crates] (hD : Table D) (queue : List Hash) {roots : HashSet Hash}
    {childrenOf : HashMap Hash (List Hash)} {pp : HashMap Hash (HashSet Hash)}
    {done ready : List Hash} (hroots : ∀ r ∈ roots, nextIn D r = [])
    (hch : ChildrenOf D roots childrenOf) (hw : Waiting D roots done pp)
    (hk : Dag.KahnInv (nextIn D) (· ∈ D) done (x :: (queue ++ ready))) :
    ∃ ready', unblock x (childrenOf[x]?.getD []) pp ready =
        ((unblock x (childrenOf[x]?.getD []) pp ready).1, ready ++ ready') ∧
      Waiting D roots (done ++ [x]) (unblock x (childrenOf[x]?.getD []) pp ready).1 ∧
      Dag.KahnInv (nextIn D) (· ∈ D) (done ++ [x]) (queue ++ (ready ++ ready')) := by
  obtain ⟨hnd, hkids⟩ := hch x
  obtain ⟨h1, h2⟩ := unblock_spec x (childrenOf[x]?.getD []) hnd pp ready
  have hxD : x ∈ D := ((hk.mem_iff x).mp (by simp)).1
  have hxd : x ∉ done := fun hc =>
    (List.disjoint_of_nodup_append hk.nodup) hc List.mem_cons_self
  have hmemD : ∀ k, x ∈ nextIn D k → k ∈ D := fun k hxk => by
    obtain ⟨e, he, -⟩ := mem_nextIn.mp hxk
    exact HashMap.mem_iff_getElem?.mpr ⟨e, he⟩
  refine ⟨_, Prod.ext rfl h2, ⟨fun k hkD hkr => ?_, fun k hkr => ?_⟩, ?_⟩
  · obtain ⟨s, hs, hsm⟩ := hw.waits k hkD hkr
    rw [h1]
    by_cases hkk : k ∈ childrenOf[x]?.getD []
    · refine ⟨s.erase x, by rw [if_pos hkk, hs, Option.map_some], fun p => ?_⟩
      rw [HashSet.mem_erase, hsm, List.mem_append, List.mem_singleton, not_or, ne_comm]
      tauto
    · refine ⟨s, by rw [if_neg hkk, hs], fun p => ?_⟩
      have hxk : x ∉ nextIn D k := fun hc => hkk ((hkids k).mpr ⟨hkr, hc⟩)
      rw [hsm, List.mem_append, List.mem_singleton, not_or]
      refine and_congr_right fun hp => ⟨fun hd => ⟨hd, ?_⟩, fun hd => hd.1⟩
      rintro rfl
      exact hxk hp
  · rw [h1, hw.rest k hkr]
    simp
  · rw [← List.append_assoc]
    refine hk.step (hnd.filter _) fun y => ?_
    rw [List.mem_filter, hkids]
    constructor
    · rintro ⟨⟨hyr, hxy⟩, hempty⟩
      have hyD := hmemD y hxy
      obtain ⟨s, hs, hsm⟩ := hw.waits y hyD hyr
      rw [hs, Option.map_some, Option.getD_some, Std.ExtTreeSet.isEmpty_iff] at hempty
      refine ⟨⟨hyD, fun p hp _ => ?_⟩, fun hready => hxd (hready.2 x hxy hxD)⟩
      rw [List.mem_append, List.mem_singleton]
      by_contra hno
      rw [not_or] at hno
      have hps : p ∈ s.erase x := HashSet.mem_erase.mpr ⟨Ne.symm hno.2, (hsm p).mpr ⟨hp, hno.1⟩⟩
      rw [hempty] at hps
      exact Std.ExtTreeSet.not_mem_empty hps
    · rintro ⟨⟨hyD, hall⟩, hnot⟩
      have hparents : ∀ p ∈ nextIn D y, p ∈ D := fun p hp => by
        obtain ⟨e, he, hpe⟩ := mem_nextIn.mp hp
        exact hD.parents y e he p hpe
      -- what becomes ready only now has the popped hash as a parent
      have hxy : x ∈ nextIn D y := by
        by_contra hxy
        refine hnot ⟨hyD, fun p hp hpD => ?_⟩
        rcases List.mem_append.mp (hall p hp hpD) with hd | hd
        · exact hd
        · rw [List.mem_singleton] at hd
          exact absurd (hd ▸ hp) hxy
      have hyr : y ∉ roots := fun hc => by
        rw [hroots y hc] at hxy
        cases hxy
      obtain ⟨s, hs, hsm⟩ := hw.waits y hyD hyr
      refine ⟨⟨hyr, hxy⟩, ?_⟩
      rw [hs, Option.map_some, Option.getD_some, Std.ExtTreeSet.isEmpty_iff]
      refine Std.ExtTreeSet.eq_empty_iff_forall_not_mem.mpr fun p hp => ?_
      obtain ⟨hne, hps⟩ := HashSet.mem_erase.mp hp
      obtain ⟨hpn, hpd⟩ := (hsm p).mp hps
      rcases List.mem_append.mp (hall p hpn (hparents p hpn)) with hd | hd
      · exact hpd hd
      · exact hne (List.mem_singleton.mp hd).symm

/-- Seeding the queue pops the roots. -/
theorem seedReady_spec [Crates] (hD : Table D) {roots : HashSet Hash}
    {childrenOf : HashMap Hash (List Hash)} (hroots : ∀ r ∈ roots, nextIn D r = [])
    (hch : ChildrenOf D roots childrenOf) (rs : List Hash) {pp : HashMap Hash (HashSet Hash)}
    {done ready : List Hash} (hw : Waiting D roots done pp)
    (hk : Dag.KahnInv (nextIn D) (· ∈ D) done (rs ++ ready)) :
    ∃ pp' ready', seedReady childrenOf rs pp ready = (pp', ready') ∧
      Waiting D roots (done ++ rs) pp' ∧
      Dag.KahnInv (nextIn D) (· ∈ D) (done ++ rs) ready' := by
  induction rs generalizing pp done ready with
  | nil => exact ⟨pp, ready, rfl, by simpa using hw, by simpa using hk⟩
  | cons r rs ih =>
    obtain ⟨ready', hun, hw', hk'⟩ := unblock_step hD rs hroots hch hw hk
    obtain ⟨pp'', ready'', hseed, hw'', hk''⟩ := ih hw' hk'
    refine ⟨pp'', ready'', ?_, by simpa using hw'', by simpa using hk''⟩
    rw [seedReady, hun]
    exact hseed

/-- When the queue is empty the log holds the whole table and nothing waits. -/
theorem Waiting.complete [Crates] (hD : Table D) {roots : HashSet Hash}
    {pp : HashMap Hash (HashSet Hash)} {done : List Hash} {L : OpLog}
    (hw : Waiting D roots done pp) (hk : Dag.KahnInv (nextIn D) (· ∈ D) done [])
    (hheld : ∀ h, L.entries[h]? = if h ∈ done then D[h]? else none) :
    L.entries = D ∧ ∀ (h : Hash) (s : HashSet Hash), pp[h]? = some s → s.isEmpty := by
  have hall : ∀ h, h ∈ done ↔ h ∈ D := hk.complete hD.acyclic
  refine ⟨Std.ExtTreeMap.ext_getElem? fun h => ?_, fun h s hs => ?_⟩
  · rw [hheld]
    split
    · rfl
    · rename_i hh
      rw [HashMap.not_mem_iff_getElem?.mp fun hc => hh ((hall h).mpr hc)]
  · by_cases hh : h ∈ D ∧ h ∉ roots
    · obtain ⟨s', hs', hsm⟩ := hw.waits h hh.1 hh.2
      obtain rfl : s' = s := Option.some.inj (hs'.symm.trans hs)
      rw [Std.ExtTreeSet.isEmpty_iff]
      refine Std.ExtTreeSet.eq_empty_iff_forall_not_mem.mpr fun p hp => ?_
      obtain ⟨hpn, hpd⟩ := (hsm p).mp hp
      obtain ⟨e, he, hpe⟩ := mem_nextIn.mp hpn
      exact hpd ((hall p).mpr (hD.parents h e he p hpe))
    · rw [hw.rest h (by tauto)] at hs
      cases hs

/-- **The main loop.** With the log holding what is done, the loop succeeds and the log ends
up with the whole table. -/
theorem reconstructLoop_spec [Crates] (hD : Table D) {roots : HashSet Hash}
    {childrenOf : HashMap Hash (List Hash)} (hroots : ∀ r, r ∈ roots ↔ r ∈ D ∧ nextIn D r = [])
    (hch : ChildrenOf D roots childrenOf) (fuel : ℕ) {pp : HashMap Hash (HashSet Hash)}
    {done ready : List Hash} {L : OpLog} (hfuel : D.size ≤ fuel + done.length)
    (hw : Waiting D roots done pp) (hk : Dag.KahnInv (nextIn D) (· ∈ D) done ready)
    (hdone : ∀ r ∈ roots, r ∈ done) (hL : L.WellFormed)
    (hheld : ∀ h, L.entries[h]? = if h ∈ done then D[h]? else none) :
    ∃ L' pp', reconstructLoop D childrenOf fuel ready pp L = .ok (L', pp') ∧
      L'.WellFormed ∧ L'.entries = D ∧
      ∀ (h : Hash) (s : HashSet Hash), pp'[h]? = some s → s.isEmpty := by
  induction fuel generalizing pp done ready L with
  | zero =>
    have hlen : (done ++ ready).length ≤ D.size := by
      rw [← Std.ExtTreeMap.length_keys]
      exact (List.subperm_of_subset hk.nodup fun y hy =>
        Std.ExtTreeMap.mem_keys.mpr ((hk.mem_iff y).mp hy).1).length_le
    rw [List.length_append] at hlen
    obtain rfl : ready = [] := List.eq_nil_of_length_eq_zero (by omega)
    exact ⟨L, pp, by rw [reconstructLoop], hL, hw.complete hD hk hheld⟩
  | succ fuel ih =>
    cases ready with
    | nil => exact ⟨L, pp, by rw [reconstructLoop], hL, hw.complete hD hk hheld⟩
    | cons x ready =>
      have hready := (hk.mem_iff x).mp (by simp)
      have hxd : x ∉ done := fun hc =>
        (List.disjoint_of_nodup_append hk.nodup) hc List.mem_cons_self
      obtain ⟨e, he⟩ := HashMap.mem_iff_getElem?.mp hready.1
      obtain ⟨rfl, hev⟩ := hD.keyed x e he
      -- the append inserts: new, under parents that are done, and not a root
      have hfresh : e.hash ∉ L.entries := by
        rw [HashMap.not_mem_iff_getElem?, hheld, if_neg hxd]
      have hparents : ∀ p ∈ e.next, p ∈ L.entries := fun p hp => by
        have hpD := hD.parents _ e he p hp
        obtain ⟨ep, hep⟩ := HashMap.mem_iff_getElem?.mp hpD
        refine HashMap.mem_iff_getElem?.mpr ⟨ep, ?_⟩
        rw [hheld, if_pos (hready.2 p (nextIn_eq he ▸ hp) hpD), hep]
      have hnext : e.next ≠ [] := fun hc =>
        hxd (hdone _ ((hroots _).mpr ⟨hready.1, (nextIn_eq he).trans hc⟩))
      have hroot : ¬ e.isRootCheckpoint := by simp [Entry.isRootCheckpoint, hnext]
      have happ := OpLog.append_eq_insertEntry hL.nonempty hev hfresh hroot hparents
      obtain ⟨ready', hun, hw', hk'⟩ := unblock_step hD []
        (fun r hr => ((hroots r).mp hr).2) hch hw hk
      rw [List.nil_append] at hk'
      have hi : Inserts L [e] (L.insertEntry e) := .single hev hfresh hparents
      have hheld' : ∀ h, (L.insertEntry e).entries[h]? =
          if h ∈ done ++ [e.hash] then D[h]? else none := fun h => by
        rw [OpLog.getElem?_insertEntry]
        by_cases hh : e.hash = h
        · subst hh
          simp [he]
        · rw [if_neg hh, hheld]
          simp [Ne.symm hh]
      obtain ⟨L', pp', hrun, hrest⟩ := ih
        (by rw [List.length_append, List.length_singleton]; omega) hw' hk'
        (fun r hr => List.mem_append_left _ (hdone r hr)) (hi.wellFormed hL) hheld'
      refine ⟨L', pp', ?_, hrest⟩
      rw [reconstructLoop, he]
      simp only [happ]
      rw [hun]
      exact hrun

/-! ### The whole reconstruction -/

/-- No root after the first one is a checkpoint. -/
def NoLaterCheckpoint (es : List Entry) : Prop :=
  ∀ r ∈ (rootsOf es).tail, r.payload.isCheckpoint = false

/-- Appending roots that are valid, new and no checkpoints inserts them all. -/
theorem appendAll_inserts [Crates] {L : OpLog} (hne : L.entries ≠ ∅) {es : List Entry}
    (hnd : (es.map Entry.hash).Nodup) (hes : ∀ e ∈ es, e.verifyHash ∧ e.next = [] ∧
      e.payload.isCheckpoint = false ∧ e.hash ∉ L.entries) : Inserts L es (L.appendAll es) := by
  induction es generalizing L with
  | nil => exact .nil L
  | cons e es ih =>
    obtain ⟨hv, hn, hc, hd⟩ := hes e List.mem_cons_self
    obtain ⟨heh, hnd⟩ := List.nodup_cons.mp hnd
    have hp : ∀ p ∈ e.next, p ∈ L.entries := by simp [hn]
    have hroot : ¬ e.isRootCheckpoint := by simp [Entry.isRootCheckpoint, hc]
    have happ : L.appendAll (e :: es) = (L.insertEntry e).appendAll es := by
      rw [OpLog.appendAll, List.foldl_cons, OpLog.append_eq_insertEntry hne hv hd hroot hp]
      rfl
    rw [happ]
    refine .cons hv hd hp (ih (OpLog.entries_insertEntry_ne_empty L e) hnd fun a ha => ?_)
    obtain ⟨hav, han, hac, had⟩ := hes a (List.mem_cons_of_mem _ ha)
    refine ⟨hav, han, hac, fun hmem => ?_⟩
    rcases HashMap.mem_insert.mp hmem with heq | hmem
    · exact heh (heq ▸ List.mem_map_of_mem ha)
    · exact had hmem

theorem reconstructOplog_of_roots [Crates] {σ : HashOrder} {genesis : Entry} {others : List Entry}
    (hroots : rootsOf es = genesis :: others) :
    reconstructOplog σ es = reconstructFrom σ es genesis others := by
  have hne : es ≠ [] := by
    rintro rfl
    simp [rootsOf] at hroots
  rw [reconstructOplog, if_neg (by simpa using hne), hroots]

/-- **Reconstruction.** A nonempty table comes back whole, whatever the order of its entries
and of the hash maps, when no root after the first is a checkpoint. -/
theorem reconstructOplog_ok [Crates] (hD : Table D) (hne : D ≠ ∅) (hes : Enumerates es D)
    (hroots : NoLaterCheckpoint es) (σ : HashOrder) :
    ∃ L, reconstructOplog σ es = .ok L ∧ L.WellFormed ∧ L.entries = D := by
  obtain ⟨h₀, hh₀⟩ : ∃ h, h ∈ D := by
    by_contra hno
    exact hne (Std.ExtTreeMap.eq_empty_iff_forall_not_mem.mpr fun h hh => hno ⟨h, hh⟩)
  obtain ⟨r₀, hr₀, hr₀n⟩ := hD.exists_root hh₀
  have hr₀m := (mem_rootsOf hes hD).mpr ⟨hr₀, hr₀n⟩
  have hmemroots := fun h => mem_rootsOf (h := h) hes hD
  have hrootof : ∀ r ∈ rootsOf es, r ∈ es ∧ r.next = [] := fun r hr => by
    simpa [rootsOf] using hr
  have hrnd : ((rootsOf es).map Entry.hash).Nodup :=
    (hes.nodup hD).sublist (List.filter_sublist.map _)
  cases hro : rootsOf es with
  | nil => simp [hro] at hr₀m
  | cons genesis others =>
    rw [NoLaterCheckpoint, hro] at hroots
    rw [hro] at hmemroots hrootof hrnd
    have hvalid : ∀ r ∈ genesis :: others, D[r.hash]? = some r ∧ r.verifyHash ∧ r.next = [] :=
      fun r hr => by
        obtain ⟨hre, hrn⟩ := hrootof r hr
        have hget := (hes.mem hD).mp hre
        exact ⟨hget, (hD.keyed _ r hget).2, hrn⟩
    obtain ⟨-, hgv, hgn⟩ := hvalid genesis List.mem_cons_self
    obtain ⟨hgo, hond⟩ := List.nodup_cons.mp hrnd
    have hi : Inserts (OpLog.new genesis) others ((OpLog.new genesis).appendAll others) := by
      refine appendAll_inserts (OpLog.entries_new_ne_empty genesis) hond fun r hr => ?_
      obtain ⟨-, hv, hn⟩ := hvalid r (List.mem_cons_of_mem _ hr)
      refine ⟨hv, hn, hroots r hr, fun hmem => ?_⟩
      rcases HashMap.mem_insert.mp hmem with heq | hmem
      · exact hgo (heq ▸ List.mem_map_of_mem hr)
      · exact absurd hmem Std.ExtTreeMap.not_mem_empty
    let resolved : HashSet Hash := Std.ExtTreeSet.ofList ((genesis :: others).map Entry.hash) compare
    have hres : ∀ h, h ∈ resolved ↔ h ∈ D ∧ nextIn D h = [] := fun h => by
      rw [← hmemroots, HashSet.mem_ofList]
    obtain ⟨hx1, hx2, hx3⟩ := indexParents_spec σ resolved D
    have hwalk : ∀ h, h ∈ σ.walk resolved.toList ↔ h ∈ resolved := fun h => by
      rw [HashOrder.mem_walk, Std.ExtTreeSet.mem_toList]
    have hw₀ : Waiting D resolved [] (indexParents σ resolved D).pendingParents := by
      refine ⟨fun h hh hr => ?_, hx2⟩
      obtain ⟨e, he⟩ := HashMap.mem_iff_getElem?.mp hh
      obtain ⟨s, hs, hsm⟩ := hx1 h e he hr
      exact ⟨s, hs, fun p => by rw [hsm, nextIn_eq he]; simp⟩
    have hk₀ : Dag.KahnInv (nextIn D) (· ∈ D) [] (σ.walk resolved.toList ++ []) := by
      rw [List.append_nil]
      refine .init ((σ.perm _).nodup_iff.mpr HashSet.nodup_toList) fun x => ?_
      rw [hwalk, hres]
      refine and_congr_right fun hx => ⟨fun hn p hp => ?_, fun hall => ?_⟩
      · rw [hn] at hp
        cases hp
      · refine List.eq_nil_iff_forall_not_mem.mpr fun p hp => ?_
        obtain ⟨e, he, hpe⟩ := mem_nextIn.mp hp
        exact absurd (hall p hp (hD.parents x e he p hpe)) List.not_mem_nil
    obtain ⟨pp, ready, hseed, hw, hk⟩ :=
      seedReady_spec hD (fun r hr => ((hres r).mp hr).2) hx3 (σ.walk resolved.toList) hw₀ hk₀
    rw [List.nil_append] at hw hk
    -- after the roots the log holds exactly what is done
    have hheld : ∀ h, ((OpLog.new genesis).appendAll others).entries[h]? =
        if h ∈ σ.walk resolved.toList then D[h]? else none := by
      intro h
      by_cases hh : h ∈ resolved
      · rw [if_pos ((hwalk h).mpr hh)]
        obtain ⟨r, hr, rfl⟩ := List.mem_map.mp (HashSet.mem_ofList.mp hh)
        rw [(hvalid r hr).1]
        rcases List.mem_cons.mp hr with rfl | hr
        · exact hi.grows (by simp [OpLog.getElem?_new])
        · exact hi.get_new hr
      · rw [if_neg fun hc => hh ((hwalk h).mp hc)]
        refine HashMap.not_mem_iff_getElem?.mp fun hmem => hh (HashSet.mem_ofList.mpr ?_)
        rcases hi.mem_iff.mp hmem with hmem | hmem
        · rcases HashMap.mem_insert.mp hmem with rfl | hmem
          · exact List.mem_cons_self
          · exact absurd hmem Std.ExtTreeMap.not_mem_empty
        · exact List.mem_cons_of_mem _ hmem
    obtain ⟨L, pp', hrun, hL, hLD, hempty⟩ := reconstructLoop_spec hD hres hx3 D.size (by omega) hw hk
      (fun r hr => (hwalk r).mpr hr) (hi.wellFormed (.new hgv hgn)) hheld
    refine ⟨L, ?_, hL, hLD⟩
    have hunres : (pp'.toList.filter fun kv => !kv.2.isEmpty) = [] := by
      refine List.filter_eq_nil_iff.mpr fun kv hkv => ?_
      simp [hempty kv.1 kv.2 (HashMap.mem_toList.mp hkv)]
    rw [reconstructOplog_of_roots hro, reconstructFrom, indexByHash_eq hes hD]
    simp only [resolved] at hseed hrun
    simp only [hseed, hrun, hunres]
    rfl

/-! ### When a later root is a checkpoint -/

theorem unblock_mem (x : Hash) (kids : List Hash) (pp : HashMap Hash (HashSet Hash))
    (ready : List Hash) :
    (∀ k, k ∈ (unblock x kids pp ready).1 ↔ k ∈ pp) ∧
      ∀ y ∈ (unblock x kids pp ready).2, y ∈ ready ∨ y ∈ pp := by
  induction kids generalizing pp ready with
  | nil => exact ⟨fun k => Iff.rfl, fun y hy => .inl hy⟩
  | cons a kids ih =>
    cases hpa : pp[a]? with
    | none =>
      have hstep : unblock x (a :: kids) pp ready = unblock x kids pp ready := by
        simp [unblock, hpa]
      rw [hstep]
      exact ih pp ready
    | some s =>
      have ha : a ∈ pp := HashMap.mem_iff_getElem?.mpr ⟨s, hpa⟩
      have hkeys : ∀ k, k ∈ pp.insert a (s.erase x) ↔ k ∈ pp := fun k => by
        rw [HashMap.mem_insert]
        exact ⟨fun h => h.elim (fun h => h ▸ ha) id, .inr⟩
      obtain ⟨ih1, ih2⟩ := ih (pp.insert a (s.erase x))
        (if (s.erase x).isEmpty then ready ++ [a] else ready)
      have hstep : unblock x (a :: kids) pp ready = unblock x kids (pp.insert a (s.erase x))
          (if (s.erase x).isEmpty then ready ++ [a] else ready) := by
        simp [unblock, hpa]
      rw [hstep]
      refine ⟨fun k => (ih1 k).trans (hkeys k), fun y hy => ?_⟩
      rcases ih2 y hy with hy | hy
      · split at hy
        · rcases List.mem_append.mp hy with hy | hy
          · exact .inl hy
          · rw [List.mem_singleton] at hy
            exact .inr (hy ▸ ha)
        · exact .inl hy
      · exact .inr ((hkeys y).mp hy)

theorem seedReady_mem (childrenOf : HashMap Hash (List Hash)) (rs : List Hash)
    (pp : HashMap Hash (HashSet Hash)) (ready : List Hash) :
    (∀ k, k ∈ (seedReady childrenOf rs pp ready).1 ↔ k ∈ pp) ∧
      ∀ y ∈ (seedReady childrenOf rs pp ready).2, y ∈ ready ∨ y ∈ pp := by
  induction rs generalizing pp ready with
  | nil => exact ⟨fun k => Iff.rfl, fun y hy => .inl hy⟩
  | cons r rs ih =>
    obtain ⟨hu1, hu2⟩ := unblock_mem r (childrenOf[r]?.getD []) pp ready
    obtain ⟨ih1, ih2⟩ := ih (unblock r (childrenOf[r]?.getD []) pp ready).1
      (unblock r (childrenOf[r]?.getD []) pp ready).2
    rw [seedReady]
    refine ⟨fun k => (ih1 k).trans (hu1 k), fun y hy => ?_⟩
    rcases ih2 y hy with hy | hy
    · exact hu2 y hy
    · exact .inr ((hu1 y).mp hy)

/-- The main loop adds entries that were waiting, and no others. -/
theorem reconstructLoop_mem [Crates] (hD : Table D) {childrenOf : HashMap Hash (List Hash)}
    (fuel : ℕ) {ready : List Hash} {pp pp' : HashMap Hash (HashSet Hash)} {L L' : OpLog}
    (hne : L.entries ≠ ∅) (hready : ∀ y ∈ ready, y ∈ pp)
    (hrun : reconstructLoop D childrenOf fuel ready pp L = .ok (L', pp')) (hh : h ∈ L'.entries) :
    h ∈ L.entries ∨ h ∈ pp := by
  induction fuel generalizing ready pp L with
  | zero =>
    rw [reconstructLoop] at hrun
    cases hrun
    exact .inl hh
  | succ fuel ih =>
    cases ready with
    | nil =>
      rw [reconstructLoop] at hrun
      cases hrun
      exact .inl hh
    | cons x ready =>
      have hx : x ∈ pp := hready x List.mem_cons_self
      have hrest : ∀ y ∈ ready, y ∈ pp := fun y hy => hready y (List.mem_cons_of_mem _ hy)
      cases he : D[x]? with
      | none =>
        rw [reconstructLoop, he] at hrun
        exact ih hne hrest hrun
      | some e =>
        obtain ⟨hex, -⟩ := hD.keyed x e he
        obtain ⟨hu1, hu2⟩ := unblock_mem x (childrenOf[x]?.getD []) pp ready
        rw [reconstructLoop, he] at hrun
        simp only at hrun
        split at hrun
        · cases hrun
        · rename_i b L₁ happ
          have hL₁ : (L.append e).2 = L₁ := by rw [happ]
          rcases ih (hL₁ ▸ OpLog.entries_append_ne_empty hne e)
            (fun y hy => (hu1 y).mpr ((hu2 y hy).elim (hrest y) id)) hrun with hm | hm
          · rcases OpLog.mem_append hne (hL₁ ▸ hm) with hm | hm
            · exact .inl hm
            · exact .inr (by rw [hm, hex]; exact hx)
          · exact .inr ((hu1 h).mp hm)

/-- **A checkpoint among later roots.** If the last root is a checkpoint, the other roots
are gone from whatever log the reconstruction returns. -/
theorem reconstructOplog_drops [Crates] (hD : Table D) (hes : Enumerates es D) (σ : HashOrder)
    {pre : List Entry} {c r : Entry} (hroots : rootsOf es = pre ++ [c])
    (hc : c.payload.isCheckpoint) (hr : r ∈ pre) {L : OpLog}
    (hrun : reconstructOplog σ es = .ok L) : r.hash ∉ L.entries := by
  cases pre with
  | nil => cases hr
  | cons genesis mid =>
    have hnd : ((rootsOf es).map Entry.hash).Nodup :=
      (hes.nodup hD).sublist (List.filter_sublist.map _)
    rw [hroots, List.map_append] at hnd
    have hfresh : ∀ a ∈ genesis :: mid, a.hash ≠ c.hash := fun a ha heq =>
      (List.disjoint_of_nodup_append hnd) (List.mem_map_of_mem ha) (by simp [heq])
    have hcr : c ∈ rootsOf es := by
      rw [hroots]
      simp
    obtain ⟨hces, hcn⟩ : c ∈ es ∧ c.next = [] := by simpa [rootsOf] using hcr
    have hcv : c.verifyHash := (hD.keyed _ c ((hes.mem hD).mp hces)).2
    -- appending the last root replaces the log
    have hmid := OpLog.entries_appendAll_ne_empty (OpLog.entries_new_ne_empty genesis) mid
    have hcm : c.hash ∉ ((OpLog.new genesis).appendAll mid).entries := by
      intro hm
      rcases OpLog.mem_appendAll (OpLog.entries_new_ne_empty genesis) hm with hm | hm
      · rcases HashMap.mem_insert.mp hm with heq | hm
        · exact hfresh genesis List.mem_cons_self heq
        · exact absurd hm Std.ExtTreeMap.not_mem_empty
      · obtain ⟨a, ha, heq⟩ := List.mem_map.mp hm
        exact hfresh a (List.mem_cons_of_mem _ ha) heq
    have hlog : (OpLog.new genesis).appendAll (mid ++ [c]) = OpLog.new c := by
      have hsplit : (OpLog.new genesis).appendAll (mid ++ [c]) =
          (((OpLog.new genesis).appendAll mid).append c).2 := by
        simp only [OpLog.appendAll, List.foldl_append, List.foldl_cons, List.foldl_nil]
      rw [hsplit, OpLog.append_eq_replace hmid hcv hcm (by simp [Entry.isRootCheckpoint, hcn, hc]),
        OpLog.replaceWithCheckpoint_eq_new]
    let resolved : HashSet Hash :=
      Std.ExtTreeSet.ofList ((genesis :: (mid ++ [c])).map Entry.hash) compare
    have hrres : r.hash ∈ resolved :=
      HashSet.mem_ofList.mpr (List.mem_map_of_mem (by
        rw [← List.cons_append]
        exact List.mem_append_left _ hr))
    obtain ⟨-, hx2, -⟩ := indexParents_spec σ resolved D
    rw [List.cons_append] at hroots
    rw [reconstructOplog_of_roots hroots, reconstructFrom, indexByHash_eq hes hD, hlog] at hrun
    simp only at hrun
    -- what the traversal adds was waiting, and a root never waits
    obtain ⟨hs1, hs2⟩ := seedReady_mem (indexParents σ resolved D).childrenOf
      (σ.walk resolved.toList) (indexParents σ resolved D).pendingParents []
    split at hrun
    · cases hrun
    · rename_i L' pp' hloop
      split at hrun
      · obtain rfl := Except.ok.inj hrun
        intro hm
        rcases reconstructLoop_mem hD D.size (OpLog.entries_new_ne_empty c)
          (fun y hy => (hs1 y).mpr ((hs2 y hy).resolve_left List.not_mem_nil)) hloop hm with hm | hm
        · rcases HashMap.mem_insert.mp hm with heq | hm
          · exact hfresh r hr heq.symm
          · exact absurd hm Std.ExtTreeMap.not_mem_empty
        · have hnone := hx2 r.hash (.inr hrres)
          exact HashMap.not_mem_iff_getElem?.mpr hnone ((hs1 _).mp hm)
      · cases hrun

end Store

end SilkGraph
