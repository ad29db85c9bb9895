import Mathlib.Data.List.Dedup
import SilkGraph.Sync.Delivery

/-!
# Filtered sync

`PyGraphStore::receive_filtered_sync_offer`: of what an offer lacks, keep what concerns nodes
of the requested types, and all ancestors of it. Which nodes these are is read off the
`AddNode` entries of the payload, so of a node that the recipient had before, and whose
`AddNode` is not sent again, an update or a removal is kept only as the ancestor of something
else.

A part of a payload that is closed under parents, except below the recipient's heads, can be
merged on its own (`ClosedPayload.merge_admitted`), and the filter leaves such a part.
-/

namespace SilkGraph

open OpLog

/-! ### The filter -/

/-- The nodes to keep: those added in the payload under a requested type. -/
def wantedNodeIds (typeSet : HashSet String) (entries : List Entry) : HashSet String :=
  entries.foldl (fun wanted e => match e.payload with
    | .addNode nodeId nodeType _ _ _ => if typeSet.contains nodeType then wanted.insert nodeId else wanted
    | _ => wanted) ∅

/-- Whether the filter drops an entry. A `RemoveEdge` is kept, as its endpoints are unknown. -/
def dominated (typeSet wanted : HashSet String) (e : Entry) : Bool :=
  match e.payload with
  | .addNode _ nodeType _ _ _ => !typeSet.contains nodeType
  | .addEdge _ _ sourceId targetId _ => !wanted.contains sourceId && !wanted.contains targetId
  | .updateProperty entityId _ _ => !wanted.contains entityId
  | .removeNode nodeId => !wanted.contains nodeId
  | .removeEdge _ | .defineOntology _ | .extendOntology _ | .checkpoint .. | .defineLens _ => false

/-- The parents of one entry that join the kept hashes and the queue. -/
def keepParents : List Hash → HashSet Hash → List Hash → HashSet Hash × List Hash
  | [], keep, queue => (keep, queue)
  | p :: rest, keep, queue =>
    if keep.contains p then keepParents rest keep queue
    else keepParents rest (keep.insert p) (queue ++ [p])

/-- Causal closure within the payload. The first argument bounds the number of pops. -/
def keepAncestors (entryMap : HashMap Hash Entry) : ℕ → List Hash → HashSet Hash → HashSet Hash
  | 0, _, keep => keep
  | _ + 1, [], keep => keep
  | fuel + 1, h :: queue, keep =>
    match entryMap[h]? with
    | none => keepAncestors entryMap fuel queue keep
    | some entry =>
      let (keep, queue) := keepParents entry.next keep queue
      keepAncestors entryMap fuel queue keep

/-- The part of a payload to send: what the filter keeps, and its ancestors. -/
def SyncPayload.filterTypes (self : SyncPayload) (nodeTypes : List String) : SyncPayload :=
  let typeSet : HashSet String := Std.ExtTreeSet.ofList nodeTypes compare
  let wanted := wantedNodeIds typeSet self.entries
  let keep : HashSet Hash := Std.ExtTreeSet.ofList
    ((self.entries.filter fun e => !dominated typeSet wanted e).map Entry.hash) compare
  let entryMap : HashMap Hash Entry := self.entries.foldl (fun m e => m.insert e.hash e) ∅
  let keep := keepAncestors entryMap (keep.size + (self.entries.flatMap Entry.next).length)
    keep.toList keep
  { entries := self.entries.filter fun e => keep.contains e.hash, need := self.need }

/-! ### What is wanted -/

section Wanted

variable {typeSet : HashSet String} {entries es : List Entry} {e : Entry} {h : Hash} {id : String}

theorem mem_wantedNodeIds : id ∈ wantedNodeIds typeSet entries ↔
    ∃ e ∈ entries, ∃ ty st lb ps, e.payload = .addNode id ty st lb ps ∧ ty ∈ typeSet := by
  have hfold : ∀ (l : List Entry) (s : HashSet String),
      id ∈ l.foldl (fun wanted e => match e.payload with
        | .addNode nodeId nodeType _ _ _ =>
          if typeSet.contains nodeType then wanted.insert nodeId else wanted
        | _ => wanted) s ↔
      id ∈ s ∨ ∃ e ∈ l, ∃ ty st lb ps, e.payload = .addNode id ty st lb ps ∧ ty ∈ typeSet := by
    intro l
    induction l with
    | nil => simp
    | cons e l ih =>
      intro s
      rw [List.foldl_cons, ih]
      split
      · rename_i nid nty _ _ _ hp
        by_cases hty : nty ∈ typeSet
        · rw [if_pos (Std.ExtTreeSet.contains_iff_mem.mpr hty), HashSet.mem_insert]
          simp only [List.mem_cons, exists_eq_or_imp, hp, GraphOp.addNode.injEq]
          grind
        · rw [if_neg (fun hc => hty (Std.ExtTreeSet.contains_iff_mem.mp hc))]
          simp only [List.mem_cons, exists_eq_or_imp, hp, GraphOp.addNode.injEq]
          grind
      · simp only [List.mem_cons, exists_eq_or_imp]
        grind
  rw [wantedNodeIds, hfold]
  simp

/-- The hashes that are kept: those the filter leaves, and the parents of what is kept. -/
inductive KeptHash (typeSet : HashSet String) (entries : List Entry) : Hash → Prop where
  | passes {e : Entry} (mem : e ∈ entries)
      (passes : dominated typeSet (wantedNodeIds typeSet entries) e = false) : KeptHash typeSet entries e.hash
  | parent {e : Entry} (mem : e ∈ entries) (kept : KeptHash typeSet entries e.hash) {p : Hash}
      (next : p ∈ e.next) : KeptHash typeSet entries p

/-- An entry about a node is kept if the payload adds the node under a requested type. -/
theorem kept_of_wanted (he : e ∈ entries) (hw : id ∈ wantedNodeIds typeSet entries)
    (hp : (∃ k v, e.payload = .updateProperty id k v) ∨ e.payload = .removeNode id) :
    KeptHash typeSet entries e.hash := by
  refine .passes he ?_
  obtain ⟨k, v, hp⟩ | hp := hp <;>
    simp only [dominated, hp, Std.ExtTreeSet.contains_iff_mem.mpr hw, Bool.not_true]

end Wanted

/-! ### The closure -/

section Closure

variable {entryMap : HashMap Hash Entry} {keep : HashSet Hash} {queue next : List Hash}

/-- The hashes of a list that are not kept, without repeats. -/
def unkept (parents : List Hash) (keep : HashSet Hash) : ℕ :=
  (parents.dedup.filter fun h => !keep.contains h).length

theorem unkept_insert {parents : List Hash} {h : Hash} (hh : h ∈ parents) (hk : h ∉ keep) :
    unkept parents (keep.insert h) + 1 = unkept parents keep :=
  length_filter_insert (List.nodup_dedup _) (List.mem_dedup.mpr hh) hk

/-- Keeping the parents of one entry: what joined the kept hashes joined the queue. -/
theorem keepParents_spec (parents next : List Hash) (hsub : next ⊆ parents) (keep : HashSet Hash)
    (queue : List Hash) :
    ∃ keep' pulled, keepParents next keep queue = (keep', queue ++ pulled) ∧
      (∀ x, x ∈ keep' ↔ x ∈ keep ∨ x ∈ pulled) ∧ (∀ p ∈ next, p ∈ keep') ∧ pulled ⊆ next ∧
      unkept parents keep' + pulled.length = unkept parents keep := by
  induction next generalizing keep queue with
  | nil => exact ⟨keep, [], by simp [keepParents]⟩
  | cons p next ih =>
    obtain ⟨hp, hsub⟩ := List.cons_subset.mp hsub
    by_cases hk : p ∈ keep
    · obtain ⟨keep', pulled, hrun, hmem, hall, hpull, hcount⟩ := ih hsub keep queue
      refine ⟨keep', pulled, ?_, hmem, ?_, fun x hx => List.mem_cons_of_mem p (hpull hx), hcount⟩
      · rw [keepParents, if_pos (Std.ExtTreeSet.contains_iff_mem.mpr hk), hrun]
      · rintro q (_ | ⟨_, hq⟩)
        · exact (hmem p).mpr (.inl hk)
        · exact hall q hq
    · obtain ⟨keep', pulled, hrun, hmem, hall, hpull, hcount⟩ := ih hsub (keep.insert p) (queue ++ [p])
      refine ⟨keep', p :: pulled, ?_, fun x => ?_, ?_, ?_, ?_⟩
      · rw [keepParents, if_neg (fun hc => hk (Std.ExtTreeSet.contains_iff_mem.mp hc)), hrun,
          List.append_assoc, List.singleton_append]
      · rw [hmem, HashSet.mem_insert, List.mem_cons]
        grind
      · rintro q (_ | ⟨_, hq⟩)
        · exact (hmem p).mpr (.inl (HashSet.mem_insert.mpr (.inl rfl)))
        · exact hall q hq
      · exact List.cons_subset_cons p hpull
      · rw [← unkept_insert hp hk, List.length_cons]
        omega

/-- **Closure.** The result holds what was kept, the parents of everything in it, and only
what such a set has to hold. -/
theorem keepAncestors_spec (parents : List Hash)
    (hparents : ∀ (h : Hash) (e : Entry), entryMap[h]? = some e → e.next ⊆ parents) (fuel : ℕ)
    (queue : List Hash) (keep : HashSet Hash) (hfuel : queue.length + unkept parents keep ≤ fuel)
    (hinv : ∀ x ∈ keep, x ∈ queue ∨ ∀ e, entryMap[x]? = some e → ∀ p ∈ e.next, p ∈ keep)
    (hqueue : ∀ x ∈ queue, x ∈ keep) {P : Hash → Prop} (hP : ∀ x ∈ keep, P x)
    (hstep : ∀ x e p, P x → entryMap[x]? = some e → p ∈ e.next → P p) :
    (∀ x ∈ keep, x ∈ keepAncestors entryMap fuel queue keep) ∧
    (∀ x ∈ keepAncestors entryMap fuel queue keep, ∀ e, entryMap[x]? = some e → ∀ p ∈ e.next,
      p ∈ keepAncestors entryMap fuel queue keep) ∧
    ∀ x ∈ keepAncestors entryMap fuel queue keep, P x := by
  induction fuel generalizing queue keep with
  | zero =>
    obtain rfl : queue = [] := List.eq_nil_of_length_eq_zero (by omega)
    exact ⟨fun x hx => hx, fun x hx => (hinv x hx).resolve_left (by simp), hP⟩
  | succ fuel ih =>
    cases queue with
    | nil => exact ⟨fun x hx => hx, fun x hx => (hinv x hx).resolve_left (by simp), hP⟩
    | cons h queue =>
      rw [List.length_cons] at hfuel
      have hq : ∀ x ∈ queue, x ∈ keep := fun x hx => hqueue x (List.mem_cons_of_mem h hx)
      cases he : entryMap[h]? with
      | none =>
        have hrun : keepAncestors entryMap (fuel + 1) (h :: queue) keep =
            keepAncestors entryMap fuel queue keep := by simp [keepAncestors, he]
        rw [hrun]
        refine ih queue keep (by omega) (fun x hx => ?_) hq hP
        obtain hm | hm := hinv x hx
        · obtain rfl | hm := List.mem_cons.mp hm
          · exact .inr fun e hxe => by rw [he] at hxe; cases hxe
          · exact .inl hm
        · exact .inr hm
      | some e =>
        obtain ⟨keep', pulled, hrun, hmem, hall, hpull, hcount⟩ :=
          keepParents_spec parents e.next (hparents h e he) keep queue
        have hrun : keepAncestors entryMap (fuel + 1) (h :: queue) keep =
            keepAncestors entryMap fuel (queue ++ pulled) keep' := by
          simp [keepAncestors, he, hrun]
        rw [hrun]
        have hnew : ∀ x ∈ pulled, P x := fun x hx =>
          hstep h e x (hP h (hqueue h List.mem_cons_self)) he (hpull hx)
        have hinv' : ∀ x ∈ keep', x ∈ queue ++ pulled ∨
            ∀ e, entryMap[x]? = some e → ∀ p ∈ e.next, p ∈ keep' := by
          intro x hx
          obtain hx | hx := (hmem x).mp hx
          · obtain hm | hm := hinv x hx
            · obtain rfl | hm := List.mem_cons.mp hm
              · refine .inr fun e' hxe => ?_
                obtain rfl := Option.some.inj (he.symm.trans hxe)
                exact hall
              · exact .inl (List.mem_append_left _ hm)
            · exact .inr fun e' hxe p hp => (hmem p).mpr (.inl (hm e' hxe p hp))
          · exact .inl (List.mem_append_right _ hx)
        have hq' : ∀ x ∈ queue ++ pulled, x ∈ keep' := fun x hx =>
          (hmem x).mpr ((List.mem_append.mp hx).imp_left (hq x))
        obtain ⟨h1, h2, h3⟩ := ih (queue ++ pulled) keep' (by rw [List.length_append]; omega) hinv' hq'
          fun x hx => ((hmem x).mp hx).elim (hP x) (hnew x)
        exact ⟨fun x hx => h1 x ((hmem x).mpr (.inl hx)), h2, h3⟩

end Closure

/-! ### The payload that is left -/

/-- What makes a payload mergeable: stored entries, none twice, parents sent along and first,
except for the remote's heads. -/
structure ClosedPayload (L : OpLog) (remoteHeads : List Hash) (es : List Entry) : Prop where
  stored : ∀ e ∈ es, L.entries[e.hash]? = some e
  nodup : (hashesOf es).Nodup
  closed : ∀ e ∈ es, ∀ p ∈ e.next, p ∈ hashesOf es ∨ p ∈ remoteHeads
  order : ∀ pre e post, es = pre ++ e :: post → ∀ p ∈ e.next, p ∈ hashesOf es → p ∈ hashesOf pre

theorem EntriesMissing.closedPayload {L : OpLog} {remoteHeads : List Hash} {es : List Entry}
    (h : EntriesMissing L remoteHeads es) : ClosedPayload L remoteHeads es :=
  ⟨h.stored, h.nodup, h.closed, h.order⟩

section Filtered

variable {L : OpLog} {remoteHeads : List Hash} {payload : SyncPayload} {nodeTypes : List String}
  {es : List Entry}

/-- The hashes of the entries of a payload lead to them. -/
theorem getElem?_entryMap (hnd : (hashesOf es).Nodup) (h : Hash) (e : Entry) :
    (es.foldl (fun m e => m.insert e.hash e) (∅ : HashMap Hash Entry))[h]? = some e ↔
      e ∈ es ∧ e.hash = h := by
  have hfold : ∀ (l : List Entry) (m : HashMap Hash Entry), (hashesOf l).Nodup →
      ((l.foldl (fun m e => m.insert e.hash e) m)[h]? = some e ↔
        (e ∈ l ∧ e.hash = h) ∨ h ∉ hashesOf l ∧ m[h]? = some e) := by
    intro l
    induction l with
    | nil => simp [hashesOf]
    | cons a l ih =>
      intro m hl
      obtain ⟨ha, hl⟩ := List.nodup_cons.mp hl
      rw [List.foldl_cons, ih _ hl, HashMap.getElem?_insert]
      have hmem : ∀ x ∈ l, x.hash ∈ hashesOf l := fun x hx => List.mem_map_of_mem hx
      by_cases hah : a.hash = h
      · subst hah
        rw [if_pos rfl]
        simp only [List.mem_cons, hashesOf, List.map_cons]
        grind [hashesOf]
      · rw [if_neg hah]
        simp only [List.mem_cons, hashesOf, List.map_cons]
        grind [hashesOf]
  rw [hfold es ∅ hnd]
  simp

/-- **The filter.** It leaves the entries whose hashes are kept. -/
theorem mem_filterTypes (hnd : (hashesOf payload.entries).Nodup) (nodeTypes : List String) (e : Entry) :
    e ∈ (payload.filterTypes nodeTypes).entries ↔
      e ∈ payload.entries ∧ KeptHash (Std.ExtTreeSet.ofList nodeTypes compare) payload.entries e.hash := by
  let typeSet : HashSet String := Std.ExtTreeSet.ofList nodeTypes compare
  let passing := payload.entries.filter fun e => !dominated typeSet (wantedNodeIds typeSet payload.entries) e
  let keep : HashSet Hash := Std.ExtTreeSet.ofList (passing.map Entry.hash) compare
  let entryMap := payload.entries.foldl (fun m e => m.insert e.hash e) (∅ : HashMap Hash Entry)
  let parents := payload.entries.flatMap Entry.next
  have hget : ∀ (h : Hash) (e : Entry), entryMap[h]? = some e ↔ e ∈ payload.entries ∧ e.hash = h :=
    getElem?_entryMap hnd
  have hkeep : ∀ x, x ∈ keep ↔ ∃ e ∈ passing, e.hash = x := fun x => by
    rw [HashSet.mem_ofList, List.mem_map]
  have hparents : ∀ (h : Hash) (e : Entry), entryMap[h]? = some e → e.next ⊆ parents :=
    fun h e he p hp => List.mem_flatMap.mpr ⟨e, ((hget h e).mp he).1, hp⟩
  have hfuel : keep.toList.length + unkept parents keep ≤ keep.size + parents.length := by
    have h1 : unkept parents keep ≤ parents.dedup.length := List.length_filter_le _ _
    have h2 : parents.dedup.length ≤ parents.length := (List.dedup_sublist parents).length_le
    rw [Std.ExtTreeSet.length_toList]
    omega
  have hseed : ∀ x ∈ keep, KeptHash typeSet payload.entries x := fun x hx => by
    obtain ⟨e, he, rfl⟩ := (hkeep x).mp hx
    obtain ⟨he, hd⟩ := List.mem_filter.mp he
    exact .passes he (by simpa using hd)
  obtain ⟨hsub, hclosed, hkept⟩ := keepAncestors_spec parents hparents (keep.size + parents.length)
    keep.toList keep hfuel (fun x hx => .inl (Std.ExtTreeSet.mem_toList.mpr hx))
    (fun x hx => Std.ExtTreeSet.mem_toList.mp hx) hseed fun x e p hx he hp => by
      obtain ⟨hmem, rfl⟩ := (hget x e).mp he
      exact .parent hmem hx hp
  -- the closure is what is kept
  have hall : ∀ x, KeptHash typeSet payload.entries x →
      x ∈ keepAncestors entryMap (keep.size + parents.length) keep.toList keep := by
    intro x hx
    induction hx with
    | passes he hd =>
      exact hsub _ ((hkeep _).mpr ⟨_, List.mem_filter.mpr ⟨he, by simpa using hd⟩, rfl⟩)
    | parent he _ hp ih => exact hclosed _ ih _ ((hget _ _).mpr ⟨he, rfl⟩) _ hp
  change e ∈ payload.entries.filter _ ↔ _
  rw [List.mem_filter, Std.ExtTreeSet.contains_iff_mem]
  exact and_congr_right fun _ => ⟨hkept _, hall _⟩

/-- The part that the filter leaves is closed like the payload. -/
theorem ClosedPayload.filterTypes (h : ClosedPayload L remoteHeads payload.entries)
    (nodeTypes : List String) :
    ClosedPayload L remoteHeads (payload.filterTypes nodeTypes).entries := by
  have hmem := mem_filterTypes h.nodup nodeTypes
  obtain ⟨p, hp⟩ : ∃ p, (payload.filterTypes nodeTypes).entries = payload.entries.filter p := ⟨_, rfl⟩
  have hsub : (payload.filterTypes nodeTypes).entries.Sublist payload.entries := hp ▸ List.filter_sublist
  refine ⟨fun e he => h.stored e (hsub.subset he), h.nodup.sublist (hsub.map _), fun e he q hq => ?_,
    fun pre e post heq q hq hin => ?_⟩
  · obtain ⟨hin, hk⟩ := (hmem e).mp he
    refine (h.closed e hin q hq).imp_left fun hqm => ?_
    obtain ⟨x, hx, rfl⟩ := List.mem_map.mp hqm
    exact List.mem_map_of_mem ((hmem x).mpr ⟨hx, .parent hin hk hq⟩)
  · -- the entry was sent with the parent before it, and the parent is left as well
    rw [hp, List.filter_eq_append_iff] at heq
    obtain ⟨pre', rest, hsplit, rfl, hrest⟩ := heq
    rw [List.filter_eq_cons_iff] at hrest
    obtain ⟨dropped, post', hrest, hdropped, -, rfl⟩ := hrest
    obtain ⟨y, hy, rfl⟩ := List.mem_map.mp hin
    have hbefore := h.order (pre' ++ dropped) e post' (by rw [hsplit, hrest, List.append_assoc]) y.hash hq
      (List.mem_map_of_mem (hsub.subset hy))
    obtain ⟨x, hx, hxy⟩ := List.mem_map.mp hbefore
    have hin' : x ∈ payload.entries := by
      rw [hsplit, hrest, ← List.append_assoc]
      exact List.mem_append_left _ hx
    obtain rfl := List.inj_on_of_nodup_map h.nodup hin' (hsub.subset hy) hxy
    have hpx : p x = true := (List.mem_filter.mp (hp ▸ hy)).2
    refine List.mem_map_of_mem (List.mem_filter.mpr ⟨?_, hpx⟩)
    exact (List.mem_append.mp hx).resolve_right fun hd => hdropped x hd hpx

end Filtered

/-! ### Merging it -/

section Merging

variable [Crates] {L B : OpLog} {remoteHeads : List Hash} {es : List Entry}

/-- Every entry of a closed payload is resolvable over the recipient's log, from any part of
the payload that has what the recipient lacks. -/
theorem ClosedPayload.resolvable (hp : ClosedPayload L remoteHeads es) (hL : L.RepInv)
    (hheads : ∀ h ∈ remoteHeads, h ∈ B.entries) {batch : List Entry}
    (hbatch : ∀ e ∈ es, e.hash ∉ B.entries → e ∈ batch) : ∀ h ∈ hashesOf es, Resolvable B batch h := by
  -- induction on the entries that come first, which are all the parents
  have hpre : ∀ pre post, es = pre ++ post → ∀ h ∈ hashesOf pre, Resolvable B batch h := by
    intro pre
    induction pre using List.reverseRecOn with
    | nil => exact fun _ _ h hh => absurd hh List.not_mem_nil
    | append_singleton pre e ih =>
      intro post heq h hh
      rw [List.append_assoc] at heq
      have hfirst := ih ([e] ++ post) heq
      rw [hashesOf, List.map_append, List.mem_append, List.map_singleton, List.mem_singleton] at hh
      obtain hh | rfl := hh
      · exact hfirst h hh
      · by_cases hB : e.hash ∈ B.entries
        · exact .held hB
        · have he : e ∈ es := heq ▸ List.mem_append_right pre List.mem_cons_self
          refine .entry (hbatch e he hB) (hL.keyed _ e (hp.stored e he)).2 fun p hpe => ?_
          obtain hin | hr := hp.closed e he p hpe
          · exact hfirst p (hp.order pre e post heq p hpe hin)
          · exact .held (hheads p hr)
  exact hpre es [] (List.append_nil es).symm

/-- A recipient that admits what it lacks of a closed payload, and that is no parentless
checkpoint, merges it, and holds it afterwards with what it held. -/
theorem ClosedPayload.merge_admitted (hp : ClosedPayload L remoteHeads es) (hL : L.RepInv)
    (hB : B.WellFormed) (hheads : ∀ h ∈ remoteHeads, h ∈ B.entries) (passes : Entry → Bool)
    (hlack : ∀ e ∈ es, e.hash ∉ B.entries → passes e = true ∧ ¬ e.isRootCheckpoint) :
    ∃ new, (mergeBatch B (es.filter passes)).1 = .ok new ∧
      Inserts B new (mergeBatch B (es.filter passes)).2 ∧ new ⊆ es.filter passes ∧
      ∀ h, h ∈ (mergeBatch B (es.filter passes)).2.entries ↔ h ∈ B.entries ∨ h ∈ hashesOf es := by
  exact mergeBatch_admitted hB passes hlack fun batch hbatch e he =>
    ⟨(hL.keyed _ e (hp.stored e he)).2,
      hp.resolvable hL hheads hbatch e.hash (List.mem_map_of_mem he)⟩

end Merging

end SilkGraph
