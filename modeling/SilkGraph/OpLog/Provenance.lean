import SilkGraph.Lib.Route
import SilkGraph.OpLog.Order

/-!
# Provenance

`provenance.rs`: `entries_affecting` collects the entries whose payload mentions an id and
sorts them topologically. The sort sees the links *among* the matching entries only. An entry
whose parents all fail to match therefore starts a chain of its own, wherever in the log it
stands, and the listing is causal only where the order by chains happens to agree with the
order of the log (`entriesAffecting_causal_iff`).
-/

namespace SilkGraph

mutual

/-- Does this op reference the given id, as a node, edge, source, target or entity id? The
operations of a checkpoint are asked in turn. -/
def payloadMentionsId : GraphOp → String → Bool
  | .addNode nodeId _ _ _ _, id => nodeId == id
  | .addEdge edgeId _ sourceId targetId _, id => edgeId == id || sourceId == id || targetId == id
  | .updateProperty entityId _ _, id => entityId == id
  | .removeNode nodeId, id => nodeId == id
  | .removeEdge edgeId, id => edgeId == id
  | .defineOntology _, _ => false
  | .extendOntology _, _ => false
  | .defineLens _, _ => false
  | .checkpoint ops _ _ _, id => anyMentionsId ops id

/-- `ops.iter().any(|inner| payload_mentions_id(inner, id))`. -/
def anyMentionsId : List GraphOp → String → Bool
  | [], _ => false
  | inner :: ops, id => payloadMentionsId inner id || anyMentionsId ops id

end

namespace OpLog

/-- The hashes of the entries whose payload mentions an id. -/
def matching (self : OpLog) (id : String) : HashSet Hash :=
  Std.ExtTreeSet.ofList ((self.entries.toList.filter fun kv =>
    payloadMentionsId kv.2.payload id).map Prod.fst) compare

/-- All entries whose payload references the given id, in topological order. -/
def entriesAffecting (self : OpLog) (id : String) : Option (List Entry) :=
  self.topoSort (self.matching id)

variable {L : OpLog} {h : Hash} {hashes : HashSet Hash} {id : String}

theorem mem_matching : h ∈ L.matching id ↔
    ∃ e : Entry, L.entries[h]? = some e ∧ payloadMentionsId e.payload id = true := by
  rw [matching, HashSet.mem_ofList, List.mem_map]
  constructor
  · rintro ⟨kv, hkv, rfl⟩
    obtain ⟨hkv, hid⟩ := List.mem_filter.mp hkv
    exact ⟨kv.2, HashMap.mem_toList.mp hkv, hid⟩
  · rintro ⟨e, he, hid⟩
    exact ⟨(h, e), List.mem_filter.mpr ⟨HashMap.mem_toList.mpr he, hid⟩, rfl⟩

theorem matching_stored : ∀ h ∈ L.matching id, h ∈ L.entries := fun _ hh =>
  have ⟨e, he, _⟩ := mem_matching.mp hh
  HashMap.mem_iff_getElem?.mpr ⟨e, he⟩

/-! ### The order of the listing -/

/-- The route of a hash inside a subset: the clocks and hashes along a longest chain of links in
it, from an entry with no parent in the subset down to itself. -/
def routeIn (self : OpLog) (hashes : HashSet Hash) : Hash → List (ℕ ×ₗ (ℕ ×ₗ ℕ)) :=
  Dag.route self.nextOf hashes.contains self.sortKey hashes.size

/-- The first hash has the lower route: a shorter one, or one as long with lower keys. -/
def RouteBelow (L : OpLog) (hashes : HashSet Hash) (x y : Hash) : Prop :=
  Dag.RouteLT (L.routeIn hashes x) (L.routeIn hashes y)

instance (hashes : HashSet Hash) (x y : Hash) : Decidable (L.RouteBelow hashes x y) :=
  inferInstanceAs (Decidable (Dag.RouteLT _ _))

theorem pairwise_lt_sortReady {l : List Hash} (hl : ∀ h ∈ l, h ∈ L.entries) (hnd : l.Nodup) :
    (L.sortReady l).Pairwise fun a b => L.sortKey a < L.sortKey b := by
  have hne : (L.sortReady l).Nodup := (List.perm_insertionSort _ _).nodup_iff.mpr hnd
  refine (pairwise_sortReady hl).imp₂ ?_ hne
  exact fun a b hle hab => lt_of_le_of_ne hle fun h => hab (sortKey_injective L h)

theorem released_sorted (hs : ∀ h ∈ hashes, h ∈ L.entries) (done : List Hash) (x : Hash) :
    (L.released hashes done x).Pairwise fun a b => L.sortKey a < L.sortKey b := by
  refine pairwise_lt_sortReady (fun y hy => ?_) (HashSet.nodup_toList.filter _)
  have hy := (Bool.and_eq_true_iff.mp (List.mem_filter.mp hy).2).1
  exact hs y (Std.ExtTreeSet.contains_iff_mem.mp hy)

theorem startQueue_sorted (hs : ∀ h ∈ hashes, h ∈ L.entries) :
    (L.startQueue hashes).Pairwise fun a b => L.sortKey a < L.sortKey b :=
  pairwise_lt_sortReady
    (fun y hy => hs y (Std.ExtTreeSet.mem_toList.mp (List.mem_of_mem_filter hy)))
    (HashSet.nodup_toList.filter _)

section

variable [Crates]

/-- **Topological sort, by routes.** A sort of stored hashes lists them by their routes in the
subset. -/
theorem topoHashes_by_routes (hL : L.WellFormed) (hnd : L.NextNodupIn hashes)
    (hs : ∀ h ∈ hashes, h ∈ L.entries) :
    (L.topoHashes hashes).Pairwise (L.RouteBelow hashes) := by
  have hS : (fun p => hashes.contains p = true) = fun p => p ∈ hashes :=
    funext fun p => propext Std.ExtTreeSet.contains_iff_mem
  have hroute : ∀ x, hashes.contains x = true → L.routeIn hashes x =
      Dag.lastRoute (((L.nextOf x).filter hashes.contains).map (L.routeIn hashes)) ++
        [L.sortKey x] := fun x hx =>
    Dag.route_eq hL.causal (l := hashes.toList)
      (fun y hy => Std.ExtTreeSet.mem_toList.mpr (Std.ExtTreeSet.contains_iff_mem.mp hy))
      (Std.ExtTreeSet.length_toList.le) hx
  refine Dag.KahnRun.pairwise_route hroute (fun done x y hy => ?_) (released_sorted hs)
    (fun y hy => ?_) (startQueue_sorted hs) (topoHashes_run hL hnd).1
  · obtain ⟨hxy, hready⟩ := (mem_released hL).mp hy
    rw [hS]
    exact ⟨hxy, L.ready_iff.mpr hready⟩
  · rw [startQueue, sortReady, List.mem_insertionSort, List.mem_filter,
      Std.ExtTreeSet.mem_toList, beq_iff_eq] at hy
    rw [hS]
    exact L.ready_iff.mpr hy

/-! ### What a listing promises -/

/-- What provenance promises of a listing: exactly the entries that mention the id, each once,
every one after its causal predecessors among them. -/
structure Provenance (L : OpLog) (id : String) (es : List Entry) : Prop where
  once : es.Nodup
  complete : ∀ e : Entry, e ∈ es ↔
    L.entries[e.hash]? = some e ∧ payloadMentionsId e.payload id = true
  causal : ∀ x ∈ es, ∀ y ∈ es, Dag.Ancestor L.nextOf x.hash y.hash → [x, y].Sublist es

/-- The listing holds everything exactly if no matching entry names a matching parent twice. -/
theorem nextNodupIn_of_complete (hL : L.WellFormed) {es : List Entry}
    (hes : L.entriesAffecting id = some es) (hall : ∀ e : Entry, L.entries[e.hash]? = some e →
      payloadMentionsId e.payload id = true → e ∈ es) : L.NextNodupIn (L.matching id) := by
  intro h hh
  obtain ⟨e, he, hid⟩ := mem_matching.mp hh
  obtain rfl := (hL.rep.keyed h e he).1
  obtain ⟨hmap, -⟩ := topoSort_eq_some hL hes
  have hlisted : e.hash ∈ L.topoHashes (L.matching id) := by
    rw [← hmap]
    exact List.mem_map_of_mem (hall e he hid)
  exact ((topoHashes_any hL _).2.2 _ hlisted).2

/-- Without repeated parents, the matching entries are listed once each, by their routes. -/
theorem entriesAffecting_spec (hL : L.WellFormed) (hnd : L.NextNodupIn (L.matching id)) :
    ∃ es, L.entriesAffecting id = some es ∧ es.Nodup ∧
      (∀ e : Entry, e ∈ es ↔
        L.entries[e.hash]? = some e ∧ payloadMentionsId e.payload id = true) ∧
      es.Pairwise fun x y => L.RouteBelow (L.matching id) x.hash y.hash := by
  obtain ⟨es, hes, hmap, hget⟩ := topoSort_spec hL hnd matching_stored
  obtain ⟨hnodup, hmem, -⟩ := topoHashes_spec hL hnd
  have hsorted := topoHashes_by_routes hL hnd matching_stored
  rw [← hmap] at hnodup hmem hsorted
  refine ⟨es, hes, hnodup.of_map _, fun e => ⟨fun he => ?_, fun ⟨he, hid⟩ => ?_⟩,
    List.pairwise_map.mp hsorted⟩
  · obtain ⟨e', he', hid⟩ := mem_matching.mp ((hmem e.hash).mp (List.mem_map_of_mem he))
    obtain rfl := Option.some.inj ((hget e he).symm.trans he')
    exact ⟨he', hid⟩
  · obtain ⟨e', he', heq⟩ := List.mem_map.mp ((hmem e.hash).mpr (mem_matching.mpr ⟨e, he, hid⟩))
    have hsame := hget e' he'
    rw [heq, he] at hsame
    exact Option.some.inj hsame ▸ he'

/-- The condition under which the listing of an id is causal: no matching entry names a
matching parent twice, and where a matching entry descends from another through entries that
do not match, that other has the lower route. -/
structure RoutesCausally (L : OpLog) (id : String) : Prop where
  nextNodup : L.NextNodupIn (L.matching id)
  skips : ∀ x ∈ L.matching id, ∀ y ∈ L.matching id,
    Dag.Skips L.nextOf (· ∈ L.matching id) x y → L.RouteBelow (L.matching id) x y

/-- Parents in the subset come first in the sort. -/
theorem routeBelow_of_parent (hL : L.WellFormed) (hnd : L.NextNodupIn hashes)
    (hs : ∀ h ∈ hashes, h ∈ L.entries) {p x : Hash} (hp : p ∈ hashes) (hx : x ∈ hashes)
    (hpx : p ∈ L.nextOf x) : L.RouteBelow hashes p x := by
  obtain ⟨-, hmem, hfirst⟩ := topoHashes_spec hL hnd
  have hsorted := topoHashes_by_routes hL hnd hs
  obtain ⟨pre, post, heq⟩ := List.append_of_mem ((hmem x).mpr hx)
  rw [heq] at hsorted
  exact (List.pairwise_append.mp hsorted).2.2 p (hfirst pre x post heq p hpx hp) x
    List.mem_cons_self

/-- So all ancestors in the subset come first if those do that are reached around it. -/
theorem RoutesCausally.ancestor (hL : L.WellFormed) (h : L.RoutesCausally id) {x y : Hash}
    (hx : x ∈ L.matching id) (hy : y ∈ L.matching id) (hxy : Dag.Ancestor L.nextOf x y) :
    L.RouteBelow (L.matching id) x y :=
  Dag.Ancestor.of_skips (T := (· ∈ L.matching id)) (R := L.RouteBelow (L.matching id))
    (fun _ _ _ => Dag.RouteLT.trans)
    (fun _ _ ha hb => routeBelow_of_parent hL h.nextNodup matching_stored ha hb)
    (fun a b ha hb => h.skips a ha b hb) hx hy hxy

theorem provenance_iff (hL : L.WellFormed) (id : String) :
    (∃ es, L.entriesAffecting id = some es ∧ L.Provenance id es) ↔ L.RoutesCausally id := by
  have hasymm : ∀ x y : Entry, L.RouteBelow (L.matching id) x.hash y.hash →
      ¬ L.RouteBelow (L.matching id) y.hash x.hash := fun x y h h' =>
    List.Shortlex.asymm.asymm _ _ h h'
  constructor
  · rintro ⟨es, hes, hprov⟩
    have hnd := nextNodupIn_of_complete hL hes fun e he hid => (hprov.complete e).mpr ⟨he, hid⟩
    obtain ⟨es', hes', -, -, hsorted⟩ := entriesAffecting_spec hL hnd
    obtain rfl := Option.some.inj (hes.symm.trans hes')
    refine ⟨hnd, fun x hx y hy hxy => ?_⟩
    obtain ⟨ex, hex, hidx⟩ := mem_matching.mp hx
    obtain ⟨ey, hey, hidy⟩ := mem_matching.mp hy
    obtain rfl := (hL.rep.keyed x ex hex).1
    obtain rfl := (hL.rep.keyed y ey hey).1
    have hex := (hprov.complete ex).mpr ⟨hex, hidx⟩
    have hey := (hprov.complete ey).mpr ⟨hey, hidy⟩
    exact (Dag.pair_sublist_iff hasymm hsorted hex hey).mp
      (hprov.causal ex hex ey hey hxy.ancestor)
  · intro hcond
    obtain ⟨es, hes, honce, hmem, hsorted⟩ := entriesAffecting_spec hL hcond.nextNodup
    have hmatch : ∀ e ∈ es, e.hash ∈ L.matching id := fun e he =>
      mem_matching.mpr ⟨e, (hmem e).mp he⟩
    refine ⟨es, hes, honce, hmem, fun x hx y hy hxy => ?_⟩
    exact (Dag.pair_sublist_iff hasymm hsorted hx hy).mpr
      (hcond.ancestor hL (hmatch x hx) (hmatch y hy) hxy)

/-- **Provenance is causal exactly by routes.** For every log that starts from a hash-valid
parentless genesis, every sequence of appends and every id: the listing holds exactly the
entries that mention the id, each once and after its causal predecessors, exactly if no
matching entry names a matching parent twice and each that descends from another around the
matching ones has the higher route. -/
theorem entriesAffecting_causal_iff (genesis : Entry) (hg : genesis.verifyHash)
    (hroot : genesis.next = []) (es : List Entry) (id : String) :
    let L := (OpLog.new genesis).appendAll es
    (∃ listed, L.entriesAffecting id = some listed ∧ L.Provenance id listed) ↔
      L.RoutesCausally id :=
  provenance_iff ((WellFormed.new hg hroot).appendAll es) id

end

/-- Where every hash lies above those it names, an ancestor lies below its descendant. -/
theorem toNat_lt_of_ancestor
    (hL : (L.entries.toList.all fun kv => kv.2.next.all fun p => decide (p.toNat < kv.1.toNat)) = true)
    {x y : Hash} (h : Dag.Ancestor L.nextOf x y) : x.toNat < y.toNat := by
  have hrank : ∀ y, ∀ p ∈ L.nextOf y, p.toNat < y.toNat := fun y p hp => by
    obtain ⟨e, he, hpe⟩ := mem_nextOf.mp hp
    have hnext := List.all_eq_true.mp hL (y, e) (HashMap.mem_toList.mpr he)
    exact of_decide_eq_true (List.all_eq_true.mp hnext p hpe)
  exact Dag.rank_lt_of_ancestor hrank h

open Sample in
/-- A node created and updated with an unrelated entry between: its two entries have routes of
one key each, and the keys grow. -/
theorem entriesAffecting_across :
    let g := Entry.new (.defineOntology ⟨∅, ∅⟩) [] [] ⟨"ann", 1, 0⟩ "ann"
    let a := Entry.new (.addNode "n1" "thing" none "n1" ∅) [g.hash] [] ⟨"ann", 2, 0⟩ "ann"
    let b := Entry.new (.addNode "n2" "thing" none "n2" ∅) [a.hash] [] ⟨"ann", 3, 0⟩ "ann"
    let c := Entry.new (.updateProperty "n1" "size" (.int 1)) [b.hash] [] ⟨"ann", 4, 0⟩ "ann"
    let L := (OpLog.new g).appendAll [a, b, c]
    Dag.Ancestor L.nextOf a.hash c.hash ∧
      ∃ listed, L.entriesAffecting "n1" = some listed ∧ L.Provenance "n1" listed := by
  intro g a b c L
  have hab : a.hash ∈ L.nextOf b.hash := by decide +kernel
  have hbc : b.hash ∈ L.nextOf c.hash := by decide +kernel
  have hup : (L.entries.toList.all fun kv => kv.2.next.all fun p =>
      decide (p.toNat < kv.1.toNat)) = true := by decide +kernel
  have hkeys : L.RouteBelow (L.matching "n1") a.hash c.hash := by decide +kernel
  have hnodup : ((L.matching "n1").toList.all fun x =>
      decide ((L.nextOf x).filter fun p => (L.matching "n1").contains p).Nodup) = true := by
    decide +kernel
  have hmatching : (L.matching "n1").toList = [a.hash, c.hash] := by decide +kernel
  have hmem : ∀ x ∈ L.matching "n1", x = a.hash ∨ x = c.hash := fun x hx => by
    have hx := Std.ExtTreeSet.mem_toList.mpr hx
    rw [hmatching] at hx
    simpa using hx
  refine ⟨.trans (.of_parent hab) (.of_parent hbc),
    (entriesAffecting_causal_iff g (Entry.verifyHash_new ..) rfl [a, b, c] "n1").mpr ⟨?_, ?_⟩⟩
  · intro x hx
    exact of_decide_eq_true (List.all_eq_true.mp hnodup x (Std.ExtTreeSet.mem_toList.mpr hx))
  · intro x hx y hy hxy
    have hlt := toNat_lt_of_ancestor hup hxy.ancestor
    have hca : ¬ c.hash.toNat < a.hash.toNat := by decide +kernel
    rcases hmem x hx with rfl | rfl <;> rcases hmem y hy with rfl | rfl
    · exact absurd hlt (lt_irrefl _)
    · exact hkeys
    · exact absurd hlt hca
    · exact absurd hlt (lt_irrefl _)

open Sample in
/-- A node created, updated, and updated again after an unrelated entry: the last update has no
matching parent, so it is listed before the first one, from which it descends. -/
theorem updates_listed_backwards :
    let g := Entry.new (.defineOntology ⟨∅, ∅⟩) [] [] ⟨"ann", 1, 0⟩ "ann"
    let a := Entry.new (.addNode "n1" "thing" none "n1" ∅) [g.hash] [] ⟨"ann", 2, 0⟩ "ann"
    let b := Entry.new (.updateProperty "n1" "size" (.int 1)) [a.hash] [] ⟨"ann", 3, 0⟩ "ann"
    let c := Entry.new (.addNode "n2" "thing" none "n2" ∅) [b.hash] [] ⟨"ann", 4, 0⟩ "ann"
    let d := Entry.new (.updateProperty "n1" "size" (.int 2)) [c.hash] [] ⟨"ann", 5, 0⟩ "ann"
    let L := (OpLog.new g).appendAll [a, b, c, d]
    (L.entriesAffecting "n1").map (List.map Entry.hash) = some [a.hash, d.hash, b.hash] ∧
      Dag.Ancestor L.nextOf b.hash d.hash ∧
      ¬ ∃ listed, L.entriesAffecting "n1" = some listed ∧ L.Provenance "n1" listed := by
  intro g a b c d L
  have hlisted : (L.entriesAffecting "n1").map (List.map Entry.hash) =
      some [a.hash, d.hash, b.hash] := by decide +kernel
  have hbc : b.hash ∈ L.nextOf c.hash := by decide +kernel
  have hcd : c.hash ∈ L.nextOf d.hash := by decide +kernel
  have hbd : Dag.Ancestor L.nextOf b.hash d.hash := .trans (.of_parent hbc) (.of_parent hcd)
  refine ⟨hlisted, hbd, ?_⟩
  rintro ⟨listed, hes, hprov⟩
  rw [hes] at hlisted
  have hmap : listed.map Entry.hash = [a.hash, d.hash, b.hash] := Option.some.inj hlisted
  obtain ⟨x, hx, hxb⟩ : ∃ x ∈ listed, x.hash = b.hash := List.mem_map.mp (by simp [hmap])
  obtain ⟨y, hy, hyd⟩ : ∃ y ∈ listed, y.hash = d.hash := List.mem_map.mp (by simp [hmap])
  have hsub := (hprov.causal x hx y hy (by rwa [hxb, hyd])).map Entry.hash
  rw [hmap, List.map_cons, List.map_cons, List.map_nil, hxb, hyd] at hsub
  exact absurd hsub (by decide +kernel)

end OpLog

end SilkGraph
