import SilkGraph.Graph.Indexes
import SilkGraph.Graph.Kinds

/-!
# Edges may come before their endpoints

Nodes and edges are added once each, in any order. An edge that comes before an endpoint is
held and judged again by the node that completes it, so in the end every edge has been judged
with both endpoints there, or is still held. `Arrived` says what a graph is after some
entries, by what the entries are and not by their order: the nodes are those admitted, and
each edge is there, held or refused as the graph judges it now. One more entry keeps this
(`Arrived.step`), the edges it completes apart from the others; and two graphs that have
arrived from the same entries are the same (`Arrived.unique`).
-/

namespace SilkGraph

/-- The entity that an entry adds. -/
def Entry.entity? (self : Entry) : Option (EntityKind × String) :=
  match self.payload with
  | .addNode nodeId .. => some (.node, nodeId)
  | .addEdge edgeId .. => some (.edge, edgeId)
  | _ => none

section

variable [Crates]

/-- Entries that add nodes and edges, each of them once. -/
structure AddsOnce (es : List Entry) : Prop where
  adds : ∀ e ∈ es, e.entity?.isSome
  distinct : (es.map Entry.entity?).Nodup
  named : NamedByHash es

namespace AddsOnce

variable {es : List Entry} {a b e : Entry}

theorem eq_of_entity (h : AddsOnce es) (ha : a ∈ es) (hb : b ∈ es) (heq : a.entity? = b.entity?) :
    a = b :=
  List.inj_on_of_nodup_map h.distinct ha hb heq

theorem eq_of_hash (h : AddsOnce es) (ha : a ∈ es) (hb : b ∈ es) (heq : a.hash = b.hash) : a = b := by
  refine h.eq_of_entity ha hb ?_
  rw [Entry.entity?, h.named.payload_eq ha hb heq, ← Entry.entity?]

theorem cases (h : AddsOnce es) (he : e ∈ es) :
    (∃ id ty st lb ps, e.payload = .addNode id ty st lb ps) ∨
      ∃ id ty src tgt ps, e.payload = .addEdge id ty src tgt ps := by
  have hsome := h.adds e he
  rw [Entry.entity?] at hsome
  cases hp : e.payload <;> rw [hp] at hsome
  case addNode id ty st lb ps => exact .inl ⟨id, ty, st, lb, ps, rfl⟩
  case addEdge id ty src tgt ps => exact .inr ⟨id, ty, src, tgt, ps, rfl⟩
  all_goals cases hsome

theorem ordinary (h : AddsOnce es) (he : e ∈ es) : e.Ordinary := by
  obtain ⟨id, ty, st, lb, ps, hp⟩ | ⟨id, ty, src, tgt, ps, hp⟩ := h.cases he <;>
    exact ⟨by rw [hp]; rfl, by rw [hp]; rfl⟩

theorem perm {es' : List Entry} (h : AddsOnce es) (hp : es'.Perm es) : AddsOnce es' where
  adds e he := h.adds e (hp.mem_iff.mp he)
  distinct := (hp.map Entry.entity?).nodup_iff.mpr h.distinct
  named := ⟨fun e he => h.named.valid e (hp.mem_iff.mp he), fun a ha b hb =>
    h.named.collisionFree a (hp.mem_iff.mp ha) b (hp.mem_iff.mp hb)⟩

end AddsOnce

namespace MaterializedGraph

variable {g g' : MaterializedGraph} {σ : HashOrder} {e p x : Entry}
  {es done done' : List Entry} {id : String} {h : Hash}

/-- What a graph is after some entries have come, in whatever order. -/
structure Arrived (done : List Entry) (g : MaterializedGraph) : Prop where
  nodes : ∀ id nd, g.nodes[id]? = some nd ↔ ∃ e ∈ done, ∃ ty st lb ps,
    e.payload = .addNode id ty st lb ps ∧ g.accepts .full e.payload = true ∧
      nd = Node.create id ty st lb ps e.clock
  edges : ∀ id ed, g.edges[id]? = some ed ↔ ∃ e ∈ done, ∃ ty src tgt ps,
    e.payload = .addEdge id ty src tgt ps ∧ g.accepts .full e.payload = true ∧
      ed = Edge.create id ty src tgt ps e.clock
  pending : ∀ (h : Hash) (p : Entry), g.pendingEdges[h]? = some p ↔
    p ∈ done ∧ p.hash = h ∧ g.holds p.payload = true
  quarantined : ∀ h, h ∈ g.quarantined ↔ ∃ e ∈ done, e.hash = h ∧ g.accepts .full e.payload = false

/-! ### The same entries, the same graph -/

/-- Graphs with one ontology and one set of typed nodes judge alike. -/
theorem accepts_congr (honto : g'.ontology = g.ontology) (htypes : ∀ i, g'.typeOf i = g.typeOf i)
    (hadd : e.entity?.isSome) :
    g'.accepts .full e.payload = g.accepts .full e.payload ∧ g'.holds e.payload = g.holds e.payload := by
  rw [Entry.entity?] at hadd
  cases hp : e.payload <;> rw [hp] at hadd
  case addNode id ty st lb ps =>
    rw [accepts, accepts, honto]
    exact ⟨rfl, rfl⟩
  case addEdge id ty src tgt ps =>
    rw [accepts, accepts, acceptsEdge, acceptsEdge, holds, holds, holdsEdge, holdsEdge, honto, htypes,
      htypes]
    exact ⟨rfl, rfl⟩
  all_goals cases hadd

/-- **Two graphs that have arrived from the same entries are the same**, the texts of the
quarantine records apart. -/
theorem Arrived.unique (ha : Arrived done g) (ha' : Arrived done' g') (honto : g'.ontology = g.ontology)
    (hadds : ∀ e ∈ done, e.entity?.isSome) (same : ∀ e, e ∈ done' ↔ e ∈ done) :
    g'.nodes = g.nodes ∧ g'.edges = g.edges ∧ g'.pendingEdges = g.pendingEdges ∧
      ∀ h, h ∈ g'.quarantined ↔ h ∈ g.quarantined := by
  have hnodes : g'.nodes = g.nodes := by
    refine Std.ExtTreeMap.ext_getElem? fun id => Option.ext fun nd => ?_
    rw [ha.nodes, ha'.nodes]
    simp only [same]
    refine exists_congr fun e => and_congr_right fun _ => ?_
    refine exists_congr fun ty => exists_congr fun st => exists_congr fun lb => exists_congr fun ps => ?_
    refine and_congr_right fun hp => ?_
    rw [hp, accepts, accepts, honto]
  have htypes : ∀ i, g'.typeOf i = g.typeOf i := fun i => by rw [typeOf, typeOf, hnodes]
  have hjudge : ∀ e ∈ done, g'.accepts .full e.payload = g.accepts .full e.payload ∧
      g'.holds e.payload = g.holds e.payload := fun e he => accepts_congr honto htypes (hadds e he)
  refine ⟨hnodes, ?_, ?_, fun h => ?_⟩
  · refine Std.ExtTreeMap.ext_getElem? fun id => Option.ext fun ed => ?_
    rw [ha.edges, ha'.edges]
    simp only [same]
    refine exists_congr fun e => and_congr_right fun he => ?_
    rw [(hjudge e he).1]
  · refine Std.ExtTreeMap.ext_getElem? fun h => Option.ext fun p => ?_
    rw [ha.pending, ha'.pending, same]
    refine and_congr_right fun hp => ?_
    rw [(hjudge p hp).2]
  · rw [ha.quarantined, ha'.quarantined]
    simp only [same]
    refine exists_congr fun e => and_congr_right fun he => ?_
    rw [(hjudge e he).1]

/-! ### How an edge is judged as nodes come -/

/-- What is not held is judged for good. -/
theorem judged_of_not_held (honto : g'.ontology = g.ontology)
    (hgrow : ∀ i t, g.typeOf i = some t → g'.typeOf i = some t) (hadd : e.entity?.isSome)
    (hno : g.holds e.payload = false) :
    g'.accepts .full e.payload = g.accepts .full e.payload ∧ g'.holds e.payload = false := by
  rw [Entry.entity?] at hadd
  cases hp : e.payload <;> rw [hp] at hadd hno
  case addNode id ty st lb ps =>
    rw [accepts, accepts, honto]
    exact ⟨rfl, rfl⟩
  case addEdge id ty src tgt ps =>
    rw [holds, holdsEdge] at hno
    rw [accepts, accepts, acceptsEdge, acceptsEdge, holds, holdsEdge, honto]
    cases hty : g.ontology.edgeTypes.contains ty with
    | false => simp
    | true =>
      obtain ⟨s, hs⟩ : ∃ s, g.typeOf src = some s := by
        cases hs : g.typeOf src <;> simp_all
      obtain ⟨t, ht⟩ : ∃ t, g.typeOf tgt = some t := by
        cases ht : g.typeOf tgt <;> simp_all
      rw [hs, ht, hgrow src s hs, hgrow tgt t ht]
      simp
  all_goals cases hadd

omit [Crates] in
/-- A held edge stays held until it is complete. -/
theorem holds_of_not_ready (honto : g'.ontology = g.ontology) (hh : g.holds e.payload = true)
    (hr : g'.isReady e = false) : g'.holds e.payload = true := by
  cases hp : e.payload <;> rw [hp] at hh
  case addEdge id ty src tgt ps =>
    rw [holds, holdsEdge] at hh ⊢
    have hnot : ¬ ((g'.typeOf src).isSome ∧ (g'.typeOf tgt).isSome) := fun hends => by
      rw [isReady_iff.mpr ⟨id, ty, src, tgt, ps, hp, hends⟩] at hr
      cases hr
    rw [honto, (Bool.and_eq_true_iff.mp hh).1, Bool.true_and]
    cases hs : g'.typeOf src <;> cases ht : g'.typeOf tgt <;> simp_all
  all_goals cases hh

omit [Crates] in
/-- One that is complete is held no longer. -/
theorem not_holds_of_ready (hr : g.isReady e = true) : g.holds e.payload = false := by
  obtain ⟨id, ty, src, tgt, ps, hp, hs, ht⟩ := isReady_iff.mp hr
  rw [hp, holds, holdsEdge]
  cases hs' : g.typeOf src <;> cases ht' : g.typeOf tgt <;> simp_all

/-! ### One more entry -/

/-- The types of the nodes after an entry, in which held edges are judged again. -/
theorem typeOf_apply (ho : e.Ordinary) (hadd : e.entity?.isSome) (i : String) :
    (g.apply σ e).typeOf i =
      if g.accepts .full e.payload = true then (g.withNode e).typeOf i else g.typeOf i := by
  rw [apply, (applyInner_frame g σ ho .full true).2.1]
  rw [Entry.entity?] at hadd
  cases hp : e.payload <;> rw [hp] at hadd
  case addNode id ty st lb ps =>
    simp only [accepts, withNode, hp, typeOf_applyAddNode]
    split <;> rename_i hok
    · rw [if_pos hok.1, if_pos hok.2]
    · split <;> rename_i hv
      · rw [if_neg fun hi => hok ⟨hv, hi⟩]
      · rfl
  case addEdge id ty src tgt ps => simp [withNode, hp]
  all_goals cases hadd

theorem typeOf_grows (ho : e.Ordinary) {i t : String} (ht : g.typeOf i = some t) :
    (g.apply σ e).typeOf i = some t := by
  rw [apply, (applyInner_frame g σ ho .full true).2.1]
  split
  · split <;> simp [ht]
  · exact ht

/-- After an accepted entry an edge is judged as it is in the middle of it. -/
theorem edgeEvents_withNode (ho : e.Ordinary) (hadd : e.entity?.isSome)
    (hacc : g.accepts .full e.payload = true) (p : Entry) :
    (g.withNode e).edgeEvents .full p = (g.apply σ e).edgeEvents .full p := by
  refine edgeEvents_congr ?_ (fun i => ((typeOf_apply ho hadd i).trans (if_pos hacc)).symm) p
  rw [show (g.apply σ e).ontology = g.ontology from (applyInner_frame g σ ho .full true).1, withNode]
  split
  · exact (applyAddNode_rest ..).1
  · rfl

/-- The edges that are judged again are the held ones that are complete now. -/
theorem Arrived.mem_retried (ha : Arrived done g) (ho : e.Ordinary) (hadd : e.entity?.isSome) :
    p ∈ g.retried σ .full e ↔
      p ∈ done ∧ g.holds p.payload = true ∧ (g.apply σ e).isReady p = true := by
  have hheld : (∃ h : Hash, g.pendingEdges[h]? = some p) ↔ p ∈ done ∧ g.holds p.payload = true := by
    constructor
    · rintro ⟨h, hp⟩
      obtain ⟨hd, -, hh⟩ := (ha.pending h p).mp hp
      exact ⟨hd, hh⟩
    · exact fun ⟨hd, hh⟩ => ⟨p.hash, (ha.pending _ _).mpr ⟨hd, rfl, hh⟩⟩
  rw [mem_retried_iff, hheld]
  constructor
  · rintro ⟨-, hacc, hready, hd, hh⟩
    refine ⟨hd, hh, ?_⟩
    rw [isReady_congr fun i => (typeOf_apply ho hadd i).trans (if_pos hacc)]
    exact hready
  · rintro ⟨hd, hh, hready⟩
    -- had no node come, the edge would have been complete before
    have hsame : ¬ ∀ i, (g.apply σ e).typeOf i = g.typeOf i := fun hsame => by
      rw [isReady_congr hsame] at hready
      rw [not_holds_of_ready hready] at hh
      cases hh
    have hacc : g.accepts .full e.payload = true := by
      by_contra hno
      exact hsame fun i => (typeOf_apply ho hadd i).trans (if_neg hno)
    refine ⟨?_, hacc, ?_, hd, hh⟩
    · by_contra hno
      refine hsame fun i => ?_
      rw [typeOf_apply ho hadd, if_pos hacc, withNode]
      split
      · rename_i id ty st lb ps hp
        exact absurd ⟨id, ty, st, lb, ps, hp⟩ hno
      · rfl
    · rwa [isReady_congr fun i => (typeOf_apply ho hadd i).trans (if_pos hacc)] at hready

/-- An edge that is judged again was refused before and is held no longer. -/
theorem Arrived.judge_retried (ha : Arrived done g) (ho : e.Ordinary) (hadd : e.entity?.isSome)
    (hr : x ∈ g.retried σ .full e) :
    g.accepts .full x.payload = false ∧ (g.apply σ e).holds x.payload = false := by
  obtain ⟨-, hh, hready⟩ := (ha.mem_retried ho hadd).mp hr
  exact ⟨accepts_of_holds hh, not_holds_of_ready hready⟩

/-- Of the others nothing changes. -/
theorem Arrived.judge_other (ha : Arrived done g) (ho : e.Ordinary) (hadd : e.entity?.isSome)
    (hx : x ∈ done) (hxadd : x.entity?.isSome) (hr : x ∉ g.retried σ .full e) :
    (g.apply σ e).accepts .full x.payload = g.accepts .full x.payload ∧
      (g.apply σ e).holds x.payload = g.holds x.payload := by
  have honto : (g.apply σ e).ontology = g.ontology := (applyInner_frame g σ ho .full true).1
  cases hh : g.holds x.payload with
  | false => exact judged_of_not_held honto (fun i t ht => typeOf_grows ho ht) hxadd hh
  | true =>
    have hready : (g.apply σ e).isReady x = false := by
      by_contra hready
      exact hr ((ha.mem_retried ho hadd).mpr ⟨hx, hh, by simpa using hready⟩)
    have hh' := holds_of_not_ready honto hh hready
    rw [accepts_of_holds hh, accepts_of_holds hh', hh']
    exact ⟨rfl, rfl⟩

/-- The entry itself is judged as it was when it came. -/
theorem judge_self (ho : e.Ordinary) (hadd : e.entity?.isSome) :
    (g.apply σ e).accepts .full e.payload = g.accepts .full e.payload ∧
      (g.apply σ e).holds e.payload = g.holds e.payload := by
  have honto : (g.apply σ e).ontology = g.ontology := (applyInner_frame g σ ho .full true).1
  have htypes := @typeOf_apply _ g σ e ho hadd
  rw [Entry.entity?] at hadd
  cases hp : e.payload <;> rw [hp] at hadd
  case addNode id ty st lb ps =>
    rw [accepts, accepts, honto]
    exact ⟨rfl, rfl⟩
  case addEdge id ty src tgt ps =>
    have hsame : ∀ i, (g.apply σ e).typeOf i = g.typeOf i := fun i => by
      rw [htypes, withNode, hp]
      exact ite_self _
    rw [accepts, accepts, acceptsEdge, acceptsEdge, holds, holds, holdsEdge, holdsEdge, honto, hsame,
      hsame]
    exact ⟨rfl, rfl⟩
  all_goals cases hadd

/-! ### The edges an entry brings -/

/-- No edge of another identifier, or refused, brings an event to a slot. -/
theorem eventsAt_edges_eq_nil {l : List Entry} (h : ∀ x ∈ l, x.payload.adds .edge id = true →
    g.accepts .full x.payload = false) : eventsAt id (l.flatMap (g.edgeEvents .full)) = [] := by
  refine List.eq_nil_iff_forall_not_mem.mpr fun ev hev => ?_
  obtain ⟨x, hx, hmem⟩ := List.mem_flatMap.mp (mem_eventsAt.mp hev)
  obtain hnil | ⟨i, ty, src, tgt, ps, hp, heq⟩ := edgeEvents_cases g .full x
  · rw [hnil] at hmem
    cases hmem
  · rw [heq, List.mem_singleton] at hmem
    obtain ⟨rfl, -⟩ := Prod.mk.inj hmem
    have hno := h x hx (by simp [hp, GraphOp.adds])
    rw [hp, accepts, ← edgeEvents_eq_nil_iff hp, heq] at hno
    cases hno

/-- An accepted edge that is the only one of its identifier brings its event. -/
theorem eventsAt_edges_eq_singleton {l : List Entry} (hl : l.Nodup) (hx : x ∈ l)
    {ty src tgt : String} {ps : BTreeMap String Value} (hp : x.payload = .addEdge id ty src tgt ps)
    (hok : g.accepts .full x.payload = true)
    (honly : ∀ y ∈ l, y.payload.adds .edge id = true → y = x) :
    eventsAt id (l.flatMap (g.edgeEvents .full)) = [.addEdge ty src tgt ps x.clock] := by
  obtain ⟨front, back, rfl⟩ := List.append_of_mem hx
  obtain ⟨hfront, hback⟩ := List.nodup_middle.mp hl |> List.nodup_cons.mp
  have hself : g.edgeEvents .full x = [(id, .addEdge ty src tgt ps x.clock)] := by
    rw [hp, accepts] at hok
    simp only [edgeEvents, hp]
    rw [if_pos hok]
  have hnil : ∀ l' : List Entry, l' ⊆ front ++ back →
      eventsAt id (l'.flatMap (g.edgeEvents .full)) = [] := fun l' hl' =>
    eventsAt_edges_eq_nil fun y hy hadds => by
      have hmem : y ∈ front ++ x :: back := by
        rcases List.mem_append.mp (hl' hy) with h | h <;> simp [h]
      exact absurd (honly y hmem hadds ▸ hl' hy) hfront
  rw [List.flatMap_append, List.flatMap_cons, eventsAt_append, eventsAt_append, hself,
    hnil front (List.subset_append_left _ _), hnil back (List.subset_append_right _ _), eventsAt_cons,
    if_pos rfl]
  rfl

/-- The events of edges see of a slot its edge alone. -/
theorem edge_play_congr {sl sl' : Slot} (o : Ontology) (hsl : sl.edge = sl'.edge) (l : List Entry) :
    (sl.play o id (eventsAt id (l.flatMap (g.edgeEvents .full)))).edge =
      (sl'.play o id (eventsAt id (l.flatMap (g.edgeEvents .full)))).edge := by
  induction l generalizing sl sl' with
  | nil => exact hsl
  | cons p l ih =>
    rw [List.flatMap_cons, eventsAt_append, Slot.play_append, Slot.play_append]
    refine ih ?_
    obtain hnil | ⟨i, ty, src, tgt, ps, -, heq⟩ := edgeEvents_cases g .full p
    · rw [hnil]
      exact hsl
    · rw [heq, eventsAt_cons]
      split
      · simp [Slot.step, hsl]
      · exact hsl

/-- The edge of an identifier after an entry comes from the entry and from the edges that are
judged again. -/
theorem edge_apply (ho : e.Ordinary) (hadd : e.entity?.isSome) (id : String) :
    ((g.apply σ e).slot id).edge = ((g.slot id).play g.ontology id
      (eventsAt id ((e :: g.retried σ .full e).flatMap ((g.withNode e).edgeEvents .full)))).edge := by
  rw [apply, slot_applyInner g σ ho, events_eq, List.flatMap_cons, eventsAt_append, eventsAt_append,
    Slot.play_append, Slot.play_append]
  refine edge_play_congr g.ontology ?_ _
  rw [Entry.entity?] at hadd
  cases hp : e.payload <;> rw [hp] at hadd
  case addNode nid ty st lb ps =>
    simp only [ownEvents, edgeEvents, hp]
    split
    · rw [eventsAt_cons]
      split <;> rfl
    · rfl
  case addEdge => simp only [ownEvents, withNode, hp]
  all_goals cases hadd

/-- They are judged as the graph judges afterwards. -/
theorem edges_judged (ho : e.Ordinary) (hadd : e.entity?.isSome) :
    (e :: g.retried σ .full e).flatMap ((g.withNode e).edgeEvents .full) =
      (e :: g.retried σ .full e).flatMap ((g.apply σ e).edgeEvents .full) := by
  cases hacc : g.accepts .full e.payload with
  | true => rw [funext (edgeEvents_withNode ho hadd hacc)]
  | false =>
    have hnone : g.retried σ .full e = [] := List.eq_nil_iff_forall_not_mem.mpr fun p hp => by
      rw [(mem_retried_iff.mp hp).2.1] at hacc
      cases hacc
    have hno := (@judge_self _ g σ e ho hadd).1.trans hacc
    rw [hnone, List.flatMap_singleton, List.flatMap_singleton]
    rw [Entry.entity?] at hadd
    cases hp : e.payload <;> rw [hp] at hadd
    case addNode => simp only [edgeEvents, hp]
    case addEdge id ty src tgt ps =>
      rw [hp, accepts] at hacc hno
      rw [(edgeEvents_eq_nil_iff hp).mpr hno, withNode]
      simp only [hp]
      exact (edgeEvents_eq_nil_iff hp).mpr hacc
    all_goals cases hadd

/-! ### Step -/

variable (once : AddsOnce es) (ha : Arrived done g) (hdone : done ⊆ es) (he : e ∈ es) (hnew : e ∉ done)

include once ha hdone he hnew

omit ha in
/-- No other hash among the judged ones is that of the entry. -/
theorem hash_ne (hx : x ∈ done) : x.hash ≠ e.hash := fun heq =>
  hnew (once.eq_of_hash (hdone hx) he heq ▸ hx)

theorem Arrived.pending_apply (h : Hash) (p : Entry) : (g.apply σ e).pendingEdges[h]? = some p ↔
    p ∈ e :: done ∧ p.hash = h ∧ (g.apply σ e).holds p.payload = true := by
  have ho := once.ordinary he
  have hadd := once.adds e he
  rw [apply, getElem?_pending_applyInner g σ ho .full true h, ← apply]
  by_cases hr : ∃ q ∈ g.retried σ .full e, q.hash = h
  · rw [if_pos hr]
    obtain ⟨q, hq, rfl⟩ := hr
    refine iff_of_false (by simp) ?_
    rintro ⟨hp, heq, hh⟩
    have hqd := ((ha.mem_retried ho hadd).mp hq).1
    obtain rfl | hp := List.mem_cons.mp hp
    · exact hash_ne once hdone he hnew hqd heq.symm
    · obtain rfl := once.eq_of_hash (hdone hp) (hdone hqd) heq
      rw [(ha.judge_retried ho hadd hq).2] at hh
      cases hh
  · rw [if_neg hr]
    by_cases hself : e.hash = h ∧ g.holds e.payload = true
    · rw [if_pos hself, Option.some.injEq]
      constructor
      · rintro rfl
        exact ⟨List.mem_cons_self, hself.1, (judge_self ho hadd).2.trans hself.2⟩
      · rintro ⟨hp, heq, -⟩
        obtain rfl | hp := List.mem_cons.mp hp
        · rfl
        · exact absurd (heq.trans hself.1.symm) (hash_ne once hdone he hnew hp)
    · rw [if_neg hself, ha.pending]
      have hother : ∀ p ∈ done, p.hash = h →
          (g.apply σ e).holds p.payload = g.holds p.payload := fun p hp heq =>
        (ha.judge_other ho hadd hp (once.adds p (hdone hp)) fun hc => hr ⟨p, hc, heq⟩).2
      constructor
      · rintro ⟨hp, heq, hh⟩
        exact ⟨List.mem_cons_of_mem e hp, heq, (hother p hp heq).trans hh⟩
      · rintro ⟨hp, heq, hh⟩
        obtain rfl | hp := List.mem_cons.mp hp
        · exact absurd ⟨heq, (judge_self ho hadd).2.symm.trans hh⟩ hself
        · exact ⟨hp, heq, (hother p hp heq).symm.trans hh⟩

theorem Arrived.quarantined_apply (h : Hash) : h ∈ (g.apply σ e).quarantined ↔
    ∃ x ∈ e :: done, x.hash = h ∧ (g.apply σ e).accepts .full x.payload = false := by
  have ho := once.ordinary he
  have hadd := once.adds e he
  have hheld : g.HeldByHash := fun h p hp => ((ha.pending h p).mp hp).2.1
  have hjudged : isJudged e.payload = true := by
    obtain ⟨id, ty, st, lb, ps, hp⟩ | ⟨id, ty, src, tgt, ps, hp⟩ := once.cases he <;> rw [hp] <;> rfl
  -- an edge that is judged again is refused in the graph as it is now
  have hevents : ∀ p ∈ g.retried σ .full e, ((g.withNode e).edgeEvents .full p = [] ↔
      (g.apply σ e).accepts .full p.payload = false) := fun p hp => by
    obtain ⟨id, ty, src, tgt, ps, hpay, -⟩ := isReady_iff.mp (ready_of_retried hp).1
    have hacc := (mem_retried_iff.mp hp).2.1
    rw [edgeEvents_withNode ho hadd hacc, edgeEvents_eq_nil_iff hpay, hpay, accepts]
  rw [apply, mem_quarantined_applyInner hheld σ ho, ← apply, hjudged]
  simp only [and_true]
  constructor
  · rintro (⟨p, hp, rfl, hev⟩ | ⟨hno, hq⟩)
    · exact ⟨p, List.mem_cons_of_mem e ((ha.mem_retried ho hadd).mp hp).1, rfl, (hevents p hp).mp hev⟩
    · split at hq <;> rename_i heq
      · exact ⟨e, List.mem_cons_self, heq, (judge_self ho hadd).1.trans hq⟩
      · obtain ⟨x, hx, hxh, hxacc⟩ := (ha.quarantined h).mp hq
        have hother := ha.judge_other ho hadd hx (once.adds x (hdone hx)) fun hc => hno x hc hxh
        exact ⟨x, List.mem_cons_of_mem e hx, hxh, hother.1.trans hxacc⟩
  · rintro ⟨x, hx, rfl, hxacc⟩
    obtain rfl | hx := List.mem_cons.mp hx
    · refine .inr ⟨fun p hp => ?_, ?_⟩
      · exact hash_ne once hdone he hnew ((ha.mem_retried ho hadd).mp hp).1
      · rw [if_pos rfl, ← (judge_self ho hadd).1, hxacc]
    · by_cases hr : x ∈ g.retried σ .full e
      · exact .inl ⟨x, hr, rfl, (hevents x hr).mpr hxacc⟩
      · refine .inr ⟨fun p hp heq => ?_, ?_⟩
        · exact hr (once.eq_of_hash (hdone ((ha.mem_retried ho hadd).mp hp).1) (hdone hx) heq ▸ hp)
        · rw [if_neg (hash_ne once hdone he hnew hx).symm, ha.quarantined]
          exact ⟨x, hx, rfl, (ha.judge_other ho hadd hx (once.adds x (hdone hx)) hr).1.symm.trans hxacc⟩

theorem Arrived.nodes_apply (id : String) (nd : Node) : (g.apply σ e).nodes[id]? = some nd ↔
    ∃ x ∈ e :: done, ∃ ty st lb ps, x.payload = .addNode id ty st lb ps ∧
      (g.apply σ e).accepts .full x.payload = true ∧ nd = Node.create id ty st lb ps x.clock := by
  have ho := once.ordinary he
  have honto : (g.apply σ e).ontology = g.ontology := (applyInner_frame g σ ho .full true).1
  -- whether a node is accepted depends on the ontology alone
  have hjudge : ∀ x : Entry, ∀ i ty st lb ps, x.payload = .addNode i ty st lb ps →
      (g.apply σ e).accepts .full x.payload = g.accepts .full x.payload := fun x i ty st lb ps hp => by
    rw [hp, accepts, accepts, honto]
  have hnode : (g.apply σ e).nodes[id]? =
      ((g.slot id).play g.ontology id (eventsAt id (g.ownEvents .full e))).node := by
    change ((g.apply σ e).slot id).node = _
    rw [apply, slot_applyInner g σ ho, events_eq, eventsAt_append, Slot.play_append, node_play_edges]
  by_cases hself : ∃ ty st lb ps, e.payload = .addNode id ty st lb ps ∧ g.accepts .full e.payload = true
  · obtain ⟨ty, st, lb, ps, hp, hok⟩ := hself
    have hnone : g.nodes[id]? = none := by
      by_contra hsome
      obtain ⟨nd', hnd'⟩ := Option.ne_none_iff_exists'.mp hsome
      obtain ⟨x, hx, ty', st', lb', ps', hpx, -⟩ := (ha.nodes id nd').mp hnd'
      refine hnew (once.eq_of_entity (hdone hx) he ?_ ▸ hx)
      rw [Entry.entity?, hpx, Entry.entity?, hp]
    have hown : g.ownEvents .full e = [(id, .addNode ty st lb ps e.clock)] := by
      rw [hp, accepts] at hok
      simp only [ownEvents, hp]
      rw [if_pos hok]
    rw [hnode, hown, eventsAt_cons, if_pos rfl, eventsAt_nil, Slot.play_cons, Slot.play_nil]
    simp only [Slot.step, slot, hnone]
    rw [Option.some.injEq]
    constructor
    · rintro rfl
      exact ⟨e, List.mem_cons_self, ty, st, lb, ps, hp, (hjudge e _ _ _ _ _ hp).trans hok, rfl⟩
    · rintro ⟨x, hx, ty', st', lb', ps', hpx, -, rfl⟩
      obtain rfl : x = e := once.eq_of_entity (List.cons_subset.mpr ⟨he, hdone⟩ hx) he (by
        rw [Entry.entity?, hpx, Entry.entity?, hp])
      rw [hp] at hpx
      injection hpx with _ h1 h2 h3 h4
      subst h1 h2 h3 h4
      rfl
  · have hsame : (g.apply σ e).nodes[id]? = g.nodes[id]? := by
      rw [hnode]
      obtain ⟨i, ty, st, lb, ps, hp⟩ | ⟨i, ty, src, tgt, ps, hp⟩ := once.cases he
      · simp only [ownEvents, hp]
        split <;> rename_i hv
        · have hne : i ≠ id := by
            rintro rfl
            exact hself ⟨ty, st, lb, ps, hp, by rw [hp, accepts]; exact hv⟩
          rw [eventsAt_cons, if_neg hne]
          rfl
        · rfl
      · have hown : g.ownEvents .full e = [e].flatMap (g.edgeEvents .full) := by
          rw [List.flatMap_singleton]
          simp only [ownEvents, hp]
        rw [hown, node_play_edges]
        rfl
    rw [hsame, ha.nodes]
    constructor
    · rintro ⟨x, hx, ty, st, lb, ps, hp, hok, hnd⟩
      exact ⟨x, List.mem_cons_of_mem e hx, ty, st, lb, ps, hp, (hjudge x _ _ _ _ _ hp).trans hok, hnd⟩
    · rintro ⟨x, hx, ty, st, lb, ps, hp, hok, hnd⟩
      rw [hjudge x _ _ _ _ _ hp] at hok
      obtain rfl | hx := List.mem_cons.mp hx
      · exact absurd ⟨ty, st, lb, ps, hp, hok⟩ hself
      · exact ⟨x, hx, ty, st, lb, ps, hp, hok, hnd⟩

theorem Arrived.edges_apply (id : String) (ed : Edge) : (g.apply σ e).edges[id]? = some ed ↔
    ∃ x ∈ e :: done, ∃ ty src tgt ps, x.payload = .addEdge id ty src tgt ps ∧
      (g.apply σ e).accepts .full x.payload = true ∧ ed = Edge.create id ty src tgt ps x.clock := by
  have ho := once.ordinary he
  have hadd := once.adds e he
  have hheld : g.HeldByHash := fun h p hp => ((ha.pending h p).mp hp).2.1
  have hsub : e :: done ⊆ es := List.cons_subset.mpr ⟨he, hdone⟩
  have hretried : g.retried σ .full e ⊆ done := fun x hx => ((ha.mem_retried ho hadd).mp hx).1
  have hnodup : (e :: g.retried σ .full e).Nodup :=
    List.nodup_cons.mpr ⟨fun hc => hnew (hretried hc), .of_map _ (nodup_retried hheld σ .full e)⟩
  -- only one of the entries adds the edge
  have hone : ∀ x ∈ e :: done, ∀ y ∈ e :: done, x.payload.adds .edge id = true →
      y.payload.adds .edge id = true → y = x := fun x hx y hy hxa hya => by
    obtain ⟨hk, -⟩ | ⟨-, ty, src, tgt, ps, hp⟩ := GraphOp.adds_iff.mp hxa
    · cases hk
    obtain ⟨hk, -⟩ | ⟨-, ty', src', tgt', ps', hp'⟩ := GraphOp.adds_iff.mp hya
    · cases hk
    exact once.eq_of_entity (hsub hy) (hsub hx) (by rw [Entry.entity?, hp', Entry.entity?, hp])
  have hedge : (g.apply σ e).edges[id]? = ((g.slot id).play g.ontology id (eventsAt id
      ((e :: g.retried σ .full e).flatMap ((g.apply σ e).edgeEvents .full)))).edge := by
    change ((g.apply σ e).slot id).edge = _
    rw [edge_apply ho hadd, edges_judged ho hadd]
  by_cases hjudged : ∃ x ∈ e :: g.retried σ .full e, ∃ ty src tgt ps,
      x.payload = .addEdge id ty src tgt ps ∧ (g.apply σ e).accepts .full x.payload = true
  · obtain ⟨x, hx, ty, src, tgt, ps, hp, hok⟩ := hjudged
    have hxd : x ∈ e :: done := List.cons_subset_cons e hretried hx
    have hadds : x.payload.adds .edge id = true := by simp [hp, GraphOp.adds]
    have hnone : (g.slot id).edge = none := by
      by_contra hsome
      obtain ⟨ed', hed'⟩ := Option.ne_none_iff_exists'.mp hsome
      obtain ⟨y, hy, ty', src', tgt', ps', hpy, hyok, -⟩ := (ha.edges id ed').mp hed'
      obtain rfl := hone x hxd y (List.mem_cons_of_mem e hy) hadds (by simp [hpy, GraphOp.adds])
      obtain rfl | hx := List.mem_cons.mp hx
      · exact hnew hy
      · rw [(ha.judge_retried ho hadd hx).1] at hyok
        cases hyok
    rw [hedge, eventsAt_edges_eq_singleton hnodup hx hp hok fun y hy hya =>
      hone x hxd y (List.cons_subset_cons e hretried hy) hadds hya, Slot.play_cons, Slot.play_nil]
    simp only [Slot.step, hnone]
    rw [Option.some.injEq]
    constructor
    · rintro rfl
      exact ⟨x, hxd, ty, src, tgt, ps, hp, hok, rfl⟩
    · rintro ⟨y, hy, ty', src', tgt', ps', hpy, -, rfl⟩
      obtain rfl := hone x hxd y hy hadds (by simp [hpy, GraphOp.adds])
      rw [hp] at hpy
      injection hpy with _ h1 h2 h3 h4
      subst h1 h2 h3 h4
      rfl
  · have hsame : (g.apply σ e).edges[id]? = g.edges[id]? := by
      rw [hedge, eventsAt_edges_eq_nil fun x hx hadds => ?_]
      · rfl
      · obtain ⟨hk, -⟩ | ⟨-, ty, src, tgt, ps, hp⟩ := GraphOp.adds_iff.mp hadds
        · cases hk
        · by_contra hok
          exact hjudged ⟨x, hx, ty, src, tgt, ps, hp, by simpa using hok⟩
    rw [hsame, ha.edges]
    constructor
    · rintro ⟨x, hx, ty, src, tgt, ps, hp, hok, hed⟩
      have hr : x ∉ g.retried σ .full e := fun hr => by
        rw [(ha.judge_retried ho hadd hr).1] at hok
        cases hok
      have hother := ha.judge_other ho hadd hx (once.adds x (hdone hx)) hr
      exact ⟨x, List.mem_cons_of_mem e hx, ty, src, tgt, ps, hp, hother.1.trans hok, hed⟩
    · rintro ⟨x, hx, ty, src, tgt, ps, hp, hok, hed⟩
      obtain rfl | hx := List.mem_cons.mp hx
      · exact absurd ⟨x, List.mem_cons_self, ty, src, tgt, ps, hp, hok⟩ hjudged
      · have hr : x ∉ g.retried σ .full e := fun hr =>
          hjudged ⟨x, List.mem_cons_of_mem e hr, ty, src, tgt, ps, hp, hok⟩
        have hother := ha.judge_other ho hadd hx (once.adds x (hdone hx)) hr
        exact ⟨x, hx, ty, src, tgt, ps, hp, hother.1.symm.trans hok, hed⟩

/-- **Step.** One more entry, and the graph has arrived from it too. -/
theorem Arrived.step : Arrived (e :: done) (g.apply σ e) where
  nodes := ha.nodes_apply once hdone he hnew
  edges := ha.edges_apply once hdone he hnew
  pending := ha.pending_apply once hdone he hnew
  quarantined := ha.quarantined_apply once hdone he hnew

omit once ha hdone he hnew

/-- **Run.** The graph has arrived from all entries that have come. -/
theorem Arrived.run (once : AddsOnce es) (ha : Arrived done g) (hdone : done ⊆ es) {todo : List Entry}
    (htodo : todo ⊆ es) (hnodup : (todo.reverse ++ done).Nodup) :
    Arrived (todo.reverse ++ done) (g.applyAll σ todo) := by
  induction todo generalizing g done with
  | nil => exact ha
  | cons e todo ih =>
    rw [List.reverse_cons, List.append_assoc, List.singleton_append] at hnodup ⊢
    have he : e ∈ es := htodo List.mem_cons_self
    have hnew : e ∉ done := fun hc => (List.nodup_cons.mp (List.nodup_append.mp hnodup).2.1).1 hc
    rw [applyAll, List.foldl_cons, ← applyAll]
    exact ih (ha.step once hdone he hnew) (List.cons_subset.mpr ⟨he, hdone⟩)
      (fun x hx => htodo (List.mem_cons_of_mem e hx)) hnodup

theorem Arrived.new (o : Ontology) : Arrived [] (MaterializedGraph.new o) := by
  refine ⟨fun id nd => ?_, fun id ed => ?_, fun h p => ?_, fun h => ?_⟩ <;>
    simp [MaterializedGraph.new]

/-- The entries are applied to the empty graph, in the order of the list. -/
theorem arrived_applyAll (o : Ontology) (once : AddsOnce es) :
    Arrived es.reverse ((MaterializedGraph.new o).applyAll σ es) := by
  have hnodup : es.Nodup := .of_map _ once.distinct
  have hrun := (Arrived.new o).run (σ := σ) once (List.nil_subset es) (List.Subset.refl es)
  rw [List.append_nil] at hrun
  exact hrun (List.nodup_reverse.mpr hnodup)

/-- Neither nodes nor edges change the ontology, and the indexes are in step. -/
theorem frame_applyAll (hi : g.Indexed) (ho : ∀ e ∈ es, e.Ordinary) :
    (g.applyAll σ es).ontology = g.ontology ∧ (g.applyAll σ es).Indexed := by
  induction es generalizing g with
  | nil => exact ⟨rfl, hi⟩
  | cons e es ih =>
    have honto : (g.apply σ e).ontology = g.ontology :=
      (applyInner_frame g σ (ho e List.mem_cons_self) .full true).1
    rw [← honto]
    exact ih (Indexed.invariant.applyAny hi σ e true) fun x hx => ho x (List.mem_cons_of_mem e hx)

/-! ### Which edges are seen -/

/-- The entries add the node with a type, and the ontology accepts it. -/
def AdmittedAs (ontology : Ontology) (es : List Entry) (id ty : String) : Prop :=
  ∃ e ∈ es, ∃ st lb ps, e.payload = .addNode id ty st lb ps ∧ (ontology.validateNode ty st ps).isOk = true

/-- The typed nodes are those admitted. -/
theorem Arrived.typeOf_iff (ha : Arrived done g) {ty : String} :
    g.typeOf id = some ty ↔ AdmittedAs g.ontology done id ty := by
  rw [typeOf, Option.map_eq_some_iff]
  simp only [ha.nodes]
  constructor
  · rintro ⟨nd, ⟨e, he, ty', st, lb, ps, hp, hok, rfl⟩, rfl⟩
    rw [hp] at hok
    exact ⟨e, he, st, lb, ps, hp, hok⟩
  · rintro ⟨e, he, st, lb, ps, hp, hok⟩
    refine ⟨_, ⟨e, he, ty, st, lb, ps, hp, ?_, rfl⟩, rfl⟩
    rw [hp]
    exact hok

/-- An edge of the entries is accepted if both its endpoints were admitted and the ontology
accepts it between their types. -/
theorem Arrived.acceptsEdge_iff (ha : Arrived done g) {ty src tgt : String}
    {ps : BTreeMap String Value} : g.acceptsEdge .full ty src tgt ps = true ↔
      ∃ sty tty, AdmittedAs g.ontology done src sty ∧ AdmittedAs g.ontology done tgt tty ∧
        (g.ontology.validateEdge ty sty tty ps).isOk = true := by
  simp only [← ha.typeOf_iff]
  rw [acceptsEdge, Bool.and_eq_true_iff]
  constructor
  · rintro ⟨-, hok⟩
    cases hs : g.typeOf src with
    | none => simp [hs] at hok
    | some sty =>
      cases ht : g.typeOf tgt with
      | none => simp [hs, ht] at hok
      | some tty =>
        rw [hs, ht] at hok
        exact ⟨sty, tty, rfl, rfl, hok⟩
  · rintro ⟨sty, tty, hs, ht, hok⟩
    rw [hs, ht]
    refine ⟨?_, hok⟩
    rw [Ontology.validateEdge, Ontology.validateEdgeMode] at hok
    split at hok
    · cases hok
    · rename_i d hd
      exact Std.ExtTreeMap.contains_iff_mem.mpr (HashMap.mem_iff_getElem?.mpr ⟨d, hd⟩)

/-- No node and no edge is removed: an edge that is there is seen. -/
theorem Arrived.mem_allEdges_iff (ha : Arrived done g) {ed : Edge} :
    ed ∈ g.allEdges σ ↔ ∃ id : String, g.edges[id]? = some ed := by
  rw [allEdges, List.mem_filter, List.mem_map]
  simp only [HashOrder.mem_walk, HashMap.mem_toList, Prod.exists]
  constructor
  · rintro ⟨⟨id, ed', hed, rfl⟩, -⟩
    exact ⟨id, hed⟩
  · rintro ⟨id, hed⟩
    refine ⟨⟨id, ed, hed, rfl⟩, ?_⟩
    obtain ⟨e, he, ty, src, tgt, ps, hp, hok, rfl⟩ := (ha.edges id ed).mp hed
    rw [hp, accepts] at hok
    obtain ⟨sty, tty, hs, ht, -⟩ := ha.acceptsEdge_iff.mp hok
    have hlive : ∀ {i t}, AdmittedAs g.ontology done i t → g.isNodeLive i = true := by
      rintro i t ⟨a, had, st, lb, aps, hpa, haok⟩
      have hnd := (ha.nodes i _).mpr ⟨a, had, t, st, lb, aps, hpa, by rw [hpa]; exact haok, rfl⟩
      rw [isNodeLive, hnd]
      rfl
    simp [Edge.create, hlive hs, hlive ht]

/-- **Edges may come before their endpoints.** Nodes and edges that are added once each may be
applied in any order: the graph, its indexes, what is quarantined and what is held are the
same, and an edge is seen exactly if both its endpoints were admitted and the ontology accepts
it between their types. -/
theorem arrivals_order_free (o : Ontology) (σ σ' : HashOrder) {es es' : List Entry}
    (once : AddsOnce es) (hperm : es'.Perm es) :
    ((new o).applyAll σ' es').nodes = ((new o).applyAll σ es).nodes ∧
      ((new o).applyAll σ' es').edges = ((new o).applyAll σ es).edges ∧
      ((new o).applyAll σ' es').outgoing = ((new o).applyAll σ es).outgoing ∧
      ((new o).applyAll σ' es').incoming = ((new o).applyAll σ es).incoming ∧
      ((new o).applyAll σ' es').byType = ((new o).applyAll σ es).byType ∧
      (∀ h, h ∈ ((new o).applyAll σ' es').quarantined ↔ h ∈ ((new o).applyAll σ es).quarantined) ∧
      ((new o).applyAll σ' es').pendingEdges = ((new o).applyAll σ es).pendingEdges ∧
      ∀ e ∈ es, ∀ id ty src tgt ps, e.payload = .addEdge id ty src tgt ps →
        ((∃ ed ∈ ((new o).applyAll σ es).allEdges σ, ed.edgeId = id) ↔
          ∃ sty tty, AdmittedAs o es src sty ∧ AdmittedAs o es tgt tty ∧
            (o.validateEdge ty sty tty ps).isOk = true) := by
  have once' : AddsOnce es' := once.perm hperm
  have ha := arrived_applyAll (σ := σ) o once
  have ha' := arrived_applyAll (σ := σ') o once'
  obtain ⟨honto, hi⟩ := frame_applyAll (σ := σ) (.new o) fun e he => once.ordinary he
  obtain ⟨honto', hi'⟩ := frame_applyAll (σ := σ') (.new o) fun e he => once'.ordinary he
  obtain ⟨hnodes, hedges, hpending, hquarantined⟩ := ha.unique ha' (honto'.trans honto.symm)
    (fun e he => once.adds e (List.mem_reverse.mp he))
    fun e => by rw [List.mem_reverse, List.mem_reverse, hperm.mem_iff]
  obtain ⟨hbyType, houtgoing, hincoming⟩ := hi.ext hi' hnodes hedges
  refine ⟨hnodes, hedges, houtgoing, hincoming, hbyType, hquarantined, hpending, ?_⟩
  intro e he id ty src tgt ps hp
  have hadmitted : ∀ i t, AdmittedAs o es i t ↔
      AdmittedAs ((new o).applyAll σ es).ontology es.reverse i t := fun i t => by
    simp only [AdmittedAs, honto, List.mem_reverse]
    rfl
  have hok : ((new o).applyAll σ es).accepts .full e.payload = true ↔
      ∃ sty tty, AdmittedAs o es src sty ∧ AdmittedAs o es tgt tty ∧
        (o.validateEdge ty sty tty ps).isOk = true := by
    simp only [hadmitted]
    rw [hp, accepts, ha.acceptsEdge_iff, honto]
    rfl
  rw [← hok]
  simp only [ha.mem_allEdges_iff]
  constructor
  · rintro ⟨ed, ⟨i, hed⟩, hid⟩
    obtain ⟨x, hx, ty', src', tgt', ps', hpx, hxok, rfl⟩ := (ha.edges i ed).mp hed
    obtain rfl : i = id := hid
    obtain rfl : x = e := once.eq_of_entity (List.mem_reverse.mp hx) he (by
      rw [Entry.entity?, hpx, Entry.entity?, hp])
    exact hxok
  · intro hok
    refine ⟨_, ⟨id, (ha.edges id _).mpr ⟨e, List.mem_reverse.mpr he, ty, src, tgt, ps, hp, hok, rfl⟩⟩, rfl⟩

end MaterializedGraph

end

open Sample MaterializedGraph in
/-- An edge between its endpoints, and the same entries the other way round. -/
theorem arrivals_order_free_guests :
    ((new guests).applyAll .keyOrder arrivals.reverse).edges =
        ((new guests).applyAll .keyOrder arrivals).edges ∧
      ∃ ed ∈ ((new guests).applyAll .keyOrder arrivals).allEdges .keyOrder, ed.edgeId = "e" := by
  have hvalid : ∀ e ∈ arrivals, e.verifyHash := by simp [arrivals]
  have once : AddsOnce arrivals :=
    ⟨by decide +kernel, by decide +kernel, .of_nodup hvalid (by decide +kernel)⟩
  obtain ⟨-, hedges, -, -, -, -, -, hseen⟩ :=
    arrivals_order_free guests .keyOrder .keyOrder once arrivals.reverse_perm
  refine ⟨hedges, (hseen _ (.tail _ (.head _)) _ _ _ _ _ rfl).mpr ⟨"person", "person", ?_, ?_, ?_⟩⟩
  · exact ⟨_, .head _, none, "Ann", ∅, rfl, by decide +kernel⟩
  · exact ⟨_, .tail _ (.tail _ (.tail _ (.head _))), none, "Bob", ∅, rfl, by decide +kernel⟩
  · decide +kernel

end SilkGraph
