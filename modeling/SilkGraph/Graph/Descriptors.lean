import SilkGraph.Graph.Existence
import SilkGraph.Graph.Indexes

/-!
# What an entity is described by

An add brings a type, for a node a subtype and a label, for an edge two endpoints. By the
clocks the add with the greatest one decides all of them. In the graph the first add to come
decides the type and the endpoints (`fixedOf_applyAll`), and with them the indexes, which
follow what is stored. Subtype and label go by `last_clock`, which updates and removals also
move: the greatest add has them if it wins when it comes, and keeps them (`Described.step`).
`descriptor_lww_iff` says when this is what the clocks say.
-/

namespace SilkGraph

/-- What the first add of an entity fixes: the type, and for an edge its endpoints. -/
def GraphOp.fixed : GraphOp → List String
  | .addNode _ nodeType .. => [nodeType]
  | .addEdge _ edgeType sourceId targetId _ => [edgeType, sourceId, targetId]
  | _ => []

namespace MaterializedGraph

/-- The type and the endpoints of the entity the graph holds. -/
def fixedOf (self : MaterializedGraph) (id : String) : EntityKind → Option (List String)
  | .node => self.nodes[id]?.map fun nd => [nd.nodeType]
  | .edge => self.edges[id]?.map fun ed => [ed.edgeType, ed.sourceId, ed.targetId]

/-- The graph describes the entity as an add does, and lists it there and nowhere else. -/
def DescribedBy (self : MaterializedGraph) : GraphOp → Prop
  | .addNode id nodeType subtype label _ =>
    (∃ nd, self.nodes[id]? = some nd ∧ nd.nodeType = nodeType ∧ nd.subtype = subtype ∧
      nd.label = label) ∧ ∀ ty, id ∈ self.byType[ty]?.getD ∅ ↔ ty = nodeType
  | .addEdge id edgeType sourceId targetId _ =>
    (∃ ed, self.edges[id]? = some ed ∧ ed.edgeType = edgeType ∧ ed.sourceId = sourceId ∧
      ed.targetId = targetId) ∧ (∀ src, id ∈ self.outgoing[src]?.getD ∅ ↔ src = sourceId) ∧
      ∀ tgt, id ∈ self.incoming[tgt]?.getD ∅ ↔ tgt = targetId
  | _ => False

/-- Subtype and label of an add are taken when it comes, or are there already. -/
def TakesLabel (self : MaterializedGraph) (clock : HybridClock) : GraphOp → Prop
  | .addNode id _ subtype label _ => ∀ nd, self.nodes[id]? = some nd →
      nd.lastClock < clock ∨ nd.subtype = subtype ∧ nd.label = label
  | _ => True

section

variable [Crates] {g : MaterializedGraph} {σ : HashOrder} {e a : Entry} {es pre post : List Entry}
  {kind : EntityKind} {id : String} {nd : Node} {c : HybridClock}

/-! ### What the first add fixes -/

/-- **Step.** What is fixed stays; an add fixes what is not. -/
theorem fixedOf_apply (hc : e.payload.concerns kind id = true)
    (hv : e.payload.adds kind id = true → g.accepts .full e.payload = true) :
    (g.apply σ e).fixedOf id kind =
      (g.fixedOf id kind).or (if e.payload.adds kind id then some e.payload.fixed else none) := by
  obtain ⟨ev, hev, -⟩ := ownEvents_of_concerns hc hv
  have hnode : ∀ g : MaterializedGraph, g.fixedOf id .node = (g.slot id).node.map fun nd => [nd.nodeType] :=
    fun g => rfl
  have hedge : ∀ g : MaterializedGraph, g.fixedOf id .edge =
      (g.slot id).edge.map fun ed => [ed.edgeType, ed.sourceId, ed.targetId] := fun g => rfl
  obtain ⟨rfl, ty, st, lb, ps, hp⟩ | ⟨rfl, ty, src, tgt, ps, hp⟩ | ⟨rfl, hp⟩ | ⟨rfl, hp⟩ | ⟨k, v, hp⟩ :=
    GraphOp.concerns_cases hc
  · obtain rfl : .addNode ty st lb ps e.clock = ev := by simpa [Entry.event, hp] using hev
    rw [hnode, hnode, node_apply hc hv hev, Slot.step, hp]
    cases (g.slot id).node <;> simp [GraphOp.adds, GraphOp.fixed, Node.create]
  · obtain rfl : .addEdge ty src tgt ps e.clock = ev := by simpa [Entry.event, hp] using hev
    rw [hedge, hedge, slot_apply_edge hc hv hev, Slot.step, hp]
    cases (g.slot id).edge <;> simp [GraphOp.adds, GraphOp.fixed, Edge.create, Edge.readd]
  · obtain rfl : .removeNode e.clock = ev := by simpa [Entry.event, hp] using hev
    rw [hnode, hnode, node_apply hc hv hev, Slot.step, hp]
    cases (g.slot id).node <;> simp [GraphOp.adds]
  · obtain rfl : .removeEdge e.clock = ev := by simpa [Entry.event, hp] using hev
    rw [hedge, hedge, slot_apply_edge hc hv hev, Slot.step, hp]
    cases (g.slot id).edge with
    | none => simp [GraphOp.adds]
    | some ed => by_cases hlt : ed.lastAddClock < e.clock <;> simp [GraphOp.adds, Edge.remove, hlt]
  · obtain rfl : .update k v e.clock = ev := by simpa [Entry.event, hp] using hev
    cases kind with
    | node =>
      rw [hnode, hnode, node_apply hc hv hev, Slot.step, hp]
      split
      · cases (g.slot id).node <;> simp [GraphOp.adds]
      · simp [GraphOp.adds]
    | edge =>
      rw [hedge, hedge, slot_apply_edge hc hv hev, Slot.step, hp]
      split
      · cases hnd : (g.slot id).node with
        | some nd => simp [GraphOp.adds]
        | none => cases (g.slot id).edge <;> simp [GraphOp.adds, Edge.update]
      · simp [GraphOp.adds]

/-- **Run.** The first add fixes it. -/
theorem fixedOf_applyAll (hc : ∀ e ∈ es, e.payload.concerns kind id = true)
    (hv : ∀ e ∈ es, e.payload.adds kind id = true → g.accepts .full e.payload = true) :
    (g.applyAll σ es).fixedOf id kind = (g.fixedOf id kind).or
      ((es.find? fun e => e.payload.adds kind id).map fun e => e.payload.fixed) := by
  induction es generalizing g with
  | nil => simp [applyAll]
  | cons e es ih =>
    have he := hc e List.mem_cons_self
    rw [applyAll, List.foldl_cons, ← applyAll, ih (fun a ha => hc a (List.mem_cons_of_mem e ha))
      (fun a ha hadd => by rw [accepts_apply he hadd]; exact hv a (List.mem_cons_of_mem e ha) hadd),
      fixedOf_apply he (hv e List.mem_cons_self), List.find?_cons, Option.or_assoc]
    cases e.payload.adds kind id <;> simp

/-! ### Subtype and label -/

/-- A node described by an add of a given clock, with clocks that no earlier add can beat. -/
structure Described (c : HybridClock) (st : Option String) (lb : String) (nd : Node) : Prop where
  subtype : nd.subtype = st
  label : nd.label = lb
  lastClock : c ≤ nd.lastClock
  lastAddClock : c ≤ nd.lastAddClock

/-- **Step.** No entry but a later add changes the description. -/
theorem Described.step {st : Option String} {lb : String} (hd : Described c st lb nd)
    (hnd : g.nodes[id]? = some nd) (hc : e.payload.concerns .node id = true)
    (hv : e.payload.adds .node id = true → g.accepts .full e.payload = true)
    (hlt : e.payload.adds .node id = true → e.clock < c) :
    ∃ nd', (g.apply σ e).nodes[id]? = some nd' ∧ Described c st lb nd' := by
  obtain ⟨ev, hev, -⟩ := ownEvents_of_concerns hc hv
  have hslot : (g.slot id).node = some nd := hnd
  have hget : (g.apply σ e).nodes[id]? = ((g.slot id).step g.ontology id ev).node :=
    node_apply hc hv hev
  rw [hget]
  obtain ⟨-, ty, st', lb', ps, hp⟩ | ⟨hk, -⟩ | ⟨-, hp⟩ | ⟨hk, -⟩ | ⟨k, v, hp⟩ := GraphOp.concerns_cases hc
  · obtain rfl : .addNode ty st' lb' ps e.clock = ev := by simpa [Entry.event, hp] using hev
    have hearlier : ¬ nd.lastClock < e.clock :=
      not_lt.mpr ((hlt (by simp [hp, GraphOp.adds])).le.trans hd.lastClock)
    rw [Slot.step, hslot]
    refine ⟨_, rfl, ?_, ?_, ?_, ?_⟩
    · rw [Node.readd_subtype, if_neg hearlier, hd.subtype]
    · rw [Node.readd_label, if_neg hearlier, hd.label]
    · rw [Node.readd_lastClock]
      exact hd.lastClock.trans (le_max_left ..)
    · rw [Node.readd_lastAddClock]
      exact hd.lastAddClock.trans (le_max_left ..)
  · cases hk
  · obtain rfl : .removeNode e.clock = ev := by simpa [Entry.event, hp] using hev
    rw [Slot.step, hslot]
    refine ⟨nd.remove e.clock, rfl, by simp [hd.subtype], by simp [hd.label], ?_, by simp [hd.lastAddClock]⟩
    -- a removal that counts is later than the add
    obtain hle | hgt := le_or_gt e.clock nd.lastAddClock
    · rw [Node.remove_of_le hle]
      exact hd.lastClock
    · rw [Node.remove_of_lt hgt]
      exact hd.lastAddClock.trans hgt.le
  · cases hk
  · obtain rfl : .update k v e.clock = ev := by simpa [Entry.event, hp] using hev
    rw [Slot.step, hslot]
    split
    · refine ⟨_, rfl, by simp [hd.subtype], by simp [hd.label], ?_, by simp [hd.lastAddClock]⟩
      rw [Node.update_lastClock]
      exact hd.lastClock.trans (le_max_left ..)
    · exact ⟨nd, hslot, hd⟩

/-- **Run.** -/
theorem Described.run {st : Option String} {lb : String} (hd : Described c st lb nd)
    (hnd : g.nodes[id]? = some nd) (hc : ∀ e ∈ es, e.payload.concerns .node id = true)
    (hv : ∀ e ∈ es, e.payload.adds .node id = true → g.accepts .full e.payload = true)
    (hlt : ∀ e ∈ es, e.payload.adds .node id = true → e.clock < c) :
    ∃ nd', (g.applyAll σ es).nodes[id]? = some nd' ∧ Described c st lb nd' := by
  induction es generalizing g nd with
  | nil => exact ⟨nd, hnd, hd⟩
  | cons e es ih =>
    have he := hc e List.mem_cons_self
    obtain ⟨nd', hnd', hd'⟩ : ∃ nd', (g.apply σ e).nodes[id]? = some nd' ∧ Described c st lb nd' :=
      hd.step hnd he (hv e List.mem_cons_self) (hlt e List.mem_cons_self)
    refine ih hd' hnd' (fun a ha => hc a (List.mem_cons_of_mem e ha)) (fun a ha hadd => ?_)
      fun a ha => hlt a (List.mem_cons_of_mem e ha)
    rw [accepts_apply he hadd]
    exact hv a (List.mem_cons_of_mem e ha) hadd

/-! ### The law -/

theorem applyAll_append (g : MaterializedGraph) (σ : HashOrder) (es es' : List Entry) :
    g.applyAll σ (es ++ es') = (g.applyAll σ es).applyAll σ es' := List.foldl_append

/-- Adds stay acceptable along entries about the entity. -/
theorem accepts_applyAll (hc : ∀ e ∈ es, e.payload.concerns kind id = true)
    (ha : a.payload.adds kind id = true) :
    (g.applyAll σ es).accepts .full a.payload = g.accepts .full a.payload := by
  induction es generalizing g with
  | nil => rfl
  | cons e es ih =>
    rw [applyAll, List.foldl_cons, ← applyAll, ih fun b hb => hc b (List.mem_cons_of_mem e hb),
      accepts_apply (hc e List.mem_cons_self) ha]

/-- When the greatest add of a node comes, it describes the node if it takes the label; what
comes later leaves it. -/
theorem label_applyAll {ty lb : String} {st : Option String} {ps : BTreeMap String Value}
    (hp : a.payload = .addNode id ty st lb ps)
    (hc : ∀ e ∈ pre ++ a :: post, e.payload.concerns .node id = true)
    (hv : ∀ e ∈ pre ++ a :: post, e.payload.adds .node id = true → g.accepts .full e.payload = true)
    (hlt : ∀ e ∈ post, e.payload.adds .node id = true → e.clock < a.clock) :
    ∃ nd, (g.applyAll σ (pre ++ a :: post)).nodes[id]? = some nd ∧
      (nd.subtype = st ∧ nd.label = lb ↔ (g.applyAll σ pre).TakesLabel a.clock a.payload) := by
  have hcpre : ∀ e ∈ pre, e.payload.concerns .node id = true := fun e he =>
    hc e (List.mem_append_left _ he)
  have hca := hc a (by simp)
  have hadd : a.payload.adds .node id = true := by simp [hp, GraphOp.adds]
  set g₁ := g.applyAll σ pre with hg₁
  have hva : g₁.accepts .full a.payload = true :=
    (accepts_applyAll hcpre hadd).trans (hv a (by simp) hadd)
  have hev : a.event = some (id, .addNode ty st lb ps a.clock) := by rw [Entry.event, hp]
  have hget : (g₁.apply σ a).nodes[id]? =
      ((g₁.slot id).step g₁.ontology id (.addNode ty st lb ps a.clock)).node :=
    node_apply hca (fun _ => hva) hev
  -- the node as the add leaves it, which the entries after it do not describe anew
  obtain ⟨nd₁, hnd₁, hlast, hladd, hiff⟩ : ∃ nd₁, (g₁.apply σ a).nodes[id]? = some nd₁ ∧
      a.clock ≤ nd₁.lastClock ∧ a.clock ≤ nd₁.lastAddClock ∧
      (nd₁.subtype = st ∧ nd₁.label = lb ↔ g₁.TakesLabel a.clock a.payload) := by
    refine ⟨_, hget, ?_⟩
    have hslot : (g₁.slot id).node = g₁.nodes[id]? := rfl
    rw [hp, TakesLabel, hslot]
    cases hnd : g₁.nodes[id]? with
    | none => simp [Node.create]
    | some nd =>
      simp only [Node.readd_lastClock, Node.readd_lastAddClock, le_max_right, true_and,
        Node.readd_subtype, Node.readd_label, Option.some.injEq, forall_eq']
      split <;> rename_i hlt' <;> simp [hlt']
  have hvpost : ∀ e ∈ post, e.payload.adds .node id = true →
      (g₁.apply σ a).accepts .full e.payload = true := fun e he hea => by
    rw [accepts_apply hca hea, accepts_applyAll hcpre hea]
    exact hv e (by simp [he]) hea
  obtain ⟨nd, hnd, hdesc⟩ : ∃ nd, ((g₁.apply σ a).applyAll σ post).nodes[id]? = some nd ∧
      Described a.clock nd₁.subtype nd₁.label nd :=
    Described.run ⟨rfl, rfl, hlast, hladd⟩ hnd₁ (fun e he => hc e (by simp [he])) hvpost hlt
  refine ⟨nd, ?_, ?_⟩
  · rw [applyAll_append, applyAll, List.foldl_cons, ← applyAll]
    exact hnd
  · rw [hdesc.subtype, hdesc.label, hiff]

/-- **Which orders the descriptor law survives.** Adds that are accepted, removals and updates
of one node or edge come to a graph that does not know it, one add with a greater clock than
all others. The entity ends described, and listed, as that add says, exactly if the first add
to come has its type and endpoints, and it takes the label when it comes. -/
theorem descriptor_lww_iff (σ : HashOrder) (o : Ontology) (calls : List GraphCall)
    (kind : EntityKind) (id : String) (pre : List Entry) (a : Entry) (post : List Entry) :
    let g := calls.foldl (GraphCall.run σ) (new o)
    let es := pre ++ a :: post
    g.fixedOf id kind = none → (∀ e ∈ es, e.payload.concerns kind id = true) →
    (∀ e ∈ es, e.payload.adds kind id = true → g.accepts .full e.payload = true) →
    a.payload.adds kind id = true →
    (∀ e ∈ pre ++ post, e.payload.adds kind id = true → e.clock < a.clock) →
    ((g.applyAll σ es).DescribedBy a.payload ↔
      (∀ f, es.find? (fun e => e.payload.adds kind id) = some f → f.payload.fixed = a.payload.fixed) ∧
        (g.applyAll σ pre).TakesLabel a.clock a.payload) := by
  intro g es unknown concerns valid hadd greatest
  have hfixed : (g.applyAll σ es).fixedOf id kind =
      (es.find? fun e => e.payload.adds kind id).map fun e => e.payload.fixed := by
    rw [fixedOf_applyAll concerns valid, unknown, Option.none_or]
  have hidx : (g.applyAll σ es).Indexed := by
    have hrun := indexed_run σ o (calls ++ es.map .apply)
    rw [List.foldl_append, List.foldl_map] at hrun
    exact hrun
  obtain ⟨f, hf⟩ : ∃ f, es.find? (fun e => e.payload.adds kind id) = some f :=
    Option.isSome_iff_exists.mp (List.find?_isSome.mpr ⟨a, by simp [es], hadd⟩)
  rw [hf, Option.map_some] at hfixed
  simp only [hf, Option.some.injEq, forall_eq']
  obtain ⟨rfl, ty, st, lb, ps, hp⟩ | ⟨rfl, ty, src, tgt, ps, hp⟩ := GraphOp.adds_iff.mp hadd
  · obtain ⟨nd, hnd, hlabel⟩ := label_applyAll (σ := σ) hp concerns valid fun e he =>
      greatest e (List.mem_append_right _ he)
    have hnd' : (g.applyAll σ es).nodes[id]? = some nd := hnd
    have hty : f.payload.fixed = [nd.nodeType] := by
      rw [fixedOf, hnd', Option.map_some] at hfixed
      exact (Option.some.inj hfixed).symm
    rw [← hlabel, hp, DescribedBy, hnd', hty, GraphOp.fixed]
    simp only [hidx.byType.mem, hnd', Option.some.injEq, exists_eq_left', List.cons.injEq, and_true]
    constructor
    · rintro ⟨⟨h1, h2⟩, -⟩
      exact ⟨h1, h2⟩
    · rintro ⟨h1, h2⟩
      refine ⟨⟨h1, h2⟩, fun T => ?_⟩
      rw [h1]
      exact eq_comm
  · have hed : ∃ ed, (g.applyAll σ es).edges[id]? = some ed ∧
        [ed.edgeType, ed.sourceId, ed.targetId] = f.payload.fixed := by
      rw [fixedOf] at hfixed
      exact Option.map_eq_some_iff.mp hfixed
    obtain ⟨ed, hed, hshape⟩ := hed
    have htake : (g.applyAll σ pre).TakesLabel a.clock (.addEdge id ty src tgt ps) := trivial
    rw [hp, DescribedBy, hed, ← hshape, GraphOp.fixed, and_iff_left htake]
    simp only [hidx.outgoing.mem, hidx.incoming.mem, hed, Option.some.injEq, exists_eq_left',
      List.cons.injEq, and_true]
    constructor
    · rintro ⟨h, -⟩
      exact h
    · rintro ⟨h1, h2, h3⟩
      refine ⟨⟨h1, h2, h3⟩, fun src' => ?_, fun tgt' => ?_⟩
      · rw [h2]
        exact eq_comm
      · rw [h3]
        exact eq_comm

end

end MaterializedGraph

open Sample MaterializedGraph

/-- Two adds of a node in the order of their clocks, an update after them. -/
theorem descriptor_lww_iff_in_order :
    let add := Entry.new (.addNode "ann" "person" none "Ann" ∅) [] [] ⟨"a", 1, 0⟩ "a"
    let again := Entry.new (.addNode "ann" "person" none "Anna" ∅) [] [] ⟨"a", 2, 0⟩ "a"
    let update := Entry.new (.updateProperty "ann" "age" (.int 3)) [] [] ⟨"a", 3, 0⟩ "a"
    ((new guests).applyAll .keyOrder [add, again, update]).DescribedBy again.payload := by
  intro add again update
  have htakes : ((new guests).applyAll .keyOrder [add]).TakesLabel again.clock again.payload := by
    intro nd hnd
    have hlast : (((new guests).applyAll .keyOrder [add]).nodes["ann"]?.map Node.lastClock) =
        some ⟨"a", 1, 0⟩ := by decide +kernel
    rw [hnd, Option.map_some, Option.some.injEq] at hlast
    rw [hlast]
    exact .inl (by decide +kernel)
  refine (descriptor_lww_iff .keyOrder guests [] .node "ann" [add] again [update] rfl
    (by decide +kernel) (by decide +kernel) (by decide +kernel) (by decide +kernel)).mpr
    ⟨fun f hf => ?_, htakes⟩
  obtain rfl : add = f := by simpa [add, GraphOp.adds, Entry.new] using hf
  rfl

/-- The add with the greater clock comes first or second: the label is its in one order, but
the type is that of the first to come. An update between the clocks keeps the label out. -/
theorem descriptor_lww_broken :
    let dogs := { guests with nodeTypes := guests.nodeTypes.insert "dog" { } }
    let add := Entry.new (.addNode "ann" "person" none "Ann" ∅) [] [] ⟨"a", 1, 0⟩ "a"
    let update := Entry.new (.updateProperty "ann" "age" (.int 3)) [] [] ⟨"a", 3, 0⟩ "a"
    let again := Entry.new (.addNode "ann" "person" none "Anna" ∅) [] [] ⟨"a", 2, 0⟩ "a"
    let other := Entry.new (.addNode "ann" "dog" none "Ann" ∅) [] [] ⟨"a", 2, 0⟩ "a"
    (((new dogs).applyAll .keyOrder [add, other]).nodes["ann"]?.map Node.nodeType = some "person") ∧
    ((new dogs).applyAll .keyOrder [add, update, again]).nodes["ann"]?.map Node.label = some "Ann" ∧
    ((new dogs).applyAll .keyOrder [again, update, add]).nodes["ann"]?.map Node.label = some "Anna" := by
  decide +kernel

end SilkGraph
