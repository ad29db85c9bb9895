import SilkGraph.Graph.Quarantine
import SilkGraph.Graph.Schema
import SilkGraph.Lib.Replay
import Mathlib.Data.List.Nodup

/-!
# Quarantined entries have no effect

A quarantined entry stays in the log and out of the graph: leaving out of a list what its
rebuild quarantines should change nothing, and leave nothing to quarantine. That holds
(`quarantined_inert`) unless a refused extension is left half merged, an operation inside a
checkpoint is refused, which quarantines no entry of the list, an entry comes twice, or
edges that become complete at once compete for one identifier.

The proof runs the two rebuilds side by side: the second is a `Shadow` of the first, without
what is held or quarantined in the end.
-/

namespace SilkGraph

namespace MaterializedGraph

variable [Crates] {g g' : MaterializedGraph} {σ σ' : HashOrder} {e : Entry} {h : Hash}
  {mode : ValidationMode} {adopt : Bool} {es : List Entry}

/-! ### The conditions -/

/-- Two edge events under one identifier may come in either order: their clocks or their
properties tell which wins, and the edge is there already or both make the same one. -/
def EdgesCommute (there : Bool) : Event → Event → Prop
  | .addEdge ty src tgt ps c, .addEdge ty' src' tgt' ps' c' =>
    (c = c' → ps = ps') ∧ (there = true ∨ ty = ty' ∧ src = src' ∧ tgt = tgt')
  | _, _ => False

/-- The held edges that an entry completes: those that are accepted do not compete, as those
under one identifier may come in either order, and those from inside a checkpoint, whose
hashes are not listed, are accepted. -/
structure RetriesWhole (listed : Hash → Prop) (g : MaterializedGraph) (σ : HashOrder)
    (mode : ValidationMode) (e : Entry) : Prop where
  agree : ((g.retried σ mode e).flatMap ((g.withNode e).edgeEvents .full)).Pairwise fun a b =>
    a.1 = b.1 → EdgesCommute (g.edges[a.1]?).isSome a.2 b.2
  accepted : ∀ p ∈ g.retried σ mode e, ¬ listed p.hash → (g.withNode e).edgeEvents .full p ≠ []

/-- A refused extension leaves the ontology as it was, wherever it comes. -/
def ExtensionsWhole : Ontology → List Entry → Prop
  | _, [] => True
  | o, e :: es =>
    (∀ x, e.payload = .extendOntology x →
      (o.mergeExtension x).1.isOk ∨ (o.mergeExtension x).2 = o) ∧
    ExtensionsWhole (e.payload.declare o) es

mutual

/-- An operation inside a checkpoint is accepted, or an edge that is held. -/
def OpWhole (listed : Hash → Prop) (σ : HashOrder) (mode : ValidationMode) (adopt : Bool)
    (e : Entry) : GraphOp → MaterializedGraph → Prop
  | .checkpoint ops opClocks _ _, g => OpsWhole listed σ adopt e opClocks ops 0 g
  | op, g =>
    (g.accepts mode op = true ∨ g.holds op = true ∧ ¬ listed e.hash) ∧ RetriesWhole listed g σ mode e

/-- So are the operations of a checkpoint from the `i`-th on. -/
def OpsWhole (listed : Hash → Prop) (σ : HashOrder) (adopt : Bool) (e : Entry)
    (opClocks : List (ℕ × ℕ)) : List GraphOp → ℕ → MaterializedGraph → Prop
  | [], _, _ => True
  | .defineOntology ontology :: ops, i, g =>
    OpsWhole listed σ adopt e opClocks ops (i + 1) (if adopt then { g with ontology } else g)
  | op :: ops, i, g =>
    OpWhole listed σ .skipRequired true (Entry.new op [] [] (opClock e opClocks i) e.author) op g ∧
    OpsWhole listed σ adopt e opClocks ops (i + 1)
      (applyPayload σ .skipRequired true
        (Entry.new op [] [] (opClock e opClocks i) e.author) op g)

end

/-- The condition on one replayed entry. -/
def EntryWhole (listed : Hash → Prop) (σ : HashOrder) (g : MaterializedGraph) (e : Entry) : Prop :=
  match e.payload with
  | .checkpoint ops opClocks _ _ => OpsWhole listed σ false e opClocks ops 0 g
  | .extendOntology _ => True
  | _ => RetriesWhole listed g σ .full e

/-- The condition on a list of them. In the end no edge from inside a checkpoint is still
held. -/
def ReplayWhole (listed : Hash → Prop) (σ : HashOrder) : MaterializedGraph → List Entry → Prop
  | g, [] => ∀ h ∈ g.pendingEdges, listed h
  | g, e :: es => EntryWhole listed σ g e ∧ ReplayWhole listed σ (materialize σ g e) es

/-! ### Held edges -/

omit [Crates] in
theorem HeldByHash.congr (hg : g.HeldByHash) (h : g'.pendingEdges = g.pendingEdges) :
    g'.HeldByHash := fun k p hp => hg k p (h ▸ hp)

theorem HeldByHash.ordinary (hg : g.HeldByHash) (σ : HashOrder) (he : e.Ordinary)
    (mode : ValidationMode) (adopt : Bool) : (g.applyInner σ e mode adopt).HeldByHash := by
  intro k p hp
  rw [getElem?_pending_applyInner g σ he mode adopt] at hp
  split at hp
  · cases hp
  · split at hp
    · rename_i hk
      obtain rfl := Option.some.inj hp
      exact hk.1
    · exact hg k p hp

/-- Of the hashes only that of the entry can become held. -/
theorem mem_pending_applyInner (he : e.Ordinary)
    (hh : h ∈ (g.applyInner σ e mode adopt).pendingEdges) : e.hash = h ∨ h ∈ g.pendingEdges := by
  rw [Std.ExtTreeMap.mem_iff_isSome_getElem?, getElem?_pending_applyInner g σ he mode adopt] at hh
  split at hh
  · cases hh
  · split at hh
    · rename_i hk
      exact .inl hk.1
    · exact .inr (Std.ExtTreeMap.mem_iff_isSome_getElem?.mpr hh)

/-- An accepted entry holds no edge. -/
theorem pending_of_accepts (g : MaterializedGraph) (σ : HashOrder) (he : e.Ordinary)
    (ha : g.accepts mode e.payload = true) (adopt : Bool)
    (hh : h ∈ (g.applyInner σ e mode adopt).pendingEdges) : h ∈ g.pendingEdges := by
  obtain ⟨p, hp⟩ := HashMap.mem_iff_getElem?.mp hh
  rw [getElem?_pending_applyInner g σ he mode adopt] at hp
  split at hp
  · cases hp
  · split at hp
    · rename_i hk
      rw [accepts_of_holds hk.2] at ha
      cases ha
    · exact HashMap.mem_iff_getElem?.mpr ⟨p, hp⟩

/-! ### What is neither held nor quarantined -/

/-- No edge is held under the hash, and no record stands under it. -/
def Absent (h : Hash) (g : MaterializedGraph) : Prop := h ∉ g.quarantined ∧ h ∉ g.pendingEdges

/-- Absent stays absent, unless the entry of that hash is refused. -/
theorem Absent.ordinary (ha : Absent h g) (hg : g.HeldByHash) (σ : HashOrder) (he : e.Ordinary)
    (mode : ValidationMode) (adopt : Bool)
    (hacc : e.hash = h → g.accepts mode e.payload = true) :
    Absent h (g.applyInner σ e mode adopt) := by
  obtain ⟨hq, hp⟩ := ha
  constructor
  · rw [mem_quarantined_applyInner hg σ he mode adopt]
    rintro (⟨p, hpr, rfl, -⟩ | ⟨-, hin⟩)
    · obtain ⟨-, k, hk⟩ := ready_of_retried hpr
      exact hp (HashMap.mem_iff_getElem?.mpr ⟨p, hg k p hk ▸ hk⟩)
    · split at hin
      · rename_i hh
        rw [hacc hh.1] at hin
        cases hin
      · exact hq hin
  · rw [HashMap.not_mem_iff_getElem?, getElem?_pending_applyInner g σ he mode adopt]
    split
    · rfl
    · split
      · rename_i hh
        have hno : g.accepts mode e.payload = false := accepts_of_holds hh.2
        rw [hacc hh.1] at hno
        cases hno
      · exact HashMap.not_mem_iff_getElem?.mp hp

/-- An entry that is judged and accepted is absent afterwards. -/
theorem absent_of_accepts (hg : g.HeldByHash) (σ : HashOrder) (he : e.Ordinary)
    (hp : e.hash ∉ g.pendingEdges) (hj : isJudged e.payload = true)
    (ha : g.accepts mode e.payload = true) (adopt : Bool) :
    Absent e.hash (g.applyInner σ e mode adopt) := by
  refine ⟨?_, fun hin => hp (pending_of_accepts g σ he ha adopt hin)⟩
  rw [mem_quarantined_applyInner hg σ he mode adopt]
  rintro (⟨p, hpr, heq, -⟩ | ⟨-, hin⟩)
  · obtain ⟨-, k, hk⟩ := ready_of_retried hpr
    exact hp (HashMap.mem_iff_getElem?.mpr ⟨p, by rw [← heq, hg k p hk]; exact hk⟩)
  · rw [if_pos ⟨rfl, hj⟩, ha] at hin
    cases hin

/-- A held edge that is completed and accepted is absent afterwards. -/
theorem absent_of_retried (hg : g.HeldByHash) {p : Entry} (σ : HashOrder) (he : e.Ordinary)
    (mode : ValidationMode) (adopt : Bool) (hp : p ∈ g.retried σ mode e)
    (ha : (g.withNode e).edgeEvents .full p ≠ []) :
    Absent p.hash (g.applyInner σ e mode adopt) := by
  constructor
  · rw [mem_quarantined_applyInner hg σ he mode adopt]
    rintro (⟨q, hq, heq, hno⟩ | ⟨hall, -⟩)
    · obtain rfl := List.inj_on_of_nodup_map (nodup_retried hg σ mode e) hq hp heq
      exact ha hno
    · exact hall p hp rfl
  · rw [HashMap.not_mem_iff_getElem?, getElem?_pending_applyInner g σ he mode adopt,
      if_pos ⟨p, hp, rfl⟩]

/-! ### Whole entries -/

/-- Every record under a hash that is not listed is of an edge that is held. -/
def Excused (listed : Hash → Prop) (g : MaterializedGraph) : Prop :=
  ∀ h ∈ g.quarantined, listed h ∨ h ∈ g.pendingEdges

/-- What whole entries keep: of the hashes in question no further one is held, and those that
are absent stay so. -/
structure Tidy (listed calm : Hash → Prop) (g g' : MaterializedGraph) : Prop where
  held : g.HeldByHash → g'.HeldByHash
  pending : ∀ h, calm h → h ∈ g'.pendingEdges → h ∈ g.pendingEdges
  absent : ∀ h, calm h → g.HeldByHash → Absent h g → Absent h g'
  excused : g.HeldByHash → Excused listed g → Excused listed g'

theorem excused_applyInner {listed : Hash → Prop} (hx : Excused listed g) (hg : g.HeldByHash)
    (he : e.Ordinary) (hret : RetriesWhole listed g σ mode e)
    (hc : g.accepts mode e.payload = true ∨ g.holds e.payload = true ∨ listed e.hash) (adopt : Bool) :
    Excused listed (g.applyInner σ e mode adopt) := by
  intro h hq
  rw [mem_quarantined_applyInner hg σ he mode adopt] at hq
  rw [Std.ExtTreeMap.mem_iff_isSome_getElem?, getElem?_pending_applyInner g σ he mode adopt]
  obtain ⟨p, hp, rfl, hno⟩ | ⟨hall, hq⟩ := hq
  · refine .inl ?_
    by_contra hl
    exact hret.accepted p hp hl hno
  · rw [if_neg fun ⟨p, hp, heq⟩ => hall p hp heq]
    split at hq <;> rename_i hh
    · obtain ⟨rfl, -⟩ := hh
      obtain hacc | hhold | hl := hc
      · rw [hacc] at hq
        cases hq
      · rw [if_pos ⟨rfl, hhold⟩]
        exact .inr rfl
      · exact .inl hl
    · split
      · exact .inr rfl
      · rw [← Std.ExtTreeMap.mem_iff_isSome_getElem?]
        exact hx h hq

namespace Tidy

variable {g'' : MaterializedGraph} {op : GraphOp} {listed calm : Hash → Prop}

omit [Crates]

theorem refl (listed calm : Hash → Prop) (g : MaterializedGraph) : Tidy listed calm g g :=
  ⟨id, fun _ _ h => h, fun _ _ _ h => h, fun _ h => h⟩

theorem trans (h : Tidy listed calm g g') (h' : Tidy listed calm g' g'') : Tidy listed calm g g'' where
  held hg := h'.held (h.held hg)
  pending k hl hk := h.pending k hl (h'.pending k hl hk)
  absent k hl hg hk := h'.absent k hl (h.held hg) (h.absent k hl hg hk)
  excused hg hx := h'.excused (h.held hg) (h.excused hg hx)

theorem ontology (listed calm : Hash → Prop) (g : MaterializedGraph) (ontology : Ontology) :
    Tidy listed calm g { g with ontology } :=
  ⟨id, fun _ _ h => h, fun _ _ _ h => h, fun _ h => h⟩

theorem release (listed calm : Hash → Prop) (g : MaterializedGraph) (h : Hash) :
    Tidy listed calm g (g.release h) where
  held hg := hg
  pending _ _ hk := hk
  absent _ _ _ ha := ⟨fun hq => ha.1 ((mem_release_iff g h).mp hq).2, ha.2⟩
  excused _ hx k hk := hx k ((mem_release_iff g h).mp hk).2

variable [Crates]

/-- An entry whose hash is not in question, or that is accepted. -/
theorem ordinary (he : e.Ordinary) (hret : RetriesWhole listed g σ mode e)
    (hcalm : calm e.hash → g.accepts mode e.payload = true)
    (hc : g.accepts mode e.payload = true ∨ g.holds e.payload = true ∨ listed e.hash)
    (adopt : Bool) : Tidy listed calm g (g.applyInner σ e mode adopt) where
  held hg := hg.ordinary σ he mode adopt
  pending h hl hk := by
    obtain rfl | hp := mem_pending_applyInner he hk
    · exact pending_of_accepts g σ he (hcalm hl) adopt hk
    · exact hp
  absent h hl hg ha := ha.ordinary hg σ he mode adopt fun heq => hcalm (heq ▸ hl)
  excused hg hx := excused_applyInner hx hg he hret hc adopt

omit [Crates] in
theorem mono {calm' : Hash → Prop} (h : Tidy listed calm g g') (hle : ∀ k, calm' k → calm k) :
    Tidy listed calm' g g' :=
  ⟨h.held, fun k hk => h.pending k (hle k hk), fun k hk => h.absent k (hle k hk), h.excused⟩

theorem extension {x : OntologyExtension} (ha : g.accepts mode (.extendOntology x) = true)
    (e : Entry) : Tidy listed calm g (g.extendOntologyArm e x) := by
  rw [accepts] at ha
  rw [extendOntologyArm]
  split <;> rename_i o h
  · rw [h] at ha
    cases ha
  · exact (ontology listed calm g o).trans (release listed calm _ e.hash)

end Tidy

variable {listed : Hash → Prop}

theorem opWhole_iff {op : GraphOp} (hc : op.isCheckpoint = false) :
    OpWhole listed σ mode adopt e op g ↔
      (g.accepts mode op = true ∨ g.holds op = true ∧ ¬ listed e.hash) ∧
        RetriesWhole listed g σ mode e := by
  cases op with
  | checkpoint => cases hc
  | _ =>
    rw [OpWhole]
    all_goals exact fun _ _ _ _ h => by cases h

theorem accepts_extension {x : OntologyExtension}
    (h : OpWhole listed σ mode adopt e (.extendOntology x) g) :
    g.accepts mode (.extendOntology x) = true :=
  ((opWhole_iff rfl).mp h).1.resolve_right fun hh => by cases hh.1

/-- An operation of a checkpoint that is applied as it comes. -/
theorem tidy_plain {op : GraphOp} (hp : e.payload = op) (hc : op.isCheckpoint = false)
    (hx : op.isExtendOntology = false) (h : OpWhole listed σ mode adopt e op g) :
    Tidy listed listed g (applyPayload σ mode adopt e op g) := by
  subst hp
  obtain ⟨hacc, hret⟩ := (opWhole_iff hc).mp h
  exact .ordinary ⟨hx, hc⟩ hret (fun hl => hacc.resolve_right fun hh => hh.2 hl)
    (hacc.imp_right fun hh => .inl hh.1) adopt

mutual

theorem applyPayload_tidy (σ : HashOrder) (mode : ValidationMode) (adopt : Bool) (e : Entry) :
    ∀ (op : GraphOp) (g : MaterializedGraph), e.payload = op → OpWhole listed σ mode adopt e op g →
      Tidy listed listed g (applyPayload σ mode adopt e op g)
  | .checkpoint ops opClocks _ _, g, _, h => by
    rw [OpWhole] at h
    rw [applyPayload]
    exact (applyOps_tidy σ adopt e opClocks ops 0 g h).trans (.release ..)
  | .extendOntology x, g, _, h => by
    rw [applyPayload]
    exact .extension (accepts_extension h) e
  | .defineOntology _, g, hp, h => tidy_plain hp rfl rfl h
  | .defineLens _, g, hp, h => tidy_plain hp rfl rfl h
  | .addNode .., g, hp, h => tidy_plain hp rfl rfl h
  | .addEdge .., g, hp, h => tidy_plain hp rfl rfl h
  | .updateProperty .., g, hp, h => tidy_plain hp rfl rfl h
  | .removeNode _, g, hp, h => tidy_plain hp rfl rfl h
  | .removeEdge _, g, hp, h => tidy_plain hp rfl rfl h

/-- The operations of a checkpoint, one by one. -/
theorem applyOps_tidy (σ : HashOrder) (adopt : Bool) (e : Entry) (opClocks : List (ℕ × ℕ)) :
    ∀ (ops : List GraphOp) (i : ℕ) (g : MaterializedGraph),
      OpsWhole listed σ adopt e opClocks ops i g →
      Tidy listed listed g (applyOps σ adopt e opClocks ops i g)
  | [], i, g, _ => by
    rw [applyOps]
    exact .refl listed listed g
  | op :: ops, i, g, h => by
    have hrest := applyOps_tidy σ adopt e opClocks ops (i + 1)
    have hop := applyPayload_tidy σ .skipRequired true
      (Entry.new op [] [] (opClock e opClocks i) e.author) op g rfl
    cases op with
    | defineOntology carried =>
      rw [OpsWhole] at h
      rw [applyOps]
      refine .trans ?_ (hrest _ h)
      split
      · exact .ontology listed listed g carried
      · exact .refl listed listed g
    | _ =>
      rw [OpsWhole] at h
      · rw [applyOps]
        · exact (hop h.1).trans (hrest _ h.2)
        all_goals exact fun _ h => by cases h
      all_goals exact fun _ h => by cases h

end

/-! ### The order of retried edges -/

omit [Crates] in
theorem EdgesCommute.symm {there : Bool} {a b : Event} (h : EdgesCommute there a b) :
    EdgesCommute there b a := by
  cases a <;> cases b <;> try exact h.elim
  exact ⟨fun hc => (h.1 hc.symm).symm, h.2.imp_right fun ⟨h₁, h₂, h₃⟩ => ⟨h₁.symm, h₂.symm, h₃.symm⟩⟩

omit [Crates] in
theorem EdgesCommute.mono {there there' : Bool} {a b : Event} (hle : there = true → there' = true)
    (h : EdgesCommute there a b) : EdgesCommute there' a b := by
  cases a <;> cases b <;> try exact h.elim
  exact ⟨h.1, h.2.imp_left hle⟩

theorem isSome_edge_step {o : Ontology} {id : String} {sl : Slot} {ev : Event}
    (h : sl.edge.isSome = true) : (sl.step o id ev).edge.isSome = true := by
  cases ev <;> simp only [Slot.step]
  case update =>
    split
    · split
      · exact h
      · rw [Option.isSome_map]
        exact h
    · exact h
  case removeEdge =>
    rw [Option.isSome_map]
    exact h
  case addEdge => rfl
  all_goals exact h

theorem isSome_edge_play {o : Ontology} {id : String} {sl : Slot} (evs : List Event)
    (h : sl.edge.isSome = true) : (sl.play o id evs).edge.isSome = true := by
  induction evs generalizing sl with
  | nil => exact h
  | cons ev evs ih => exact ih (isSome_edge_step h)

theorem EdgesCommute.swap {o : Ontology} {id : String} {sl : Slot} {a b : Event}
    (h : EdgesCommute sl.edge.isSome a b) :
    (sl.step o id a).step o id b = (sl.step o id b).step o id a := by
  obtain ⟨nd, ed⟩ := sl
  cases a <;> cases b <;> try exact h.elim
  rename_i c _ _ _ _ c'
  obtain ⟨hps, hthere⟩ := h
  by_cases hc : c = c'
  · obtain rfl := hc
    obtain rfl := hps rfl
    cases ed with
    | none =>
      obtain hsome | ⟨rfl, rfl, rfl⟩ := hthere
      · cases hsome
      · rfl
    | some ed => rfl
  · cases ed with
    | none =>
      obtain hsome | ⟨rfl, rfl, rfl⟩ := hthere
      · cases hsome
      · simp only [Slot.step, Edge.create_readd_comm hc]
    | some ed => simp only [Slot.step, Edge.readd_comm hc]

/-- Edge events that commute may be played in another order. -/
theorem play_perm (o : Ontology) (id : String) (sl : Slot) {evs evs' : List Event}
    (hp : evs.Perm evs') (h : evs.Pairwise (EdgesCommute sl.edge.isSome)) :
    sl.play o id evs = sl.play o id evs' :=
  Replay.foldl_perm (R := fun (sl : Slot) a b => EdgesCommute sl.edge.isSome a b)
    (fun _ _ _ h => h.symm) (fun _ _ _ _ h => h.mono isSome_edge_step)
    (fun _ _ _ h => h.swap) hp h

/-! ### Running side by side -/

omit [Crates] in
/-- What yields nothing may be left out of a flat map. -/
theorem flatMap_filter_of_nil {α β : Type} {l : List α} {p : α → Bool} {f : α → List β}
    (h : ∀ a ∈ l, p a = false → f a = []) : (l.filter p).flatMap f = l.flatMap f := by
  induction l with
  | nil => rfl
  | cons a l ih =>
    have hl := ih fun b hb => h b (List.mem_cons_of_mem _ hb)
    cases hp : p a with
    | true => rw [List.filter_cons_of_pos hp, List.flatMap_cons, List.flatMap_cons, hl]
    | false =>
      rw [List.filter_cons_of_neg (by simp [hp]), List.flatMap_cons, h a List.mem_cons_self hp, hl,
        List.nil_append]

/-- The second graph is the first one without the records and the held edges of the hashes
that are not kept. -/
structure Shadow (keep : Hash → Bool) (g g' : MaterializedGraph) : Prop where
  ontology : g'.ontology = g.ontology
  slots : ∀ id, g'.slot id = g.slot id
  pending : ∀ (h : Hash) (p : Entry),
    g'.pendingEdges[h]? = some p ↔ keep h = true ∧ g.pendingEdges[h]? = some p
  quarantined : ∀ h, h ∈ g'.quarantined ↔ keep h = true ∧ h ∈ g.quarantined
  held : g.HeldByHash

namespace Shadow

variable {keep : Hash → Bool} {listed : Hash → Prop} (hs : Shadow keep g g')

include hs

omit [Crates] in
theorem heldShadow : g'.HeldByHash := fun h p hp => hs.held h p ((hs.pending h p).mp hp).2

omit [Crates] in
theorem types (id : String) : g'.typeOf id = g.typeOf id :=
  congrArg (fun sl : Slot => sl.node.map Node.nodeType) (hs.slots id)

theorem acceptsEq (mode : ValidationMode) (op : GraphOp) : g'.accepts mode op = g.accepts mode op := by
  cases op <;>
    simp only [accepts, acceptsEdge, hs.ontology, hs.slots, hs.types]

omit [Crates] in
theorem holdsEq (op : GraphOp) : g'.holds op = g.holds op := by
  cases op <;> simp only [holds, holdsEdge, hs.ontology, hs.types]

omit [Crates] in
/-- The added node is in both. -/
theorem withNodeTypes (e : Entry) (id : String) :
    (g'.withNode e).typeOf id = (g.withNode e).typeOf id := by
  rw [withNode, withNode]
  split
  · rw [typeOf_applyAddNode, typeOf_applyAddNode, hs.types]
  · exact hs.types id

theorem withNodeEvents (e : Entry) :
    (g'.withNode e).edgeEvents .full = (g.withNode e).edgeEvents .full := by
  refine funext (edgeEvents_congr ?_ (hs.withNodeTypes e))
  rw [withNode, withNode]
  split
  · rw [(applyAddNode_rest ..).1, (applyAddNode_rest ..).1, hs.ontology]
  · exact hs.ontology

theorem mem_retried {p : Entry} (σ σ' : HashOrder) (mode : ValidationMode) (e : Entry) :
    p ∈ g'.retried σ' mode e ↔ keep p.hash = true ∧ p ∈ g.retried σ mode e := by
  rw [mem_retried_iff, mem_retried_iff, hs.acceptsEq, isReady_congr (hs.withNodeTypes e)]
  simp only [hs.pending]
  constructor
  · rintro ⟨hadd, hacc, hr, h, hk, hp⟩
    exact ⟨hs.held h p hp ▸ hk, hadd, hacc, hr, h, hp⟩
  · rintro ⟨hk, hadd, hacc, hr, h, hp⟩
    exact ⟨hadd, hacc, hr, h, hs.held h p hp ▸ hk, hp⟩

theorem retried_perm (σ σ' : HashOrder) (mode : ValidationMode) (e : Entry) :
    (g'.retried σ' mode e).Perm ((g.retried σ mode e).filter fun p => keep p.hash) := by
  refine (List.perm_ext_iff_of_nodup (nodup_retried hs.heldShadow σ' mode e).of_map
    ((nodup_retried hs.held σ mode e).of_map.filter _)).mpr fun p => ?_
  rw [hs.mem_retried σ σ' mode e, List.mem_filter, and_comm]

theorem ownEventsEq (mode : ValidationMode) (e : Entry) :
    g'.ownEvents mode e = g.ownEvents mode e := by
  have hedge : g'.edgeEvents mode e = g.edgeEvents mode e :=
    edgeEvents_congr hs.ontology hs.types e
  rw [ownEvents, ownEvents, hs.ontology]
  split <;> first | rfl | exact hedge

/-- An entry that both graphs take, and in whose refusal the record is kept. -/
theorem ordinary (σ σ' : HashOrder) (he : e.Ordinary) (mode : ValidationMode) (adopt : Bool)
    (hk : keep e.hash = true ∨ g.accepts mode e.payload = true)
    (hagree : RetriesWhole listed g σ mode e)
    (hfuture : ∀ h ∈ g.pendingEdges, Absent h (g.applyInner σ e mode adopt) → keep h = true) :
    Shadow keep (g.applyInner σ e mode adopt) (g'.applyInner σ' e mode adopt) := by
  -- an edge that is judged again and not kept is refused
  have hno : ∀ p ∈ g.retried σ mode e, keep p.hash = false →
      (g.withNode e).edgeEvents .full p = [] := fun p hp hkp => by
    by_contra hev
    obtain ⟨-, h, hh⟩ := ready_of_retried hp
    have hmem : p.hash ∈ g.pendingEdges := hs.held h p hh ▸ HashMap.mem_iff_getElem?.mpr ⟨p, hh⟩
    rw [hfuture p.hash hmem (absent_of_retried hs.held σ he mode adopt hp hev)] at hkp
    cases hkp
  have hret : ∀ (P : Entry → Prop) (h : Hash), keep h = true →
      ((∃ p ∈ g'.retried σ' mode e, p.hash = h ∧ P p) ↔
        ∃ p ∈ g.retried σ mode e, p.hash = h ∧ P p) := fun P h hkh => by
    refine exists_congr fun p => ?_
    rw [hs.mem_retried σ σ' mode e]
    grind
  constructor
  · rw [(applyInner_frame g' σ' he mode adopt).1, (applyInner_frame g σ he mode adopt).1,
      hs.ontology]
  · intro id
    rw [slot_applyInner g' σ' he mode adopt, slot_applyInner g σ he mode adopt, events_eq,
      events_eq, hs.slots, hs.ontology, hs.ownEventsEq, hs.withNodeEvents, eventsAt_append,
      eventsAt_append, Slot.play_append, Slot.play_append]
    have hflat : ((g.retried σ mode e).filter fun p => keep p.hash).flatMap
        ((g.withNode e).edgeEvents .full) =
        (g.retried σ mode e).flatMap ((g.withNode e).edgeEvents .full) :=
      flatMap_filter_of_nil hno
    have hperm := ((hs.retried_perm σ σ' mode e).flatMap_right
      ((g.withNode e).edgeEvents .full)).filterMap fun ev => if ev.1 = id then some ev.2 else none
    rw [hflat] at hperm
    refine (play_perm g.ontology id _ hperm.symm ?_).symm
    refine List.Pairwise.filterMap _ (fun a b hab ev hev ev' hev' => ?_) hagree.agree
    simp only [Option.ite_none_right_eq_some, Option.some.injEq] at hev hev'
    obtain ⟨rfl, rfl⟩ := hev
    obtain ⟨hid, rfl⟩ := hev'
    exact (hab hid.symm).mono fun h => isSome_edge_play _ h
  · intro h p
    rw [getElem?_pending_applyInner g' σ' he mode adopt,
      getElem?_pending_applyInner g σ he mode adopt, hs.holdsEq]
    by_cases hkh : keep h = true
    · have hex := hret (fun _ => True) h hkh
      simp only [and_true] at hex
      simp only [hex, hkh, true_and]
      split
      · rfl
      · split
        · rfl
        · rw [hs.pending, hkh, eq_self, true_and]
    · have hall : ¬ ∃ q ∈ g'.retried σ' mode e, q.hash = h := fun ⟨q, hq, heq⟩ =>
        hkh (heq ▸ ((hs.mem_retried σ σ' mode e).mp hq).1)
      have hnh : ¬ (e.hash = h ∧ g.holds e.payload = true) := fun ⟨heq, hh⟩ => by
        obtain hke | hacc := hk
        · exact hkh (heq ▸ hke)
        · rw [accepts_of_holds hh] at hacc
          cases hacc
      rw [if_neg hall, if_neg hnh, hs.pending]
      simp [hkh]
  · intro h
    rw [mem_quarantined_applyInner hs.heldShadow σ' he mode adopt,
      mem_quarantined_applyInner hs.held σ he mode adopt, hs.acceptsEq, hs.withNodeEvents]
    by_cases hkh : keep h = true
    · have hall : (∀ p ∈ g'.retried σ' mode e, p.hash ≠ h) ↔ ∀ p ∈ g.retried σ mode e, p.hash ≠ h := by
        have hex := hret (fun _ => True) h hkh
        simp only [and_true] at hex
        simpa using not_congr hex
      rw [hret _ h hkh, hall, hkh, eq_self, true_and]
      refine or_congr_right (and_congr_right fun _ => ?_)
      split
      · rfl
      · rw [hs.quarantined, hkh, eq_self, true_and]
    · refine iff_of_false ?_ fun hin => hkh hin.1
      rintro (⟨p, hp, heq, -⟩ | ⟨-, hin⟩)
      · exact hkh (heq ▸ ((hs.mem_retried σ σ' mode e).mp hp).1)
      · split at hin <;> rename_i hh
        · obtain hke | hacc := hk
          · exact hkh (hh.1 ▸ hke)
          · rw [hin] at hacc
            cases hacc
        · exact hkh ((hs.quarantined h).mp hin).1
  · exact hs.held.ordinary σ he mode adopt

/-- A refused entry that only the first graph takes. -/
theorem drop (σ : HashOrder) (he : e.Ordinary) (mode : ValidationMode) (adopt : Bool)
    (hk : keep e.hash = false) (hno : g.accepts mode e.payload = false) :
    Shadow keep (g.applyInner σ e mode adopt) g' := by
  have hret : g.retried σ mode e = [] := by
    refine List.eq_nil_iff_forall_not_mem.mpr fun p hp => ?_
    rw [(mem_retried_iff.mp hp).2.1] at hno
    cases hno
  constructor
  · rw [(applyInner_frame g σ he mode adopt).1, hs.ontology]
  · exact fun id => by rw [slot_of_refused g σ he hno adopt, hs.slots]
  · intro h p
    rw [getElem?_pending_applyInner g σ he mode adopt, hs.pending, hret]
    simp only [List.not_mem_nil, false_and, exists_false, if_false]
    refine and_congr_right fun hkh => ?_
    rw [if_neg]
    rintro ⟨rfl, -⟩
    rw [hk] at hkh
    cases hkh
  · intro h
    rw [mem_quarantined_applyInner hs.held σ he mode adopt, hs.quarantined, hret]
    simp only [List.not_mem_nil, false_and, exists_false, false_or, false_implies, implies_true,
      true_and]
    refine and_congr_right fun hkh => ?_
    rw [if_neg]
    rintro ⟨rfl, -⟩
    rw [hk] at hkh
    cases hkh
  · exact hs.held.ordinary σ he mode adopt

omit [Crates] in
theorem withOntology (ontology : Ontology) : Shadow keep { g with ontology } { g' with ontology } :=
  ⟨rfl, hs.slots, hs.pending, hs.quarantined, hs.held⟩

omit [Crates] in
theorem release (hash : Hash) : Shadow keep (g.release hash) (g'.release hash) := by
  refine ⟨hs.ontology, hs.slots, hs.pending, fun h => ?_, hs.held⟩
  rw [mem_release_iff, mem_release_iff, hs.quarantined]
  exact and_left_comm

theorem extension {x : OntologyExtension} (ha : g.accepts mode (.extendOntology x) = true)
    (e : Entry) : Shadow keep (g.extendOntologyArm e x) (g'.extendOntologyArm e x) := by
  rw [accepts] at ha
  rw [extendOntologyArm, extendOntologyArm, hs.ontology]
  split <;> rename_i o h
  · rw [h] at ha
    cases ha
  · exact (hs.withOntology o).release e.hash

/-- An operation of a checkpoint that is applied as it comes. -/
theorem plain {op : GraphOp} (σ σ' : HashOrder) (hkeep : ∀ h, ¬ listed h → keep h = true)
    (hp : e.payload = op) (hc : op.isCheckpoint = false) (hx : op.isExtendOntology = false)
    (h : OpWhole listed σ mode adopt e op g)
    (hfuture : ∀ h, listed h → h ∈ g.pendingEdges → Absent h (applyPayload σ mode adopt e op g) →
      keep h = true) :
    Shadow keep (applyPayload σ mode adopt e op g) (applyPayload σ' mode adopt e op g') := by
  subst hp
  obtain ⟨hacc, hret⟩ := (opWhole_iff hc).mp h
  refine hs.ordinary σ σ' ⟨hx, hc⟩ mode adopt ?_ hret fun k hk ha => ?_
  · exact hacc.symm.imp_left fun hh => hkeep _ hh.2
  · by_cases hl : listed k
    · exact hfuture k hl hk ha
    · exact hkeep k hl

end Shadow

variable {keep : Hash → Bool}

mutual

/-- The operations of a checkpoint keep the two side by side. -/
theorem applyPayload_shadow (hkeep : ∀ h, ¬ listed h → keep h = true) (σ σ' : HashOrder)
    (mode : ValidationMode) (adopt : Bool) (e : Entry) :
    ∀ (op : GraphOp) (g g' : MaterializedGraph), Shadow keep g g' → e.payload = op →
      OpWhole listed σ mode adopt e op g →
      (∀ h, listed h → h ∈ g.pendingEdges → Absent h (applyPayload σ mode adopt e op g) →
        keep h = true) →
      Shadow keep (applyPayload σ mode adopt e op g) (applyPayload σ' mode adopt e op g')
  | .checkpoint ops opClocks _ _, g, g', hs, _, h, hf => by
    rw [OpWhole] at h
    rw [applyPayload] at hf
    rw [applyPayload, applyPayload]
    have htidy := applyOps_tidy σ adopt e opClocks ops 0 g h
    refine (applyOps_shadow hkeep σ σ' adopt e opClocks ops 0 g g' hs h fun k hl hk ha =>
      ?_).release e.hash
    exact hf k hl hk ((Tidy.release listed listed _ e.hash).absent k hl (htidy.held hs.held) ha)
  | .extendOntology x, g, g', hs, _, h, _ => by
    rw [applyPayload, applyPayload]
    exact hs.extension (accepts_extension h) e
  | .defineOntology _, _, _, hs, hp, h, hf => hs.plain σ σ' hkeep hp rfl rfl h hf
  | .defineLens _, _, _, hs, hp, h, hf => hs.plain σ σ' hkeep hp rfl rfl h hf
  | .addNode .., _, _, hs, hp, h, hf => hs.plain σ σ' hkeep hp rfl rfl h hf
  | .addEdge .., _, _, hs, hp, h, hf => hs.plain σ σ' hkeep hp rfl rfl h hf
  | .updateProperty .., _, _, hs, hp, h, hf => hs.plain σ σ' hkeep hp rfl rfl h hf
  | .removeNode _, _, _, hs, hp, h, hf => hs.plain σ σ' hkeep hp rfl rfl h hf
  | .removeEdge _, _, _, hs, hp, h, hf => hs.plain σ σ' hkeep hp rfl rfl h hf

theorem applyOps_shadow (hkeep : ∀ h, ¬ listed h → keep h = true) (σ σ' : HashOrder)
    (adopt : Bool) (e : Entry) (opClocks : List (ℕ × ℕ)) :
    ∀ (ops : List GraphOp) (i : ℕ) (g g' : MaterializedGraph), Shadow keep g g' →
      OpsWhole listed σ adopt e opClocks ops i g →
      (∀ h, listed h → h ∈ g.pendingEdges → Absent h (applyOps σ adopt e opClocks ops i g) →
        keep h = true) →
      Shadow keep (applyOps σ adopt e opClocks ops i g) (applyOps σ' adopt e opClocks ops i g')
  | [], i, g, g', hs, _, _ => by
    rw [applyOps, applyOps]
    exact hs
  | op :: ops, i, g, g', hs, h, hf => by
    have hrest := applyOps_shadow hkeep σ σ' adopt e opClocks ops (i + 1)
    have hop := applyPayload_shadow hkeep σ σ' .skipRequired true
      (Entry.new op [] [] (opClock e opClocks i) e.author) op g g' hs rfl
    cases op with
    | defineOntology carried =>
      rw [OpsWhole] at h
      rw [applyOps] at hf
      rw [applyOps, applyOps]
      cases adopt with
      | false => exact hrest _ _ hs h hf
      | true => exact hrest _ _ (hs.withOntology carried) h hf
    | _ =>
      rw [OpsWhole] at h
      · rw [applyOps] at hf
        · -- what is absent after this operation is so after those that follow
          have hone := applyPayload_tidy σ .skipRequired true
            (Entry.new _ [] [] (opClock e opClocks i) e.author) _ g rfl h.1
          have hmore := applyOps_tidy σ adopt e opClocks ops (i + 1) _ h.2
          rw [applyOps, applyOps]
          · refine hrest _ _ (hop h.1 fun k hl hk ha => ?_) h.2 fun k hl hk =>
              hf k hl (hone.pending k hl hk)
            exact hf k hl hk (hmore.absent k hl (hone.held hs.held) ha)
          all_goals exact fun _ h => by cases h
        all_goals exact fun _ h => by cases h
      all_goals exact fun _ h => by cases h

end

/-! ### The second pass -/

omit [Crates] in
/-- An entry is a checkpoint, an extension, or applied as it comes. -/
theorem entry_cases (e : Entry) : (∃ ops opClocks lc ft, e.payload = .checkpoint ops opClocks lc ft) ∨
    e.payload.isExtendOntology = true ∨ e.Ordinary := by
  cases hp : e.payload
  case checkpoint => exact .inl ⟨_, _, _, _, rfl⟩
  case extendOntology => exact .inr (.inl rfl)
  all_goals exact .inr (.inr ⟨by rw [hp]; rfl, by rw [hp]; rfl⟩)

theorem materialize_of_extension (σ : HashOrder) (g : MaterializedGraph)
    (hx : e.payload.isExtendOntology = true) : materialize σ g e = g := by
  rw [materialize, if_pos hx]

theorem materialize_of_ordinary (σ : HashOrder) (g : MaterializedGraph) (he : e.Ordinary) :
    materialize σ g e = g.applyInner σ e .full false := by
  rw [materialize, if_neg (by simp [he.notExtension])]

theorem materialize_of_checkpoint (σ : HashOrder) (g : MaterializedGraph) {ops : List GraphOp}
    {opClocks : List (ℕ × ℕ)} {lc ft : ℕ} (hp : e.payload = .checkpoint ops opClocks lc ft) :
    materialize σ g e = (applyOps σ false e opClocks ops 0 g).release e.hash := by
  rw [materialize, applyInner, hp, applyPayload]
  rfl

theorem EntryWhole.ordinary (he : e.Ordinary) (hw : EntryWhole listed σ g e) :
    RetriesWhole listed g σ .full e := by
  obtain ⟨hext, hchk⟩ := he
  rw [EntryWhole] at hw
  split at hw <;> rename_i hp
  · simp [hp, GraphOp.isCheckpoint] at hchk
  · simp [hp, GraphOp.isExtendOntology] at hext
  · exact hw

theorem EntryWhole.checkpoint {ops : List GraphOp} {opClocks : List (ℕ × ℕ)} {lc ft : ℕ}
    (hp : e.payload = .checkpoint ops opClocks lc ft) (hw : EntryWhole listed σ g e) :
    OpsWhole listed σ false e opClocks ops 0 g := by
  rwa [EntryWhole, hp] at hw

/-- The hashes that an entry of the list does not judge: all but its own, and its own if it
is an extension, as these are judged in the first pass. -/
def Calm (listed : Hash → Prop) (e : Entry) (h : Hash) : Prop :=
  listed h ∧ (e.hash = h → e.payload.isExtendOntology = true)

/-- One entry of the list in the second pass. -/
theorem materialize_tidy (hl : listed e.hash) (hw : EntryWhole listed σ g e) :
    Tidy listed (Calm listed e) g (materialize σ g e) := by
  obtain ⟨ops, opClocks, lc, ft, hp⟩ | hx | he := entry_cases e
  · rw [materialize_of_checkpoint σ g hp]
    exact ((applyOps_tidy σ false e opClocks ops 0 g (hw.checkpoint hp)).trans
      (.release listed listed _ e.hash)).mono fun k hk => hk.1
  · rw [materialize_of_extension σ g hx]
    exact .refl _ _ g
  · rw [materialize_of_ordinary σ g he]
    refine .ordinary he (hw.ordinary he) (fun hc => ?_) (.inr (.inr hl)) false
    have hx := hc.2 rfl
    rw [he.notExtension] at hx
    cases hx

/-- The entries of the list in the second pass. -/
theorem replay_tidy (hl : ∀ e ∈ es, listed e.hash) (hw : ReplayWhole listed σ g es) :
    Tidy listed (fun h => listed h ∧ ∀ e ∈ es, e.hash = h → e.payload.isExtendOntology = true) g
      (es.foldl (materialize σ) g) := by
  induction es generalizing g with
  | nil => exact .refl _ _ g
  | cons e es ih =>
    have hone := materialize_tidy (hl e List.mem_cons_self) hw.1
    have hrest := ih (fun a ha => hl a (List.mem_cons_of_mem _ ha)) hw.2
    exact (hone.mono fun k hk => ⟨hk.1, hk.2 e List.mem_cons_self⟩).trans
      (hrest.mono fun k hk => ⟨hk.1, fun a ha => hk.2 a (List.mem_cons_of_mem _ ha)⟩)

/-- In the end the records are of listed hashes. -/
theorem listed_of_quarantined (hg : g.HeldByHash) (hx : Excused listed g)
    (hl : ∀ e ∈ es, listed e.hash) (hw : ReplayWhole listed σ g es)
    (hq : h ∈ (es.foldl (materialize σ) g).quarantined) : listed h := by
  have hlast : ∀ h ∈ (es.foldl (materialize σ) g).pendingEdges, listed h := by
    clear hg hx hq
    induction es generalizing g with
    | nil => exact hw
    | cons e es ih => exact ih (fun a ha => hl a (List.mem_cons_of_mem _ ha)) hw.2
  exact ((replay_tidy hl hw).excused hg hx h hq).elim id (hlast h)

/-- A checkpoint is absent after it is applied. -/
theorem absent_of_checkpoint {ops : List GraphOp} {opClocks : List (ℕ × ℕ)} {lc ft : ℕ}
    (hp : e.payload = .checkpoint ops opClocks lc ft) (hl : listed e.hash)
    (hw : EntryWhole listed σ g e) (hh : e.hash ∉ g.pendingEdges) :
    Absent e.hash (materialize σ g e) := by
  rw [materialize_of_checkpoint σ g hp]
  exact ⟨not_mem_release _ _, fun hin =>
    hh ((applyOps_tidy σ false e opClocks ops 0 g (hw.checkpoint hp)).pending _ hl hin)⟩

/-- The list has its hashes once, and none of them is held yet. -/
structure Fresh (g : MaterializedGraph) (es : List Entry) : Prop where
  nodup : (es.map Entry.hash).Nodup
  free : ∀ e ∈ es, e.hash ∉ g.pendingEdges

theorem Fresh.tail (hf : Fresh g (e :: es)) (hl : ∀ a ∈ e :: es, listed a.hash)
    (hw : EntryWhole listed σ g e) : Fresh (materialize σ g e) es := by
  obtain ⟨hne, hnd⟩ := List.nodup_cons.mp hf.nodup
  refine ⟨hnd, fun a ha hin => hf.free a (List.mem_cons_of_mem _ ha) ?_⟩
  refine (materialize_tidy (hl e List.mem_cons_self) hw).pending _
    ⟨hl a (List.mem_cons_of_mem _ ha), fun heq => ?_⟩ hin
  exact absurd (List.mem_map.mpr ⟨a, ha, heq.symm⟩) hne

/-- What is absent once its entry has been applied is so in the end. -/
theorem Fresh.absent (hf : Fresh g (e :: es)) (hg : g.HeldByHash)
    (hl : ∀ a ∈ e :: es, listed a.hash) (hw : ReplayWhole listed σ g (e :: es))
    (ha : Absent e.hash (materialize σ g e)) :
    Absent e.hash ((e :: es).foldl (materialize σ) g) := by
  obtain ⟨hne, -⟩ := List.nodup_cons.mp hf.nodup
  refine (replay_tidy (fun a ha => hl a (List.mem_cons_of_mem _ ha)) hw.2).absent _
    ⟨hl e List.mem_cons_self, fun a ha heq => ?_⟩
    ((materialize_tidy (hl e List.mem_cons_self) hw.1).held hg) ha
  exact absurd (List.mem_map.mpr ⟨a, ha, heq⟩) hne

/-- So the checkpoints of a list are absent in the end. -/
theorem absent_checkpoint (hf : Fresh g es) (hg : g.HeldByHash) (hl : ∀ a ∈ es, listed a.hash)
    (hw : ReplayWhole listed σ g es) (he : e ∈ es) (hc : e.payload.isCheckpoint = true) :
    Absent e.hash (es.foldl (materialize σ) g) := by
  induction es generalizing g with
  | nil => cases he
  | cons a es ih =>
    obtain rfl | hin := List.mem_cons.mp he
    · cases hp : e.payload
      case checkpoint =>
        exact hf.absent hg hl hw (absent_of_checkpoint hp (hl e List.mem_cons_self) hw.1
          (hf.free e List.mem_cons_self))
      all_goals
        rw [hp] at hc
        cases hc
    · exact ih (hf.tail hl hw.1) ((materialize_tidy (hl a List.mem_cons_self) hw.1).held hg)
        (fun b hb => hl b (List.mem_cons_of_mem _ hb)) hw.2 hin

/-- **The second pass**, side by side. -/
theorem replay_shadow (hs : Shadow keep g g') (σ σ' : HashOrder)
    (hkeep : ∀ h, ¬ listed h → keep h = true) (hf : Fresh g es) (hl : ∀ a ∈ es, listed a.hash)
    (hw : ReplayWhole listed σ g es)
    (hfuture : ∀ h, Absent h (es.foldl (materialize σ) g) → keep h = true) :
    Shadow keep (es.foldl (materialize σ) g)
      ((es.filter fun e => keep e.hash).foldl (materialize σ') g') := by
  induction es generalizing g g' with
  | nil => exact hs
  | cons e es ih =>
    have htidy := materialize_tidy (hl e List.mem_cons_self) hw.1
    have hl' : ∀ a ∈ es, listed a.hash := fun a ha => hl a (List.mem_cons_of_mem _ ha)
    have hf' := hf.tail hl hw.1
    -- an edge held before this entry is not an entry that follows
    have hheld : ∀ h, h ∈ g.pendingEdges → Absent h (materialize σ g e) → keep h = true :=
      fun h hh ha => by
        by_cases hlh : listed h
        · refine hfuture h ((replay_tidy hl' hw.2).absent h ⟨hlh, fun a ha heq => ?_⟩
            (htidy.held hs.held) ha)
          exact absurd hh (heq ▸ hf.free a (List.mem_cons_of_mem _ ha))
        · exact hkeep h hlh
    have hstep : Shadow keep (materialize σ g e) (if keep e.hash then materialize σ' g' e else g') := by
      obtain ⟨ops, opClocks, lc, ft, hp⟩ | hx | he := entry_cases e
      · have hk : keep e.hash = true := hfuture _ (hf.absent hs.held hl hw
          (absent_of_checkpoint hp (hl e List.mem_cons_self) hw.1 (hf.free e List.mem_cons_self)))
        rw [if_pos hk, materialize_of_checkpoint σ g hp, materialize_of_checkpoint σ' g' hp]
        have hops := hw.1.checkpoint hp
        refine (applyOps_shadow hkeep σ σ' false e opClocks ops 0 g g' hs hops
          fun h hlh hh ha => hheld h hh ?_).release e.hash
        rw [materialize_of_checkpoint σ g hp]
        exact (Tidy.release listed listed _ e.hash).absent h hlh
          ((applyOps_tidy σ false e opClocks ops 0 g hops).held hs.held) ha
      · rw [materialize_of_extension σ g hx, materialize_of_extension σ' g' hx, ite_self]
        exact hs
      · rw [materialize_of_ordinary σ g he] at hheld ⊢
        rw [materialize_of_ordinary σ' g' he]
        cases hk : keep e.hash with
        | true => exact hs.ordinary σ σ' he .full false (.inl hk) (hw.1.ordinary he) hheld
        | false =>
          cases hacc : g.accepts .full e.payload with
          | false => exact hs.drop σ he .full false hk hacc
          | true =>
            cases hj : isJudged e.payload with
            | false =>
              -- definitions do nothing
              have hsame : g.applyInner σ e .full false = g := by
                rw [applyInner]
                cases hp : e.payload <;> first | rfl | (rw [hp] at hj; cases hj)
              rw [hsame]
              exact hs
            | true =>
              have habs := absent_of_accepts hs.held σ he (hf.free e List.mem_cons_self) hj hacc false
              rw [← materialize_of_ordinary σ g he] at habs
              rw [hfuture _ (hf.absent hs.held hl hw habs)] at hk
              cases hk
    rw [List.foldl_cons]
    have hrest := ih hstep hf' hl' hw.2 hfuture
    cases hk : keep e.hash with
    | true =>
      rw [hk, if_pos rfl] at hrest
      simp only [List.filter_cons, hk, if_true, List.foldl_cons]
      exact hrest
    | false =>
      rw [hk, if_neg (by simp)] at hrest
      simp only [List.filter_cons, hk, Bool.false_eq_true, if_false]
      exact hrest

/-! ### The first pass -/

theorem foldOntology_frame (g : MaterializedGraph) (e : Entry) :
    (g.foldOntology e).pendingEdges = g.pendingEdges ∧
      ∀ h ∈ (g.foldOntology e).quarantined, e.hash = h ∨ h ∈ g.quarantined := by
  rw [foldOntology]
  split
  · split
    · refine ⟨rfl, fun h hq => ?_⟩
      rw [mem_quarantine_iff] at hq
      exact hq
    · exact ⟨rfl, fun h hq => .inr hq⟩
  · exact ⟨rfl, fun h hq => .inr hq⟩
  · exact ⟨rfl, fun h hq => .inr hq⟩

theorem foldl_foldOntology_frame (es : List Entry) (g : MaterializedGraph) :
    (es.foldl foldOntology g).pendingEdges = g.pendingEdges ∧
      ∀ h ∈ (es.foldl foldOntology g).quarantined, (∃ e ∈ es, e.hash = h) ∨ h ∈ g.quarantined := by
  induction es generalizing g with
  | nil => exact ⟨rfl, fun h hq => .inr hq⟩
  | cons e es ih =>
    obtain ⟨hp, hq⟩ := foldOntology_frame g e
    obtain ⟨hps, hqs⟩ := ih (g.foldOntology e)
    refine ⟨hps.trans hp, fun h hh => ?_⟩
    obtain ⟨a, ha, rfl⟩ | hh := hqs h hh
    · exact .inl ⟨a, List.mem_cons_of_mem _ ha, rfl⟩
    · exact (hq h hh).imp_left fun heq => ⟨e, List.mem_cons_self, heq⟩

/-- One entry in the first pass: an entry that changes the ontology is taken by both. -/
theorem Shadow.foldOntology (hs : Shadow keep g g')
    (hext : ∀ x, e.payload = .extendOntology x →
      (g.ontology.mergeExtension x).1.isOk ∨ (g.ontology.mergeExtension x).2 = g.ontology)
    (hk : e.isSchema = true → e.hash ∉ (g.foldOntology e).quarantined → keep e.hash = true)
    (hfree : e.hash ∉ g.quarantined) :
    Shadow keep (g.foldOntology e) (if keep e.hash then g'.foldOntology e else g') := by
  rw [Entry.isSchema] at hk
  cases hp : e.payload
  case extendOntology x =>
    have hext := hext x hp
    simp only [MaterializedGraph.foldOntology, hp, GraphOp.isExtendOntology, Bool.true_or,
      true_implies, hs.ontology] at hk ⊢
    cases hm : g.ontology.mergeExtension x with | mk r o
    cases r with
    | ok u =>
      rw [hm] at hk
      rw [if_pos (hk hfree)]
      exact hs.withOntology o
    | error err =>
      rw [hm] at hext
      obtain rfl := hext.resolve_left (by rintro ⟨⟩)
      -- a refused extension leaves its record, in the second graph if it is kept
      refine ⟨?_, fun id => ?_, fun h p => ?_, fun h => ?_, hs.held⟩
      · split
        · rfl
        · exact hs.ontology
      · split <;> exact hs.slots id
      · split <;> exact hs.pending h p
      · rw [mem_quarantine_iff]
        split <;> rename_i hke
        · rw [mem_quarantine_iff]
          have hq := hs.quarantined h
          change _ ∨ h ∈ g'.quarantined ↔ _ ∧ (_ ∨ h ∈ g.quarantined)
          grind
        · have hq := hs.quarantined h
          change h ∈ g'.quarantined ↔ _ ∧ (_ ∨ h ∈ g.quarantined)
          grind
  case checkpoint ops opClocks lc ft =>
    simp only [MaterializedGraph.foldOntology, hp, GraphOp.isCheckpoint, Bool.or_true,
      true_implies] at hk ⊢
    rw [if_pos (hk hfree), hs.ontology]
    exact hs.withOntology _
  all_goals
    simp only [MaterializedGraph.foldOntology, hp, ite_self]
    exact hs

/-- **The first pass**, side by side. -/
theorem declare_shadow (hs : Shadow keep g g') (hnd : (es.map Entry.hash).Nodup)
    (hfree : ∀ e ∈ es, e.hash ∉ g.quarantined) (hext : ExtensionsWhole g.ontology es)
    (hk : ∀ e ∈ es, e.isSchema = true → e.hash ∉ (es.foldl foldOntology g).quarantined →
      keep e.hash = true) :
    Shadow keep (es.foldl foldOntology g)
      ((es.filter fun e => keep e.hash).foldl foldOntology g') := by
  induction es generalizing g g' with
  | nil => exact hs
  | cons e es ih =>
    obtain ⟨hne, hnd⟩ := List.nodup_cons.mp hnd
    have hother : ∀ a ∈ es, a.hash ≠ e.hash := fun a ha heq =>
      hne (List.mem_map.mpr ⟨a, ha, heq⟩)
    obtain ⟨-, hrec⟩ := foldOntology_frame g e
    -- its own record does not change any more after an entry
    have hstay : e.hash ∉ (g.foldOntology e).quarantined →
        e.hash ∉ ((e :: es).foldl foldOntology g).quarantined := fun hno hin =>
      ((foldl_foldOntology_frame es _).2 _ hin).elim (fun ⟨a, ha, heq⟩ => hother a ha heq) hno
    have hstep := hs.foldOntology hext.1
      (fun hsc hno => hk e List.mem_cons_self hsc (hstay hno)) (hfree e List.mem_cons_self)
    have hrest := ih hstep hnd
      (fun a ha hin => (hrec _ hin).elim (fun heq => hother a ha heq.symm)
        (hfree a (List.mem_cons_of_mem _ ha)))
      (by
        rw [(foldOntology_schema g e).1]
        exact hext.2)
      fun a ha => hk a (List.mem_cons_of_mem _ ha)
    cases hke : keep e.hash with
    | true =>
      rw [hke, if_pos rfl] at hrest
      simp only [List.filter_cons, hke, if_true, List.foldl_cons]
      exact hrest
    | false =>
      rw [hke, if_neg (by simp)] at hrest
      simp only [List.filter_cons, hke, Bool.false_eq_true, if_false, List.foldl_cons]
      exact hrest

/-! ### Quarantined entries have no effect -/

/-- A list of entries without those its rebuild quarantines. -/
def withoutQuarantined (σ : HashOrder) (base : Ontology) (es : List Entry) : List Entry :=
  es.filter fun e => !((new base).rebuild σ es).quarantined.contains e.hash

/-- What a rebuild quarantines has no effect on it. -/
structure QuarantineInert (σ σ' : HashOrder) (base : Ontology) (es : List Entry) : Prop where
  ontology : ((new base).rebuild σ' (withoutQuarantined σ base es)).ontology =
    ((new base).rebuild σ es).ontology
  nodes : ((new base).rebuild σ' (withoutQuarantined σ base es)).nodes =
    ((new base).rebuild σ es).nodes
  edges : ((new base).rebuild σ' (withoutQuarantined σ base es)).edges =
    ((new base).rebuild σ es).edges
  quarantined : ((new base).rebuild σ' (withoutQuarantined σ base es)).quarantined = ∅

/-- The hashes of a list. -/
def ListedIn (es : List Entry) (h : Hash) : Prop := ∃ e ∈ es, e.hash = h

instance (es : List Entry) : DecidablePred (ListedIn es) := fun h =>
  inferInstanceAs (Decidable (∃ e ∈ es, e.hash = h))

/-- **Quarantined entries have no effect**, if every refused extension leaves the ontology as
it was, every operation inside a checkpoint is accepted, at once or when its endpoint
arrives, no entry comes twice, and edges that become complete at once do not compete. -/
theorem quarantined_inert (σ σ' : HashOrder) (base : Ontology) (es : List Entry)
    (once : (es.map Entry.hash).Nodup) (extensions : ExtensionsWhole base es)
    (replay : ReplayWhole (ListedIn es) σ (es.foldl foldOntology (new base)) es) :
    QuarantineInert σ σ' base es := by
  set keep : Hash → Bool := fun h => !((new base).rebuild σ es).quarantined.contains h with hkeep
  have hl : ∀ e ∈ es, ListedIn es e.hash := fun e he => ⟨e, he, rfl⟩
  obtain ⟨hpend, hrec⟩ := foldl_foldOntology_frame es (new base)
  have hempty : ∀ h, h ∉ (new base).quarantined := fun h => Std.ExtTreeMap.not_mem_empty
  have hnone : ∀ h : Hash, h ∉ (es.foldl foldOntology (new base)).pendingEdges := fun h => by
    rw [hpend]
    exact Std.ExtTreeMap.not_mem_empty
  have hheld : (es.foldl foldOntology (new base)).HeldByHash := fun h p hp =>
    absurd (HashMap.mem_iff_getElem?.mpr ⟨p, hp⟩) (hnone h)
  have hfresh : Fresh (es.foldl foldOntology (new base)) es := ⟨once, fun e _ => hnone e.hash⟩
  have hkept : ∀ h, keep h = true ↔ h ∉ ((new base).rebuild σ es).quarantined := fun h => by
    rw [← Std.ExtTreeMap.contains_iff_mem, hkeep, Bool.not_eq_true', Bool.not_eq_true]
  have hunlisted : ∀ h, ¬ ListedIn es h → keep h = true := fun h hh => (hkept h).mpr fun hq =>
    hh (listed_of_quarantined hheld (fun k hk => .inl ((hrec k hk).resolve_right (hempty k))) hl
      replay hq)
  have hfuture : ∀ h, Absent h (es.foldl (materialize σ) (es.foldl foldOntology (new base))) →
      keep h = true := fun h ha => (hkept h).mpr ha.1
  have hstart : Shadow keep (new base) (new base) := by
    refine ⟨rfl, fun _ => rfl, fun h p => ?_, fun h => ?_, fun h p hp => ?_⟩
    · simp [new]
    · simp [new]
    · simp [new] at hp
  have hfirst := declare_shadow hstart once (fun e _ => hempty e.hash) extensions
    fun e he hsc hno => hfuture e.hash <| by
      cases hc : e.payload.isCheckpoint with
      | true => exact absent_checkpoint hfresh hheld hl replay he hc
      | false =>
        have hx : e.payload.isExtendOntology = true := by
          rwa [Entry.isSchema, hc, Bool.or_false] at hsc
        refine (replay_tidy hl replay).absent _ ⟨hl e he, fun a ha heq => ?_⟩ hheld
          ⟨hno, hnone e.hash⟩
        rwa [List.inj_on_of_nodup_map once ha he heq]
  have hlast := replay_shadow hfirst σ σ' hunlisted hfresh hl replay hfuture
  refine ⟨hlast.ontology, ?_, ?_, ?_⟩
  · exact Std.ExtTreeMap.ext_getElem? fun {k} => congrArg Slot.node (hlast.slots k)
  · exact Std.ExtTreeMap.ext_getElem? fun {k} => congrArg Slot.edge (hlast.slots k)
  · refine Std.ExtTreeMap.eq_empty_iff_forall_not_mem.mpr fun h hq => ?_
    obtain ⟨hk, hin⟩ := (hlast.quarantined h).mp hq
    exact (hkept h).mp hk hin

end MaterializedGraph

namespace Sample

/-- Persons who may know each other. -/
def guests : Ontology where
  nodeTypes := (∅ : BTreeMap String NodeTypeDef).insert "person" { }
  edgeTypes := (∅ : BTreeMap String EdgeTypeDef).insert "knows"
    { sourceTypes := ["person"], targetTypes := ["person"] }

/-- An edge that comes before its target, and a node of no declared type. -/
def arrivals : List Entry :=
  [Entry.new (.addNode "ann" "person" none "Ann" ∅) [] [] ⟨"a", 1, 0⟩ "a",
    Entry.new (.addEdge "e" "knows" "ann" "bob" ∅) [] [] ⟨"a", 2, 0⟩ "a",
    Entry.new (.addNode "rex" "dog" none "Rex" ∅) [] [] ⟨"a", 3, 0⟩ "a",
    Entry.new (.addNode "bob" "person" none "Bob" ∅) [] [] ⟨"a", 4, 0⟩ "a"]

/-- An extension with a new node type and an update of an edge type that does not exist. -/
def halfway : OntologyExtension where
  nodeTypes := (∅ : BTreeMap String NodeTypeDef).insert "dog" { }
  edgeTypeUpdates := (∅ : BTreeMap String EdgeTypeUpdate).insert "owns" { addTargetTypes := ["dog"] }

end Sample

namespace MaterializedGraph

theorem pairwise_of_length_le_one {α : Type} {R : α → α → Prop} {l : List α} (h : l.length ≤ 1) :
    l.Pairwise R := by
  match l, h with
  | [], _ => exact .nil
  | [a], _ => exact List.pairwise_singleton R a

open Sample in
theorem quarantined_inert_arrivals : QuarantineInert .keyOrder .keyOrder guests arrivals := by
  have hnone : ∀ (σ : HashOrder) (g : MaterializedGraph) (e : Entry),
      (g.retried σ .full e).isEmpty = true → RetriesWhole (ListedIn arrivals) g σ .full e :=
    fun σ g e h => by
      rw [List.isEmpty_iff] at h
      exact ⟨by rw [h]; exact .nil, by rw [h]; exact fun p hp => by cases hp⟩
  refine quarantined_inert .keyOrder .keyOrder guests arrivals (by decide +kernel) ?_ ?_
  · refine ⟨?_, ?_, ?_, ?_, trivial⟩ <;> exact fun x hx => by cases hx
  · refine ⟨hnone _ _ _ (by decide +kernel), hnone _ _ _ (by decide +kernel),
      hnone _ _ _ (by decide +kernel), ⟨?_, ?_⟩, ?_⟩
    · exact pairwise_of_length_le_one (by decide +kernel)
    · intro p hp hl
      refine absurd ?_ hl
      revert p hp
      decide +kernel
    · intro h hin
      have hempty : ∀ kv ∈ (arrivals.foldl (materialize .keyOrder)
          (arrivals.foldl foldOntology (new guests))).pendingEdges.toList, ListedIn arrivals kv.1 := by
        decide +kernel
      obtain ⟨p, hp⟩ := HashMap.mem_iff_getElem?.mp hin
      exact hempty (h, p) (HashMap.mem_toList.mpr hp)

open Sample in
/-- The extension is refused, but its node type stays. -/
theorem not_quarantineInert_halfway : ¬ QuarantineInert .keyOrder .keyOrder guests
    [Entry.new (.extendOntology halfway) [] [] ⟨"a", 1, 0⟩ "a"] := by
  intro h
  have hsize := congrArg (fun o : Ontology => o.nodeTypes.size) h.ontology
  revert hsize
  decide +kernel

open Sample in
/-- A node inside a checkpoint is refused, and its record is under no entry's hash. -/
example : ¬ QuarantineInert .keyOrder .keyOrder guests
    [Entry.new (.checkpoint [.addNode "rex" "dog" none "Rex" ∅] [(1, 0)] 1 0) [] [] ⟨"a", 2, 0⟩
      "a"] := by
  intro h
  have hsize := congrArg (fun q : HashMap Hash QuarantineRecord => q.size) h.quarantined
  revert hsize
  decide +kernel

end MaterializedGraph

end SilkGraph
