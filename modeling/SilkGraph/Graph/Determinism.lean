import Mathlib.Data.List.Rotate
import SilkGraph.Graph.Inert
import SilkGraph.Graph.Resolved

/-!
# Does a rebuild depend on the iteration order?

`retry_pending_edges` collects the held edges that have become complete by walking a hash
map, and applies them in that order. It is the only place where a rebuild depends on the
order of a hash map, so two rebuilds of a list end alike if the edges completed at once
commute, at every action of the replay.

Two of them under different identifiers do. Under one identifier the first creates the edge
and the others merge into it: type and endpoints are those of the first, for good. So for
edges whose clocks tell them apart the rebuilds end alike only if those completed at once
under one identifier agree on type and endpoints (`rebuild_deterministic`). For this an
order is made that begins with a given edge: the walk of the key order, turned.
-/

namespace SilkGraph

/-- The walk in key order, turned so that it begins with the `i`-th element. -/
def HashOrder.turned (i : ℕ) : HashOrder := ⟨fun l => l.rotate i, fun l => l.rotate_perm i⟩

section

variable [Crates]

namespace MaterializedGraph

variable {g g' : MaterializedGraph} {σ σ' σ₀ : HashOrder} {e x : Entry} {mode : ValidationMode}
  {id : String}

/-- Two graphs have the same nodes, edges and quarantined hashes. -/
structure SameOutcome (g g' : MaterializedGraph) : Prop where
  nodes : g.nodes = g'.nodes
  edges : g.edges = g'.edges
  quarantined : ∀ h, h ∈ g.quarantined ↔ h ∈ g'.quarantined

/-- The edges that an entry completes, those that are accepted, in the order they come. -/
def completed (self : MaterializedGraph) (σ : HashOrder) (mode : ValidationMode) (e : Entry) :
    List (String × Event) :=
  (self.retried σ mode e).flatMap ((self.withNode e).edgeEvents .full)

end MaterializedGraph

/-- Two edge events can be told apart: by their clocks, or there is no difference. -/
def Event.Told : Event → Event → Prop
  | .addEdge _ _ _ ps c, .addEdge _ _ _ ps' c' => c = c' → ps = ps'
  | _, _ => True

namespace Action

open MaterializedGraph

/-- The edges an action completes. -/
def completed (σ : HashOrder) (g : MaterializedGraph) : Action → List (String × Event)
  | .entry e => g.completed σ .full e
  | .op x => g.completed σ .skipRequired x
  | _ => []

/-- The edges completed at once under one identifier can be told apart. -/
def Told (σ : HashOrder) (g : MaterializedGraph) (a : Action) : Prop :=
  ∀ u ∈ a.completed σ g, ∀ v ∈ a.completed σ g, u.1 = v.1 → u.2.Told v.2

/-- Besides, the edge is there already or they agree on what it is. -/
def Agrees (σ : HashOrder) (g : MaterializedGraph) (a : Action) : Prop :=
  ∀ u ∈ a.completed σ g, ∀ v ∈ a.completed σ g, u.1 = v.1 →
    EdgesCommute (g.edges[u.1]?).isSome u.2 v.2

end Action

/-- A condition on every action of a replay. -/
def AllAlong (P : MaterializedGraph → Action → Prop) (σ : HashOrder) :
    MaterializedGraph → List Action → Prop
  | _, [] => True
  | g, a :: as => P g a ∧ AllAlong P σ (a.run σ g) as

theorem AllAlong.mono {P Q : MaterializedGraph → Action → Prop} (hpq : ∀ g a, P g a → Q g a)
    {σ : HashOrder} {g : MaterializedGraph} {as : List Action} (h : AllAlong P σ g as) :
    AllAlong Q σ g as := by
  induction as generalizing g with
  | nil => trivial
  | cons a as ih => exact ⟨hpq g a h.1, ih h.2⟩

namespace MaterializedGraph

variable {g g' : MaterializedGraph} {σ σ' σ₀ : HashOrder} {e x : Entry} {mode : ValidationMode}
  {id : String} {a : Action} {as : List Action}

/-! ### Side by side under two orders -/

/-- The two graphs differ in nothing the orders could show. -/
abbrev Alike (g g' : MaterializedGraph) : Prop := Shadow (fun _ => true) g g'

omit [Crates] in
theorem Alike.refl (hg : g.HeldByHash) : Alike g g :=
  ⟨rfl, fun _ => rfl, fun _ _ => by simp, fun _ => by simp, hg⟩

omit [Crates] in
theorem Alike.outcome (h : Alike g g') : SameOutcome g g' := by
  refine ⟨?_, ?_, fun k => by simp [h.quarantined k]⟩
  · exact Std.ExtTreeMap.ext_getElem? fun {k} => congrArg Slot.node (h.slots k).symm
  · exact Std.ExtTreeMap.ext_getElem? fun {k} => congrArg Slot.edge (h.slots k).symm

omit [Crates] in
theorem Alike.pendingEdges (h : Alike g g') : g'.pendingEdges = g.pendingEdges :=
  Std.ExtTreeMap.ext_getElem? fun {k} => Option.ext fun p => by simp [h.pending k p]

/-- A refused extension is refused in both. -/
theorem Alike.extension (h : Alike g g') (e : Entry) (x : OntologyExtension) :
    Alike (g.extendOntologyArm e x) (g'.extendOntologyArm e x) := by
  rw [extendOntologyArm, extendOntologyArm, h.ontology]
  split
  · rename_i o _
    have ho : Alike { g with ontology := o } { g' with ontology := o } := h.withOntology o
    refine ⟨rfl, h.slots, h.pending, fun k => ?_, h.held⟩
    rw [mem_quarantine_iff, mem_quarantine_iff, ho.quarantined]
    simp
  · exact (h.withOntology _).release e.hash

theorem Alike.ordinary (h : Alike g g') (σ σ' : HashOrder) (he : e.Ordinary) (mode : ValidationMode)
    (hagree : ∀ u ∈ g.completed σ mode e, ∀ v ∈ g.completed σ mode e, u.1 = v.1 →
      EdgesCommute (g.edges[u.1]?).isSome u.2 v.2) :
    Alike (g.applyInner σ e mode true) (g'.applyInner σ' e mode true) := by
  have hretries : RetriesWhole (fun _ => True) g σ mode e :=
    ⟨List.pairwise_of_forall_mem_list hagree, fun _ _ hno => absurd trivial hno⟩
  exact Shadow.ordinary h σ σ' he mode true (.inl rfl) hretries fun _ _ _ => rfl

/-- **Step.** An action whose completed edges agree does the same under both orders. -/
theorem Alike.run (h : Alike g g') (σ σ' : HashOrder) (hplain : a.Plain) (hagree : a.Agrees σ g) :
    Alike (a.run σ g) (a.run σ' g') := by
  have hentry : ∀ (y : Entry) (mode : ValidationMode), y.payload.isCheckpoint = false →
      (∀ u ∈ g.completed σ mode y, ∀ v ∈ g.completed σ mode y, u.1 = v.1 →
        EdgesCommute (g.edges[u.1]?).isSome u.2 v.2) →
      Alike (g.applyInner σ y mode true) (g'.applyInner σ' y mode true) := by
    intro y mode hy hag
    obtain he | ⟨extension, hp⟩ := ordinary_or_extension hy
    · exact h.ordinary σ σ' he mode hag
    · rw [applyInner_of_extend hp, applyInner_of_extend hp]
      exact h.extension y extension
  cases a with
  | entry e => exact hentry e .full hplain hagree
  | op x => exact hentry x .skipRequired hplain hagree
  | adopt ontology => exact h.withOntology ontology
  | release hash => exact h.release hash

/-- **Run.** So does a replay. -/
theorem Alike.foldl (h : Alike g g') (σ σ' : HashOrder) (hplain : ∀ a ∈ as, a.Plain)
    (hagree : AllAlong (fun g a => a.Agrees σ g) σ g as) :
    Alike (as.foldl (Action.run σ) g) (as.foldl (Action.run σ') g') := by
  induction as generalizing g g' with
  | nil => exact h
  | cons a as ih =>
    exact ih (h.run σ σ' (hplain a List.mem_cons_self) hagree.1)
      (fun b hb => hplain b (List.mem_cons_of_mem a hb)) hagree.2

end MaterializedGraph

/-! ### What the first edge event decides -/

/-- The type and the endpoints of an edge. -/
def Edge.shape (self : Edge) : String × String × String := (self.edgeType, self.sourceId, self.targetId)

namespace Slot

variable {o : Ontology} {id : String} {sl : Slot} {d : String × String × String}

/-- No event changes the shape of an edge. -/
theorem shape_step (ev : Event) (h : sl.edge.map Edge.shape = some d) :
    (sl.step o id ev).edge.map Edge.shape = some d := by
  obtain ⟨ed, hed, rfl⟩ := Option.map_eq_some_iff.mp h
  cases ev with
  | addNode ty st lb ps c => exact h
  | addEdge ty src tgt ps c =>
    rw [step, hed]
    rfl
  | update k v c =>
    rw [step]
    split
    · split
      · exact h
      · rw [hed]
        rfl
    · exact h
  | removeNode c => exact h
  | removeEdge c =>
    rw [step, hed, Option.map_some, Option.map_some, Edge.remove]
    split <;> rfl

theorem shape_play (evs : List Event) (h : sl.edge.map Edge.shape = some d) :
    (sl.play o id evs).edge.map Edge.shape = some d := by
  induction evs generalizing sl with
  | nil => exact h
  | cons ev evs ih => exact ih (shape_step ev h)

/-- The first edge event under an identifier gives the edge its shape. -/
theorem shape_of_first {ty src tgt : String} {ps : BTreeMap String Value} {c : HybridClock}
    (evs : List Event) (h : sl.edge = none) :
    (sl.play o id (.addEdge ty src tgt ps c :: evs)).edge.map Edge.shape = some (ty, src, tgt) := by
  refine shape_play evs ?_
  rw [step, h]
  rfl

end Slot

namespace MaterializedGraph

variable {g g' : MaterializedGraph} {σ σ' σ₀ : HashOrder} {e x : Entry} {mode : ValidationMode}
  {id : String} {a : Action} {as : List Action} {d : String × String × String}

/-- The shape of the edge under an identifier. -/
def shapeOf (self : MaterializedGraph) (id : String) : Option (String × String × String) :=
  self.edges[id]?.map Edge.shape

theorem shapeOf_run (σ : HashOrder) (hplain : a.Plain) (h : g.shapeOf id = some d) :
    (a.run σ g).shapeOf id = some d := by
  have hentry : ∀ (y : Entry) (mode : ValidationMode), y.payload.isCheckpoint = false →
      (g.applyInner σ y mode true).shapeOf id = some d := by
    intro y mode hy
    change ((g.applyInner σ y mode true).slot id).edge.map Edge.shape = some d
    obtain he | ⟨extension, hp⟩ := ordinary_or_extension hy
    · rw [slot_applyInner g σ he mode true id]
      exact Slot.shape_play _ h
    · rw [slot_of_extend hp mode true id]
      exact h
  cases a with
  | entry e => exact hentry e .full hplain
  | op x => exact hentry x .skipRequired hplain
  | adopt ontology => exact h
  | release hash => exact h

theorem shapeOf_foldl (σ : HashOrder) (hplain : ∀ a ∈ as, a.Plain) (h : g.shapeOf id = some d) :
    (as.foldl (Action.run σ) g).shapeOf id = some d := by
  induction as generalizing g with
  | nil => exact h
  | cons a as ih =>
    exact ih (fun b hb => hplain b (List.mem_cons_of_mem a hb))
      (shapeOf_run σ (hplain a List.mem_cons_self) h)

/-- If an entry completes an edge, it walks all held edges for those that are complete. -/
theorem retried_of_mem (hx : x ∈ g.retried σ mode e) (σ' : HashOrder) : g.retried σ' mode e =
    ((σ'.walk g.pendingEdges.toList).map Prod.snd).filter fun p => (g.withNode e).isReady p := by
  obtain ⟨⟨id, ty, st, lb, ps, hp⟩, hacc, -, -⟩ := mem_retried_iff.mp hx
  rw [hp, accepts] at hacc
  rw [retried, withNode, hp]
  dsimp only
  rw [if_pos hacc, readyEdges, (applyAddNode_rest g id ty st lb ps e.clock).2]

/-- A completed edge can be the first to be retried, whatever made the graph. -/
theorem exists_turned (hx : x ∈ g.retried σ mode e) : ∃ i, ∀ g', Alike g g' →
    ∃ rest, g'.retried (.turned i) mode e = x :: rest := by
  obtain ⟨-, h, hh⟩ := ready_of_retried hx
  obtain ⟨front, back, hsplit⟩ := List.append_of_mem (HashMap.mem_toList.mpr hh)
  refine ⟨front.length, fun g' hg => ?_⟩
  have hx' : x ∈ g'.retried σ mode e := (hg.mem_retried σ σ mode e).mpr ⟨rfl, hx⟩
  have hwalk : (HashOrder.turned front.length).walk (front ++ (h, x) :: back) = (h, x) :: back ++ front :=
    List.rotate_append_length_eq ..
  rw [retried_of_mem hx', hg.pendingEdges, hsplit, hwalk, List.cons_append, List.map_cons,
    List.filter_cons_of_pos (ready_of_retried hx').1]
  exact ⟨_, rfl⟩

/-- An entry has one edge event at most. -/
theorem edgeEvents_of_mem {u : String × Event} (hu : u ∈ g.edgeEvents mode x) :
    g.edgeEvents mode x = [u] := by
  unfold edgeEvents at hu ⊢
  split at hu
  · split at hu
    · rename_i hacc
      obtain rfl := List.mem_singleton.mp hu
      exact if_pos hacc
    · cases hu
  · cases hu

/-- An entry that completes edges adds a node, which leaves the edge of every identifier. -/
theorem edge_of_ownEvents (hx : x ∈ g.retried σ mode e) (o : Ontology) (id : String) (sl : Slot) :
    (sl.play o id (eventsAt id (g.ownEvents mode e))).edge = sl.edge := by
  obtain ⟨⟨nid, ty, st, lb, ps, hp⟩, -⟩ := mem_retried_iff.mp hx
  rw [ownEvents, hp]
  dsimp only
  split
  · rw [eventsAt_cons]
    split <;> rfl
  · rfl

/-- So every completed edge of a new identifier can be the one that gives it its shape. -/
theorem exists_shape (he : e.Ordinary) (hid : g.edges[id]? = none) {ty src tgt : String}
    {ps : BTreeMap String Value} {c : HybridClock}
    (hin : (id, .addEdge ty src tgt ps c) ∈ g.completed σ mode e) : ∃ i, ∀ g', Alike g g' →
      (g'.applyInner (.turned i) e mode true).shapeOf id = some (ty, src, tgt) := by
  obtain ⟨x, hx, hev⟩ := List.mem_flatMap.mp hin
  obtain ⟨i, hi⟩ := exists_turned hx
  refine ⟨i, fun g' hg => ?_⟩
  obtain ⟨rest, hfirst⟩ := hi g' hg
  have hx' : x ∈ g'.retried σ mode e := (hg.mem_retried σ σ mode e).mpr ⟨rfl, hx⟩
  have hnone : (g'.slot id).edge = none := by
    rw [hg.slots id]
    exact hid
  change ((g'.applyInner (.turned i) e mode true).slot id).edge.map Edge.shape = _
  rw [slot_applyInner g' (.turned i) he mode true, events_eq, eventsAt_append, Slot.play_append, hfirst,
    List.flatMap_cons, hg.withNodeEvents, edgeEvents_of_mem hev, List.singleton_append, eventsAt_cons,
    if_pos rfl]
  exact Slot.shape_of_first _ ((edge_of_ownEvents hx' _ id _).trans hnone)

/-- What is completed is an edge that an added node completes. -/
theorem addEdge_of_completed {u : String × Event} (hu : u ∈ g.completed σ mode e) :
    e.Ordinary ∧ ∃ ty src tgt ps c, u.2 = .addEdge ty src tgt ps c := by
  obtain ⟨x, hx, hev⟩ := List.mem_flatMap.mp hu
  obtain ⟨⟨id, ty, st, lb, ps, hp⟩, -⟩ := mem_retried_iff.mp hx
  refine ⟨⟨by rw [hp]; rfl, by rw [hp]; rfl⟩, ?_⟩
  rw [edgeEvents] at hev
  split at hev
  · split at hev
    · obtain rfl := List.mem_singleton.mp hev
      exact ⟨_, _, _, _, _, rfl⟩
    · cases hev
  · cases hev

/-- If whichever completed edge comes first, the edge of its identifier ends up the same, then
those completed at once agree. -/
theorem agrees_of_shapes (htold : ∀ u ∈ g.completed σ mode e, ∀ v ∈ g.completed σ mode e, u.1 = v.1 →
      u.2.Told v.2)
    (hshape : ∀ i j id d d', (∀ g', Alike g g' → (g'.applyInner (.turned i) e mode true).shapeOf id = some d) →
      (∀ g', Alike g g' → (g'.applyInner (.turned j) e mode true).shapeOf id = some d') → d = d') :
    ∀ u ∈ g.completed σ mode e, ∀ v ∈ g.completed σ mode e, u.1 = v.1 →
      EdgesCommute (g.edges[u.1]?).isSome u.2 v.2 := by
  rintro ⟨id, ev⟩ hu ⟨id', ev'⟩ hv rfl
  obtain ⟨he, ty, src, tgt, ps, c, rfl⟩ := addEdge_of_completed hu
  obtain ⟨-, ty', src', tgt', ps', c', rfl⟩ := addEdge_of_completed hv
  refine ⟨htold _ hu _ hv rfl, ?_⟩
  cases hid : g.edges[id]? with
  | some ed => exact .inl rfl
  | none =>
    obtain ⟨i, hi⟩ := exists_shape he hid hu
    obtain ⟨j, hj⟩ := exists_shape he hid hv
    have heq := hshape i j id _ _ hi hj
    rw [Prod.mk.injEq, Prod.mk.injEq] at heq
    exact .inr heq

/-- **Necessity.** Let replays under all orders start from graphs that are alike. If they end
with the same edges, those completed at once agree all along. -/
theorem agrees_of_outcome (σ₀ : HashOrder) (start : HashOrder → MaterializedGraph)
    (halike : ∀ σ, Alike (start σ₀) (start σ)) (hplain : ∀ a ∈ as, a.Plain)
    (htold : AllAlong (fun g a => a.Told σ₀ g) σ₀ (start σ₀) as)
    (hsame : ∀ σ σ', (as.foldl (Action.run σ) (start σ)).edges =
      (as.foldl (Action.run σ') (start σ')).edges) :
    AllAlong (fun g a => a.Agrees σ₀ g) σ₀ (start σ₀) as := by
  induction as generalizing start with
  | nil => trivial
  | cons a as ih =>
    have hrest : ∀ b ∈ as, b.Plain := fun b hb => hplain b (List.mem_cons_of_mem a hb)
    -- the shape an edge has after this action is the one it has in the end
    have hshape : ∀ i j id d d', (a.run (.turned i) (start (.turned i))).shapeOf id = some d →
        (a.run (.turned j) (start (.turned j))).shapeOf id = some d' → d = d' := by
      intro i j id d d' hd hd'
      have hi := shapeOf_foldl (.turned i) hrest hd
      have hj := shapeOf_foldl (.turned j) hrest hd'
      have hedges := hsame (.turned i) (.turned j)
      rw [List.foldl_cons, List.foldl_cons] at hedges
      rw [shapeOf, hedges, ← shapeOf, hj] at hi
      exact (Option.some.inj hi).symm
    have hagree : a.Agrees σ₀ (start σ₀) := by
      cases a with
      | entry e =>
        refine agrees_of_shapes htold.1 fun i j id d d' hi hj => ?_
        exact hshape i j id d d' (hi _ (halike _)) (hj _ (halike _))
      | op x =>
        refine agrees_of_shapes htold.1 fun i j id d d' hi hj => ?_
        exact hshape i j id d d' (hi _ (halike _)) (hj _ (halike _))
      | adopt ontology => exact fun u hu => absurd hu List.not_mem_nil
      | release hash => exact fun u hu => absurd hu List.not_mem_nil
    exact ⟨hagree, ih (fun σ => a.run σ (start σ))
      (fun σ => (halike σ).run σ₀ σ (hplain a List.mem_cons_self) hagree) hrest htold.2 hsame⟩

/-! ### Rebuilds -/

theorem alike_secondPass (base : Ontology) (es : List Entry) :
    Alike (secondPass base es) (secondPass base es) := by
  refine .refl fun h p hp => ?_
  rw [(entities_secondPass base es).2.2, Std.ExtTreeMap.getElem?_empty] at hp
  cases hp

omit [Crates] in
theorem SameOutcome.symm (h : SameOutcome g g') : SameOutcome g' g :=
  ⟨h.nodes.symm, h.edges.symm, fun k => (h.quarantined k).symm⟩

omit [Crates] in
theorem SameOutcome.trans {g'' : MaterializedGraph} (h : SameOutcome g g') (h' : SameOutcome g' g'') :
    SameOutcome g g'' :=
  ⟨h.nodes.trans h'.nodes, h.edges.trans h'.edges, fun k => (h.quarantined k).trans (h'.quarantined k)⟩

/-- The edges that a rebuild completes at once agree, at every action. -/
def Confluent (base : Ontology) (es : List Entry) (σ : HashOrder) : Prop :=
  AllAlong (fun g a => a.Agrees σ g) σ (secondPass base es) (replayActions es)

/-- They can be told apart. -/
def Distinguishable (base : Ontology) (es : List Entry) (σ : HashOrder) : Prop :=
  AllAlong (fun g a => a.Told σ g) σ (secondPass base es) (replayActions es)

/-- **Determinism.** Rebuilds of a list under two orders end alike if the edges completed at
once agree, seen along any one order, and where these can be told apart only then. -/
theorem rebuild_deterministic (base : Ontology) (es : List Entry) (σ₀ : HashOrder) :
    (Confluent base es σ₀ →
      ∀ σ σ', SameOutcome ((new base).rebuild σ es) ((new base).rebuild σ' es)) ∧
    (Distinguishable base es σ₀ →
      (∀ σ σ', SameOutcome ((new base).rebuild σ es) ((new base).rebuild σ' es)) →
      Confluent base es σ₀) := by
  have hplain : ∀ a ∈ replayActions es, a.Plain := fun a ha => plain_of_replayActions ha
  simp only [rebuild_eq_actions]
  refine ⟨fun hagree => ?_, fun htold hsame => ?_⟩
  · have hone : ∀ σ, SameOutcome ((replayActions es).foldl (Action.run σ₀) (secondPass base es))
        ((replayActions es).foldl (Action.run σ) (secondPass base es)) := fun σ =>
      ((alike_secondPass base es).foldl σ₀ σ hplain hagree).outcome
    exact fun σ σ' => (hone σ).symm.trans (hone σ')
  · exact agrees_of_outcome σ₀ (fun _ => secondPass base es) (fun _ => alike_secondPass base es)
      hplain htold fun σ σ' => (hsame σ σ').edges

end MaterializedGraph

end

namespace Sample

/-- An edge that two peers know of, before its target comes. -/
def known (source target : String) : List Entry :=
  [Entry.new (.addNode "ann" "person" none "Ann" ∅) [] [] ⟨"a", 1, 0⟩ "a",
    Entry.new (.addEdge "e" "knows" "ann" "bob" ∅) [] [] ⟨"a", 2, 0⟩ "a",
    Entry.new (.addEdge "e" "knows" source target ∅) [] [] ⟨"b", 2, 0⟩ "b",
    Entry.new (.addNode "bob" "person" none "Bob" ∅) [] [] ⟨"b", 3, 0⟩ "b"]

end Sample

namespace MaterializedGraph

/-- A quick check for edges without properties. -/
def bareAlike : Event → Event → Bool
  | .addEdge ty src tgt ps _, .addEdge ty' src' tgt' ps' _ =>
    ps.isEmpty && ps'.isEmpty && ty == ty' && src == src' && tgt == tgt'
  | _, _ => false

theorem edgesCommute_of_bareAlike {there : Bool} {a b : Event} (h : bareAlike a b = true) :
    EdgesCommute there a b := by
  cases a <;> cases b <;> try cases h
  simp only [bareAlike, Bool.and_eq_true, beq_iff_eq, Std.ExtTreeMap.isEmpty_iff] at h
  obtain ⟨⟨⟨⟨rfl, rfl⟩, rfl⟩, rfl⟩, rfl⟩ := h
  exact ⟨fun _ => rfl, .inr ⟨rfl, rfl, rfl⟩⟩

open Sample in
/-- Both give the same edge, so any order will do. -/
theorem rebuild_deterministic_known : ∀ σ σ', SameOutcome ((new guests).rebuild σ (known "ann" "bob"))
    ((new guests).rebuild σ' (known "ann" "bob")) := by
  have hbare : AllAlong (fun g a => ∀ u ∈ a.completed .keyOrder g, ∀ v ∈ a.completed .keyOrder g,
      bareAlike u.2 v.2 = true) .keyOrder (secondPass guests (known "ann" "bob"))
      (replayActions (known "ann" "bob")) := by
    refine ⟨?_, ?_, ?_, ?_, trivial⟩ <;> decide +kernel
  exact (rebuild_deterministic guests (known "ann" "bob") .keyOrder).1 <|
    hbare.mono fun g a h u hu v hv _ => edgesCommute_of_bareAlike (h u hu v hv)

open Sample in
/-- Two peers used one identifier for edges of opposite directions. Which of them there is
after the target has come depends on the order. -/
theorem rebuild_not_deterministic : ¬ ∀ σ σ', SameOutcome
    ((new guests).rebuild σ (known "bob" "ann")) ((new guests).rebuild σ' (known "bob" "ann")) := by
  intro h
  have hedges := (h .keyOrder (.turned 1)).edges
  have hsource := congrArg (fun es : BTreeMap String Edge => es["e"]?.map Edge.sourceId) hedges
  revert hsource
  decide +kernel

end MaterializedGraph

end SilkGraph
