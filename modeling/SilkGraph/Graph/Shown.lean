import SilkGraph.Graph.Conformance
import SilkGraph.Graph.Quarantine

/-!
# Writes that stay visible

Slots only grow: clocks go up, and what a cell covers it covers for good (`Slot.Grows`). So
an event that has been played is absorbed and stays so, under all events that follow. And
everything a slot shows comes from an event that was played (`Slot.Sourced`), so a write that
is not shown has given way to one that is no earlier.

`Reflects` is both for a graph and the entries it has applied: each of them is quarantined or
absorbed. An entry leaves quarantine only when it is judged again and accepted, which is when
its event is played.
-/

namespace SilkGraph

/-! ### Slots grow -/

/-- The second node is the first, later: what the first covers the second does. -/
structure Node.Grows (nd nd' : Node) : Prop where
  added : nd.lastAddClock ≤ nd'.lastAddClock
  covers : ∀ k c, Covers (nd.table.cell k) c → Covers (nd'.table.cell k) c

/-- The second edge is the first, later. -/
structure Edge.Grows (ed ed' : Edge) : Prop where
  added : ed.lastAddClock ≤ ed'.lastAddClock
  covers : ∀ k c, Covers (ed.table.cell k) c → Covers (ed'.table.cell k) c

section Entities

variable {nd : Node} {ed : Edge} {st : Option String} {lb k : String} {v : Value}
  {ps : BTreeMap String Value} {c : HybridClock}

theorem Node.grows_readd : nd.Grows (nd.readd st lb ps c) := by
  refine ⟨?_, fun k c' h => ?_⟩
  · rw [readd_lastAddClock]
    exact le_max_left _ _
  · rw [readd_table]
    exact PropertyTable.covers_mergeLww h

theorem Node.grows_update : nd.Grows (nd.update k v c) := by
  refine ⟨le_rfl, fun k' c' h => ?_⟩
  rw [update_table]
  exact PropertyTable.covers_write h v

theorem Node.grows_remove : nd.Grows (nd.remove c) := by
  refine ⟨?_, fun k' c' h => ?_⟩
  · rw [remove_lastAddClock]
  · rw [remove_table]
    exact h

theorem Edge.grows_readd : ed.Grows (ed.readd ps c) := by
  refine ⟨?_, fun k c' h => ?_⟩
  · rw [readd_lastAddClock]
    exact le_max_left _ _
  · rw [readd_table]
    exact PropertyTable.covers_mergeLww h

theorem Edge.grows_update : ed.Grows (ed.update k v c) := by
  refine ⟨le_rfl, fun k' c' h => ?_⟩
  rw [update_table]
  exact PropertyTable.covers_write h v

theorem Edge.grows_remove : ed.Grows (ed.remove c) := by
  refine ⟨?_, fun k' c' h => ?_⟩
  · rw [remove_lastAddClock]
  · rw [remove_table]
    exact h

end Entities

namespace Slot

/-- The second slot is the first, later. -/
structure Grows (sl sl' : Slot) : Prop where
  node : ∀ nd ∈ sl.node, ∃ nd' ∈ sl'.node, nd.Grows nd'
  edge : ∀ ed ∈ sl.edge, ∃ ed' ∈ sl'.edge, ed.Grows ed'

/-- There is a node or an edge. -/
def Occupied (self : Slot) : Prop := self.node.isSome ∨ self.edge.isSome

variable {sl sl' sl'' : Slot} {o : Ontology} {id : String} {ev : Event}

theorem Grows.refl (sl : Slot) : sl.Grows sl :=
  ⟨fun nd h => ⟨nd, h, le_rfl, fun _ _ h => h⟩, fun ed h => ⟨ed, h, le_rfl, fun _ _ h => h⟩⟩

theorem Grows.trans (h : sl.Grows sl') (h' : sl'.Grows sl'') : sl.Grows sl'' := by
  constructor
  · intro nd hnd
    obtain ⟨nd', hnd', hg⟩ := h.node nd hnd
    obtain ⟨nd'', hnd'', hg'⟩ := h'.node nd' hnd'
    exact ⟨nd'', hnd'', hg.added.trans hg'.added, fun k c hc => hg'.covers k c (hg.covers k c hc)⟩
  · intro ed hed
    obtain ⟨ed', hed', hg⟩ := h.edge ed hed
    obtain ⟨ed'', hed'', hg'⟩ := h'.edge ed' hed'
    exact ⟨ed'', hed'', hg.added.trans hg'.added, fun k c hc => hg'.covers k c (hg.covers k c hc)⟩

/-- A slot whose node grows, or comes. -/
theorem Grows.ofNode {nd' : Option Node} (h : ∀ nd ∈ sl.node, ∃ nd₁ ∈ nd', nd.Grows nd₁) :
    sl.Grows { sl with node := nd' } := ⟨h, (Grows.refl sl).edge⟩

theorem Grows.ofEdge {ed' : Option Edge} (h : ∀ ed ∈ sl.edge, ∃ ed₁ ∈ ed', ed.Grows ed₁) :
    sl.Grows { sl with edge := ed' } := ⟨(Grows.refl sl).node, h⟩

variable [Crates]

/-- **Step.** An event makes a slot grow. -/
theorem grows_step (o : Ontology) (id : String) (sl : Slot) (ev : Event) :
    sl.Grows (sl.step o id ev) := by
  cases ev with
  | addNode ty st lb ps c =>
    refine .ofNode fun nd hnd => ⟨_, rfl, ?_⟩
    rw [hnd]
    exact Node.grows_readd
  | addEdge ty src tgt ps c =>
    refine .ofEdge fun ed hed => ⟨_, rfl, ?_⟩
    rw [hed]
    exact Edge.grows_readd
  | update k v c =>
    rw [step]
    split
    · split <;> rename_i hn
      · refine .ofNode fun nd hnd => ⟨_, rfl, ?_⟩
        obtain rfl := Option.some.inj (hn.symm.trans hnd)
        exact Node.grows_update
      · exact .ofEdge fun ed hed => ⟨_, Option.mem_map_of_mem _ hed, Edge.grows_update⟩
    · exact .refl sl
  | removeNode c =>
    exact .ofNode fun nd hnd => ⟨_, Option.mem_map_of_mem _ hnd, Node.grows_remove⟩
  | removeEdge c =>
    exact .ofEdge fun ed hed => ⟨_, Option.mem_map_of_mem _ hed, Edge.grows_remove⟩

theorem grows_play (o : Ontology) (id : String) (sl : Slot) (evs : List Event) :
    sl.Grows (sl.play o id evs) := by
  induction evs generalizing sl with
  | nil => exact .refl sl
  | cons ev evs ih => exact (grows_step o id sl ev).trans (ih _)

/-! ### Absorbed events -/

omit [Crates] in
/-- The slot has taken the event in: the entity is there, added no earlier, and no property
the event writes has an earlier clock. -/
def Absorbed (self : Slot) : Event → Prop
  | .addNode _ _ _ properties clock =>
    ∃ nd ∈ self.node, clock ≤ nd.lastAddClock ∧ nd.table.Absorbs properties clock
  | .addEdge _ _ _ properties clock =>
    ∃ ed ∈ self.edge, clock ≤ ed.lastAddClock ∧ ed.table.Absorbs properties clock
  | .update key _ clock =>
    (∃ nd ∈ self.node, Covers (nd.table.cell key) clock) ∨
      ∃ ed ∈ self.edge, Covers (ed.table.cell key) clock
  | _ => True

omit [Crates] in
theorem Absorbed.grow (h : sl.Absorbed ev) (hg : sl.Grows sl') : sl'.Absorbed ev := by
  cases ev with
  | addNode ty st lb ps c =>
    obtain ⟨nd, hnd, hle, habs⟩ := h
    obtain ⟨nd', hnd', hadd, hcov⟩ := hg.node nd hnd
    exact ⟨nd', hnd', hle.trans hadd, fun k hk => hcov k c (habs k hk)⟩
  | addEdge ty src tgt ps c =>
    obtain ⟨ed, hed, hle, habs⟩ := h
    obtain ⟨ed', hed', hadd, hcov⟩ := hg.edge ed hed
    exact ⟨ed', hed', hle.trans hadd, fun k hk => hcov k c (habs k hk)⟩
  | update k v c =>
    obtain ⟨nd, hnd, hc⟩ | ⟨ed, hed, hc⟩ := h
    · obtain ⟨nd', hnd', -, hcov⟩ := hg.node nd hnd
      exact .inl ⟨nd', hnd', hcov k c hc⟩
    · obtain ⟨ed', hed', -, hcov⟩ := hg.edge ed hed
      exact .inr ⟨ed', hed', hcov k c hc⟩
  | removeNode | removeEdge => trivial

/-- Whether an event is taken in when it is played: an update needs an entity, and to be
accepted. -/
def Takes (o : Ontology) (self : Slot) : Event → Prop
  | .update key value _ => self.accepts o key value = true ∧ self.Occupied
  | _ => True

/-- An event that is played is absorbed. -/
theorem absorbed_step (h : sl.Takes o ev) : (sl.step o id ev).Absorbed ev := by
  cases ev with
  | addNode ty st lb ps c =>
    refine ⟨_, rfl, ?_⟩
    cases sl.node with
    | none =>
      refine ⟨le_rfl, ?_⟩
      change (PropertyTable.init ps c).Absorbs ps c
      rw [PropertyTable.init_eq]
      exact PropertyTable.absorbs_mergeLww
    | some nd =>
      refine ⟨?_, PropertyTable.absorbs_mergeLww⟩
      change c ≤ (nd.readd st lb ps c).lastAddClock
      rw [Node.readd_lastAddClock]
      exact le_max_right _ _
  | addEdge ty src tgt ps c =>
    refine ⟨_, rfl, ?_⟩
    cases sl.edge with
    | none =>
      refine ⟨le_rfl, ?_⟩
      change (PropertyTable.init ps c).Absorbs ps c
      rw [PropertyTable.init_eq]
      exact PropertyTable.absorbs_mergeLww
    | some ed =>
      refine ⟨?_, PropertyTable.absorbs_mergeLww⟩
      change c ≤ (ed.readd ps c).lastAddClock
      rw [Edge.readd_lastAddClock]
      exact le_max_right _ _
  | update k v c =>
    obtain ⟨hacc, hocc⟩ := h
    have hcell : ∀ t : PropertyTable, Covers ((t.write k v c).cell k) c := fun t => by
      rw [PropertyTable.cell_write, if_pos rfl]
      exact covers_writeCell
    rw [step, if_pos hacc]
    cases hn : sl.node with
    | some nd => exact .inl ⟨_, rfl, hcell nd.table⟩
    | none =>
      rw [Occupied, hn] at hocc
      obtain ⟨ed, hed⟩ := Option.isSome_iff_exists.mp (hocc.resolve_left (by simp))
      refine .inr ⟨ed.update k v c, ?_, hcell ed.table⟩
      rw [hed]
      rfl
  | removeNode | removeEdge => trivial

end Slot

/-! ### Where values come from -/

/-- The event writes a value to a property. -/
def Event.Writes (key : String) (value : Value) (clock : HybridClock) : Event → Prop
  | .addNode _ _ _ properties c => properties[key]? = some value ∧ c = clock
  | .addEdge _ _ _ properties c => properties[key]? = some value ∧ c = clock
  | .update k v c => k = key ∧ v = value ∧ c = clock
  | _ => False

/-- Some event of a kind writes a value to a property. -/
def Written (W : Event → Prop) (key : String) (value : Value) (clock : HybridClock) : Prop :=
  ∃ ev, W ev ∧ ev.Writes key value clock

namespace PropertyTable

variable {t : PropertyTable} {P : String → Value → HybridClock → Prop} {k : String} {v : Value}
  {c : HybridClock} {ps : BTreeMap String Value}

/-- A cell that has a clock holds a value that was written at this clock. -/
def From (P : String → Value → HybridClock → Prop) (t : PropertyTable) : Prop :=
  ∀ k c, (t.cell k).2 = some c → ∃ v, (t.cell k).1 = some v ∧ P k v c

theorem from_writeCell {p : Cell} (h : ∀ c, p.2 = some c → ∃ v, p.1 = some v ∧ P k v c)
    (hw : P k v c) : ∀ c', (writeCell p v c).2 = some c' →
      ∃ w, (writeCell p v c).1 = some w ∧ P k w c' := by
  intro c' hc'
  rw [writeCell] at hc' ⊢
  split <;> rename_i hlt
  · rw [if_pos hlt] at hc'
    obtain rfl := Option.some.inj hc'
    exact ⟨v, rfl, hw⟩
  · rw [if_neg hlt] at hc'
    exact h c' hc'

theorem From.write (h : t.From P) (hw : P k v c) : (t.write k v c).From P := by
  intro k' c' hc'
  rw [cell_write] at hc' ⊢
  split <;> rename_i hk
  · subst hk
    rw [if_pos rfl] at hc'
    exact from_writeCell (h k) hw c' hc'
  · rw [if_neg hk] at hc'
    exact h k' c' hc'

theorem From.mergeLww (h : t.From P) (hw : ∀ k v, ps[k]? = some v → P k v c) :
    (t.mergeLww ps c).From P := by
  intro k c' hc'
  rw [cell_mergeLww] at hc' ⊢
  cases hv : ps[k]? with
  | none =>
    rw [hv] at hc'
    exact h k c' hc'
  | some v =>
    rw [hv] at hc'
    exact from_writeCell (h k) (hw k v hv) c' hc'

theorem from_init (hw : ∀ k v, ps[k]? = some v → P k v c) : (init ps c).From P := by
  rw [init_eq]
  refine From.mergeLww (fun k c' hc' => ?_) hw
  simp [cell] at hc'

/-- The table shows a write of the property from the given clock on. -/
def ShowsFrom (P : String → Value → HybridClock → Prop) (t : PropertyTable) (key : String)
    (clock : HybridClock) : Prop :=
  ∃ value c, t.cell key = (some value, some c) ∧ clock ≤ c ∧ P key value c

theorem From.shows (h : t.From P) (hc : Covers (t.cell k) c) : t.ShowsFrom P k c := by
  obtain ⟨c', hc', hle⟩ := hc
  obtain ⟨v, hv, hw⟩ := h k c' hc'
  exact ⟨v, c', Prod.ext hv hc', hle, hw⟩

end PropertyTable

namespace Slot

/-- Everything a slot shows comes from events of a kind: its values were written by them, and
a removed entity was removed by one, later than it was last added. -/
structure Sourced (W : Event → Prop) (sl : Slot) : Prop where
  node : ∀ nd ∈ sl.node, nd.table.From (Written W)
  edge : ∀ ed ∈ sl.edge, ed.table.From (Written W)
  removedNode : ∀ nd ∈ sl.node, nd.tombstoned = true → ∃ c, W (.removeNode c) ∧ nd.lastAddClock < c
  removedEdge : ∀ ed ∈ sl.edge, ed.tombstoned = true → ∃ c, W (.removeEdge c) ∧ ed.lastAddClock < c

/-- The slot shows the event up to later events: the entity is there and was not removed
later, and each property the event writes has a value written no earlier. -/
def Shows (W : Event → Prop) (self : Slot) : Event → Prop
  | .addNode _ _ _ properties clock => ∃ nd ∈ self.node,
    (nd.tombstoned = true → ∃ c, W (.removeNode c) ∧ clock < c) ∧
      ∀ k ∈ properties, nd.table.ShowsFrom (Written W) k clock
  | .addEdge _ _ _ properties clock => ∃ ed ∈ self.edge,
    (ed.tombstoned = true → ∃ c, W (.removeEdge c) ∧ clock < c) ∧
      ∀ k ∈ properties, ed.table.ShowsFrom (Written W) k clock
  | .update key _ clock => (∃ nd ∈ self.node, nd.table.ShowsFrom (Written W) key clock) ∨
    ∃ ed ∈ self.edge, ed.table.ShowsFrom (Written W) key clock
  | _ => True

variable {sl : Slot} {W W' : Event → Prop} {o : Ontology} {id : String} {ev : Event}

theorem Sourced.shows (h : sl.Sourced W) (ha : sl.Absorbed ev) : sl.Shows W ev := by
  cases ev with
  | addNode ty st lb ps c =>
    obtain ⟨nd, hnd, hle, habs⟩ := ha
    refine ⟨nd, hnd, fun ht => ?_, fun k hk => (h.node nd hnd).shows (habs k hk)⟩
    obtain ⟨c', hw, hlt⟩ := h.removedNode nd hnd ht
    exact ⟨c', hw, hle.trans_lt hlt⟩
  | addEdge ty src tgt ps c =>
    obtain ⟨ed, hed, hle, habs⟩ := ha
    refine ⟨ed, hed, fun ht => ?_, fun k hk => (h.edge ed hed).shows (habs k hk)⟩
    obtain ⟨c', hw, hlt⟩ := h.removedEdge ed hed ht
    exact ⟨c', hw, hle.trans_lt hlt⟩
  | update k v c =>
    obtain ⟨nd, hnd, hc⟩ | ⟨ed, hed, hc⟩ := ha
    · exact .inl ⟨nd, hnd, (h.node nd hnd).shows hc⟩
    · exact .inr ⟨ed, hed, (h.edge ed hed).shows hc⟩
  | removeNode | removeEdge => trivial

theorem Sourced.empty : Sourced W ⟨none, none⟩ :=
  ⟨nofun, nofun, nofun, nofun⟩

theorem Sourced.mono (h : sl.Sourced W) (hle : ∀ ev, W ev → W' ev) : sl.Sourced W' := by
  have hw : ∀ k v c, Written W k v c → Written W' k v c := fun k v c ⟨ev, hev, hwr⟩ => ⟨ev, hle ev hev, hwr⟩
  have hfrom : ∀ t : PropertyTable, t.From (Written W) → t.From (Written W') := fun t ht k c hc => by
    obtain ⟨v, hv, hp⟩ := ht k c hc
    exact ⟨v, hv, hw k v c hp⟩
  refine ⟨fun nd hnd => hfrom _ (h.node nd hnd), fun ed hed => hfrom _ (h.edge ed hed),
    fun nd hnd ht => ?_, fun ed hed ht => ?_⟩
  · obtain ⟨c, hc, hlt⟩ := h.removedNode nd hnd ht
    exact ⟨c, hle _ hc, hlt⟩
  · obtain ⟨c, hc, hlt⟩ := h.removedEdge ed hed ht
    exact ⟨c, hle _ hc, hlt⟩

/-- The node is another one. -/
theorem Sourced.ofNode (h : sl.Sourced W) {nd' : Option Node}
    (hfrom : ∀ nd ∈ nd', nd.table.From (Written W))
    (hrem : ∀ nd ∈ nd', nd.tombstoned = true → ∃ c, W (.removeNode c) ∧ nd.lastAddClock < c) :
    Sourced W { sl with node := nd' } := ⟨hfrom, h.edge, hrem, h.removedEdge⟩

/-- The edge is another one. -/
theorem Sourced.ofEdge (h : sl.Sourced W) {ed' : Option Edge}
    (hfrom : ∀ ed ∈ ed', ed.table.From (Written W))
    (hrem : ∀ ed ∈ ed', ed.tombstoned = true → ∃ c, W (.removeEdge c) ∧ ed.lastAddClock < c) :
    Sourced W { sl with edge := ed' } := ⟨h.node, hfrom, h.removedNode, hrem⟩

variable [Crates]

/-- **Step.** An event of the kind keeps a slot sourced. -/
theorem Sourced.step (h : sl.Sourced W) (hev : W ev) : (sl.step o id ev).Sourced W := by
  cases ev with
  | addNode ty st lb ps c =>
    have hw : ∀ k v, ps[k]? = some v → Written W k v c := fun k v hv => ⟨_, hev, hv, rfl⟩
    cases hn : sl.node with
    | none =>
      simp only [Slot.step, hn]
      refine h.ofNode (fun nd hnd => ?_) fun nd hnd ht => ?_ <;> obtain rfl := Option.some.inj hnd
      · exact PropertyTable.from_init hw
      · cases ht
    | some nd₀ =>
      simp only [Slot.step, hn]
      refine h.ofNode (fun nd hnd => ?_) fun nd hnd ht => ?_ <;> obtain rfl := Option.some.inj hnd
      · exact (h.node nd₀ hn).mergeLww hw
      · cases ht
  | addEdge ty src tgt ps c =>
    have hw : ∀ k v, ps[k]? = some v → Written W k v c := fun k v hv => ⟨_, hev, hv, rfl⟩
    cases hn : sl.edge with
    | none =>
      simp only [Slot.step, hn]
      refine h.ofEdge (fun ed hed => ?_) fun ed hed ht => ?_ <;> obtain rfl := Option.some.inj hed
      · exact PropertyTable.from_init hw
      · cases ht
    | some ed₀ =>
      simp only [Slot.step, hn]
      refine h.ofEdge (fun ed hed => ?_) fun ed hed ht => ?_ <;> obtain rfl := Option.some.inj hed
      · exact (h.edge ed₀ hn).mergeLww hw
      · cases ht
  | update k v c =>
    have hw : Written W k v c := ⟨_, hev, rfl, rfl, rfl⟩
    rw [Slot.step]
    split
    · split <;> rename_i hn
      · rename_i nd₀
        refine h.ofNode (fun nd hnd => ?_) fun nd hnd ht => ?_ <;> obtain rfl := Option.some.inj hnd
        · exact (h.node nd₀ hn).write hw
        · exact h.removedNode nd₀ hn ht
      · refine h.ofEdge (fun ed hed => ?_) fun ed hed ht => ?_ <;>
          obtain ⟨ed₀, hed₀, rfl⟩ := Option.map_eq_some_iff.mp hed
        · exact (h.edge ed₀ hed₀).write hw
        · exact h.removedEdge ed₀ hed₀ ht
    · exact h
  | removeNode c =>
    refine h.ofNode (fun nd hnd => ?_) fun nd hnd ht => ?_ <;>
      obtain ⟨nd₀, hnd₀, rfl⟩ := Option.map_eq_some_iff.mp hnd
    · rw [Node.remove_table]
      exact h.node nd₀ hnd₀
    · obtain hlt | hle := lt_or_ge nd₀.lastAddClock c
      · exact ⟨c, hev, by rwa [Node.remove_lastAddClock]⟩
      · rw [Node.remove_of_le hle] at ht ⊢
        exact h.removedNode nd₀ hnd₀ ht
  | removeEdge c =>
    refine h.ofEdge (fun ed hed => ?_) fun ed hed ht => ?_ <;>
      obtain ⟨ed₀, hed₀, rfl⟩ := Option.map_eq_some_iff.mp hed
    · rw [Edge.remove_table]
      exact h.edge ed₀ hed₀
    · obtain hlt | hle := lt_or_ge ed₀.lastAddClock c
      · exact ⟨c, hev, by rwa [Edge.remove_lastAddClock]⟩
      · rw [Edge.remove_of_le hle] at ht ⊢
        exact h.removedEdge ed₀ hed₀ ht

theorem Sourced.play (h : sl.Sourced W) {evs : List Event} (hevs : ∀ ev ∈ evs, W ev) :
    (sl.play o id evs).Sourced W := by
  induction evs generalizing sl with
  | nil => exact h
  | cons ev evs ih =>
    exact ih (h.step (hevs ev List.mem_cons_self)) fun ev' hev' => hevs ev' (List.mem_cons_of_mem _ hev')

/-- An event among those that are played is absorbed, if it is taken whatever comes first. -/
theorem absorbed_play {evs : List Event} (hmem : ev ∈ evs)
    (htakes : ∀ sl', sl.Grows sl' → sl'.Takes o ev) : (sl.play o id evs).Absorbed ev := by
  induction evs generalizing sl with
  | nil => cases hmem
  | cons ev' evs ih =>
    obtain rfl | hmem := List.mem_cons.mp hmem
    · exact (absorbed_step (htakes sl (.refl sl))).grow (grows_play o id _ evs)
    · exact ih hmem fun sl' hg => htakes sl' ((grows_step o id sl ev').trans hg)

end Slot

end SilkGraph
