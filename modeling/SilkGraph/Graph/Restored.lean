import SilkGraph.Graph.Decided
import SilkGraph.Graph.Indexes

/-!
# What restoring an entity gives

A compaction writes an entity out as an add without properties and one update for each
property, every one at the clock it was written at, under the author of the checkpoint. The
replay judges them again. `Node.restored` and `Edge.restored` say what it gives, and when that
is the entity there was (`Node.restored_eq_iff`, `Edge.restored_eq_iff`): the ontology has to
take every operation, and the author has to own every clock. Edges have one condition more,
since an update goes to the node of the identifier if there is one (`Slot.restored_iff`).
-/

namespace SilkGraph

/-- A clock under another author, the way a checkpoint stores it. -/
def HybridClock.stamped (self : HybridClock) (author : String) : HybridClock :=
  .withValues author self.physicalMs self.logical

@[simp]
theorem HybridClock.stamped_eq_iff {c : HybridClock} {author : String} :
    c.stamped author = c ↔ c.id = author := by
  obtain ⟨id, p, l⟩ := c
  simp [stamped, withValues, eq_comm]

/-! ### Tables -/

namespace PropertyTable

variable {t : PropertyTable} {ok : String → Value → Bool} {clock : String → HybridClock} {k : String}
  {v : Value} {c : HybridClock} {author : String}

/-- A property has a value exactly if it has a clock. -/
structure Paired (t : PropertyTable) : Prop where
  clocked : t.Clocked
  whole : t.Whole

theorem Paired.write (h : t.Paired) : (t.write k v c).Paired := ⟨h.clocked.write, h.whole.write⟩

theorem Paired.mergeLww {ps : BTreeMap String Value} (h : t.Paired) : (t.mergeLww ps c).Paired :=
  ⟨h.clocked.mergeLww, h.whole.mergeLww⟩

theorem paired_init {ps : BTreeMap String Value} : (init ps c).Paired := ⟨clocked_init, whole_init⟩

theorem Paired.cell (h : t.Paired) (k : String) :
    t.cell k = (none, none) ∨ ∃ v c, t.cell k = (some v, some c) := by
  cases hc : t.cell k with
  | mk v c =>
    have hval := h.whole k
    have hclock := (clocked_iff.mp h.clocked) k
    rw [hc] at hval hclock
    cases v with
    | none =>
      cases c with
      | none => exact .inl rfl
      | some c => cases hclock rfl
    | some v =>
      obtain ⟨c', rfl⟩ := hval v rfl
      exact .inr ⟨v, c', rfl⟩

theorem Paired.exists_clock (h : t.Paired) (hv : t.properties[k]? = some v) :
    ∃ c, t.cell k = (some v, some c) := by
  have hval : (t.cell k).1 = some v := hv
  obtain hk | ⟨w, c, hk⟩ := h.cell k <;> rw [hk] at hval
  · cases hval
  · obtain rfl := Option.some.inj hval
    exact ⟨c, hk⟩

/-- What holds of every property and its clock is checked property by property. -/
theorem forall_cell_iff {P : String → Value → HybridClock → Prop} :
    (∀ kv ∈ t.properties.toList, ∀ c ∈ t.clocks[kv.1]?, P kv.1 kv.2 c) ↔
      ∀ k v c, t.cell k = (some v, some c) → P k v c := by
  constructor
  · intro h k v c hk
    exact h (k, v) (HashMap.mem_toList.mpr (congrArg Prod.fst hk)) c (congrArg Prod.snd hk)
  · rintro h ⟨k, v⟩ hkv c hc
    exact h k v c (Prod.ext (HashMap.mem_toList.mp hkv) hc)

/-- Without properties there are no clocks. -/
theorem Paired.eq_empty (h : t.Paired) (hp : t.properties = ∅) : t = ⟨∅, ∅⟩ := by
  refine ext_cell fun k => ?_
  obtain hk | ⟨v, c, hk⟩ := h.cell k
  · rw [hk]
    simp [PropertyTable.cell]
  · have hv : t.properties[k]? = some v := congrArg Prod.fst hk
    rw [hp, Std.ExtTreeMap.getElem?_empty] at hv
    cases hv

/-- The table that the updates of an entity give, on a table without properties. -/
def restored (self : PropertyTable) (ok : String → Value → Bool) (author : String)
    (lastClock : HybridClock) : PropertyTable :=
  writeAll ok (fun k => (self.clocks[k]?.getD lastClock).stamped author) ⟨∅, ∅⟩ self.properties.toList

/-- **When the table comes back**: every property is accepted, and written by the author. -/
theorem restored_eq_iff (h : t.Paired) (last : HybridClock) : t.restored ok author last = t ↔
    ∀ k v c, t.cell k = (some v, some c) → ok k v = true ∧ c.id = author := by
  have hempty : ∀ k, (⟨∅, ∅⟩ : PropertyTable).cell k = (none, none) := by simp [PropertyTable.cell]
  have habsent : ∀ k, t.cell k = (none, none) → (t.restored ok author last).cell k = (none, none) := by
    intro k hk
    have hval : t.properties[k]? = none := congrArg Prod.fst hk
    rw [restored, cell_writeAll, hempty, hval]
  have hpresent : ∀ k v c, t.cell k = (some v, some c) → (t.restored ok author last).cell k =
      if ok k v then (some v, some (c.stamped author)) else (none, none) := by
    intro k v c hk
    have hval : t.properties[k]? = some v := congrArg Prod.fst hk
    have hclock : t.clocks[k]? = some c := congrArg Prod.snd hk
    rw [restored, cell_writeAll, hempty, hval, hclock]
    simp [writeCell]
  constructor
  · intro heq k v c hk
    have hkk := hpresent k v c hk
    rw [heq, hk] at hkk
    cases hok : ok k v with
    | false => simp [hok] at hkk
    | true =>
      simp only [hok, if_true] at hkk
      exact ⟨rfl, HybridClock.stamped_eq_iff.mp (Option.some.inj (Prod.mk.inj hkk).2).symm⟩
  · intro hall
    refine ext_cell fun k => ?_
    obtain hk | ⟨v, c, hk⟩ := h.cell k
    · rw [habsent k hk, hk]
    · obtain ⟨hok, hid⟩ := hall k v c hk
      rw [hpresent k v c hk, hk, if_pos hok, HybridClock.stamped_eq_iff.mpr hid]

/-- The updates that write a table anew, under an author. -/
def updates (self : PropertyTable) (author : String) (lastClock : HybridClock) : List Event :=
  self.properties.toList.map fun kv =>
    .update kv.1 kv.2 ((self.clocks[kv.1]?.getD lastClock).stamped author)

end PropertyTable

/-! ### Nodes -/

namespace Node

variable [Crates] {nd : Node} {o : Ontology} {author : String}

omit [Crates] in
/-- The node but for `last_clock`. -/
def kept (self : Node) : Node := { self with lastClock := self.lastAddClock }

/-- The ontology takes the operations that restore the node, and the author owns its clocks. -/
structure Restorable (nd : Node) (o : Ontology) (author : String) : Prop where
  added : (o.validateNodeMode nd.nodeType nd.subtype ∅ .skipRequired).isOk = true
  addClock : nd.lastAddClock.id = author
  updated : ∀ k v c, nd.table.cell k = (some v, some c) →
    (o.validatePropertyUpdate nd.nodeType nd.subtype k v).isOk = true ∧ c.id = author

instance (nd : Node) (o : Ontology) (author : String) : Decidable (nd.Restorable o author) :=
  decidable_of_iff ((o.validateNodeMode nd.nodeType nd.subtype ∅ .skipRequired).isOk = true ∧
      nd.lastAddClock.id = author ∧ ∀ kv ∈ nd.table.properties.toList, ∀ c ∈ nd.table.clocks[kv.1]?,
        (o.validatePropertyUpdate nd.nodeType nd.subtype kv.1 kv.2).isOk = true ∧ c.id = author)
    ⟨fun ⟨added, addClock, h⟩ => ⟨added, addClock, PropertyTable.forall_cell_iff.mp h⟩,
      fun h => ⟨h.added, h.addClock, PropertyTable.forall_cell_iff.mpr h.updated⟩⟩

/-- The events that restore a node. -/
def restoring (self : Node) (o : Ontology) (author : String) : List Event :=
  (if (o.validateNodeMode self.nodeType self.subtype ∅ .skipRequired).isOk then
    [.addNode self.nodeType self.subtype self.label ∅ (self.lastAddClock.stamped author)] else []) ++
  self.table.updates author self.lastClock

/-- What they give. -/
def restored (self : Node) (o : Ontology) (author : String) : Option Node :=
  if (o.validateNodeMode self.nodeType self.subtype ∅ .skipRequired).isOk then
    some (({ self with lastAddClock := self.lastAddClock.stamped author, tombstoned := false } : Node).withTable
      (self.table.restored (fun k v => (o.validatePropertyUpdate self.nodeType self.subtype k v).isOk)
        author self.lastClock)).kept
  else none

/-- **When a node comes back.** -/
theorem restored_eq_iff (ht : nd.table.Paired) (live : nd.tombstoned = false) :
    nd.restored o author = some nd.kept ↔ nd.Restorable o author := by
  rw [restored]
  split <;> rename_i hv
  · rw [Option.some.injEq]
    constructor
    · intro heq
      have hadd : nd.lastAddClock.stamped author = nd.lastAddClock := congrArg Node.lastAddClock heq
      have htab : nd.table.restored (fun k v => (o.validatePropertyUpdate nd.nodeType nd.subtype k v).isOk)
          author nd.lastClock = nd.table := congrArg Node.table heq
      exact ⟨hv, HybridClock.stamped_eq_iff.mp hadd, (PropertyTable.restored_eq_iff ht _).mp htab⟩
    · intro hr
      have hadd := HybridClock.stamped_eq_iff.mpr hr.addClock
      have htab := (PropertyTable.restored_eq_iff ht nd.lastClock).mpr hr.updated
      refine ext_table rfl rfl rfl rfl htab hadd hadd live.symm
  · exact iff_of_false (by simp) fun hr => hv hr.added

end Node

/-! ### Edges -/

namespace Edge

variable [Crates] {ed : Edge} {o : Ontology} {accepted : Bool} {author : String}

omit [Crates] in
/-- The edge but for `last_clock`. -/
def kept (self : Edge) : Edge := { self with lastClock := self.lastAddClock }

omit [Crates] in
/-- An edge with other property tables. -/
def withTable (self : Edge) (t : PropertyTable) : Edge :=
  { self with properties := t.properties, propertyClocks := t.clocks }

/-- The ontology takes the updates that restore the edge, and the author owns its clocks. -/
structure Restorable (ed : Edge) (o : Ontology) (author : String) : Prop where
  addClock : ed.lastAddClock.id = author
  updated : ∀ k v c, ed.table.cell k = (some v, some c) →
    (o.validateEdgePropertyUpdate ed.edgeType k v).isOk = true ∧ c.id = author

instance (ed : Edge) (o : Ontology) (author : String) : Decidable (ed.Restorable o author) :=
  decidable_of_iff (ed.lastAddClock.id = author ∧
      ∀ kv ∈ ed.table.properties.toList, ∀ c ∈ ed.table.clocks[kv.1]?,
        (o.validateEdgePropertyUpdate ed.edgeType kv.1 kv.2).isOk = true ∧ c.id = author)
    ⟨fun ⟨addClock, h⟩ => ⟨addClock, PropertyTable.forall_cell_iff.mp h⟩,
      fun h => ⟨h.addClock, PropertyTable.forall_cell_iff.mpr h.updated⟩⟩

omit [Crates] in
/-- The events that restore an edge, if it is accepted. -/
def restoring (self : Edge) (accepted : Bool) (author : String) : List Event :=
  (if accepted then [.addEdge self.edgeType self.sourceId self.targetId ∅
    (self.lastAddClock.stamped author)] else []) ++ self.table.updates author self.lastClock

/-- What they give where no node has the identifier. -/
def restored (self : Edge) (o : Ontology) (accepted : Bool) (author : String) : Option Edge :=
  if accepted then
    some (({ self with lastAddClock := self.lastAddClock.stamped author, tombstoned := false } : Edge).withTable
      (self.table.restored (fun k v => (o.validateEdgePropertyUpdate self.edgeType k v).isOk)
        author self.lastClock)).kept
  else none

/-- **When an edge comes back.** -/
theorem restored_eq_iff (ht : ed.table.Paired) (live : ed.tombstoned = false) :
    ed.restored o accepted author = some ed.kept ↔ accepted = true ∧ ed.Restorable o author := by
  cases accepted with
  | false => simp [restored]
  | true =>
    rw [restored, if_pos rfl, Option.some.injEq]
    constructor
    · intro heq
      have hadd : ed.lastAddClock.stamped author = ed.lastAddClock := congrArg Edge.lastAddClock heq
      have htab : ed.table.restored (fun k v => (o.validateEdgePropertyUpdate ed.edgeType k v).isOk)
          author ed.lastClock = ed.table := congrArg Edge.table heq
      exact ⟨rfl, HybridClock.stamped_eq_iff.mp hadd, (PropertyTable.restored_eq_iff ht _).mp htab⟩
    · rintro ⟨-, hr⟩
      have hadd := HybridClock.stamped_eq_iff.mpr hr.addClock
      have htab := (PropertyTable.restored_eq_iff ht ed.lastClock).mpr hr.updated
      exact ext_table rfl rfl rfl rfl htab hadd hadd live.symm

end Edge

/-! ### Slots -/

namespace Slot

/-- Node and edge of a slot have its identifier, and their tables are paired. -/
structure Sound (id : String) (sl : Slot) : Prop where
  node : ∀ nd ∈ sl.node, nd.nodeId = id ∧ nd.table.Paired
  edge : ∀ ed ∈ sl.edge, ed.edgeId = id ∧ ed.table.Paired

theorem sound_empty {id : String} : Sound id ⟨none, none⟩ := ⟨nofun, nofun⟩

variable [Crates] {o : Ontology} {id : String} {author : String} {sl : Slot} {ev : Event}

theorem Sound.step (h : sl.Sound id) : (sl.step o id ev).Sound id := by
  cases ev with
  | addNode ty st lb ps c =>
    refine ⟨fun nd hnd => ?_, h.edge⟩
    obtain rfl := Option.some.inj hnd
    cases hn : sl.node with
    | none => exact ⟨rfl, PropertyTable.paired_init⟩
    | some old => exact ⟨(h.node old hn).1, (h.node old hn).2.mergeLww⟩
  | addEdge ty src tgt ps c =>
    refine ⟨h.node, fun ed hed => ?_⟩
    obtain rfl := Option.some.inj hed
    cases he : sl.edge with
    | none => exact ⟨rfl, PropertyTable.paired_init⟩
    | some old => exact ⟨(h.edge old he).1, (h.edge old he).2.mergeLww⟩
  | update k v c =>
    rw [Slot.step]
    split
    · split <;> rename_i hn
      · refine ⟨fun nd hnd => ?_, h.edge⟩
        obtain rfl := Option.some.inj hnd
        exact ⟨(h.node _ hn).1, (h.node _ hn).2.write⟩
      · refine ⟨h.node, fun ed hed => ?_⟩
        obtain ⟨old, hold, rfl⟩ := Option.map_eq_some_iff.mp hed
        exact ⟨(h.edge old hold).1, (h.edge old hold).2.write⟩
    · exact h
  | removeNode c =>
    refine ⟨fun nd hnd => ?_, h.edge⟩
    obtain ⟨old, hold, rfl⟩ := Option.map_eq_some_iff.mp hnd
    rw [Node.remove_nodeId, Node.remove_table]
    exact h.node old hold
  | removeEdge c =>
    refine ⟨h.node, fun ed hed => ?_⟩
    obtain ⟨old, hold, rfl⟩ := Option.map_eq_some_iff.mp hed
    rw [Edge.remove_edgeId, Edge.remove_table]
    exact h.edge old hold

theorem Sound.play {evs : List Event} (h : sl.Sound id) : (sl.play o id evs).Sound id := by
  induction evs generalizing sl with
  | nil => exact h
  | cons ev evs ih => exact ih h.step

/-- Updates under the identifier of a node are updates of the node. -/
theorem play_updates_node (o : Ontology) (id : String) (nd : Node) (ed : Option Edge)
    (clock : String → HybridClock) (l : List (String × Value)) :
    ∃ nd', (⟨some nd, ed⟩ : Slot).play o id (l.map fun kv => .update kv.1 kv.2 (clock kv.1)) =
        ⟨some nd', ed⟩ ∧ nd'.kept = (nd.withTable (nd.table.writeAll
          (fun k v => (o.validatePropertyUpdate nd.nodeType nd.subtype k v).isOk) clock l)).kept := by
  induction l generalizing nd with
  | nil => exact ⟨nd, rfl, rfl⟩
  | cons kv l ih =>
    rw [List.map_cons, play_cons]
    cases hok : (o.validatePropertyUpdate nd.nodeType nd.subtype kv.1 kv.2).isOk with
    | false =>
      have hstep : (⟨some nd, ed⟩ : Slot).step o id (.update kv.1 kv.2 (clock kv.1)) = ⟨some nd, ed⟩ := by
        simp [step, accepts, hok]
      obtain ⟨nd', hplay, hkept⟩ := ih nd
      refine ⟨nd', by rw [hstep, hplay], hkept.trans ?_⟩
      simp [PropertyTable.writeAll, hok]
    | true =>
      have hstep : (⟨some nd, ed⟩ : Slot).step o id (.update kv.1 kv.2 (clock kv.1)) =
          ⟨some (nd.update kv.1 kv.2 (clock kv.1)), ed⟩ := by
        simp [step, accepts, hok]
      obtain ⟨nd', hplay, hkept⟩ := ih (nd.update kv.1 kv.2 (clock kv.1))
      refine ⟨nd', by rw [hstep, hplay], hkept.trans ?_⟩
      simp only [PropertyTable.writeAll, List.foldl_cons, hok, if_true]
      rfl

/-- Where no node has the identifier, they are updates of the edge. -/
theorem play_updates_edge (o : Ontology) (id : String) (ed : Edge) (clock : String → HybridClock)
    (l : List (String × Value)) :
    ∃ ed', (⟨none, some ed⟩ : Slot).play o id (l.map fun kv => .update kv.1 kv.2 (clock kv.1)) =
        ⟨none, some ed'⟩ ∧ ed'.kept = (ed.withTable (ed.table.writeAll
          (fun k v => (o.validateEdgePropertyUpdate ed.edgeType k v).isOk) clock l)).kept := by
  induction l generalizing ed with
  | nil => exact ⟨ed, rfl, rfl⟩
  | cons kv l ih =>
    rw [List.map_cons, play_cons]
    cases hok : (o.validateEdgePropertyUpdate ed.edgeType kv.1 kv.2).isOk with
    | false =>
      have hstep : (⟨none, some ed⟩ : Slot).step o id (.update kv.1 kv.2 (clock kv.1)) =
          ⟨none, some ed⟩ := by
        simp [step, accepts, hok]
      obtain ⟨ed', hplay, hkept⟩ := ih ed
      refine ⟨ed', by rw [hstep, hplay], hkept.trans ?_⟩
      simp [PropertyTable.writeAll, hok]
    | true =>
      have hstep : (⟨none, some ed⟩ : Slot).step o id (.update kv.1 kv.2 (clock kv.1)) =
          ⟨none, some (ed.update kv.1 kv.2 (clock kv.1))⟩ := by
        simp [step, accepts, hok]
      obtain ⟨ed', hplay, hkept⟩ := ih (ed.update kv.1 kv.2 (clock kv.1))
      refine ⟨ed', by rw [hstep, hplay], hkept.trans ?_⟩
      simp only [PropertyTable.writeAll, List.foldl_cons, hok, if_true]
      rfl

/-- In an empty slot they do nothing. -/
theorem play_updates_empty (o : Ontology) (id : String) (t : PropertyTable) (author : String)
    (last : HybridClock) : (⟨none, none⟩ : Slot).play o id (t.updates author last) = ⟨none, none⟩ := by
  rw [PropertyTable.updates]
  induction t.properties.toList with
  | nil => rfl
  | cons kv l ih => exact ih

/-- A node is restored in an empty slot. -/
theorem play_restoring_node (o : Ontology) (nd : Node) (author : String) :
    ∃ nd', (⟨none, none⟩ : Slot).play o nd.nodeId (nd.restoring o author) = ⟨nd', none⟩ ∧
      nd'.map Node.kept = nd.restored o author := by
  rw [Node.restoring, Node.restored, play_append]
  split
  · obtain ⟨nd', hplay, hkept⟩ := play_updates_node o nd.nodeId (Node.create nd.nodeId nd.nodeType
      nd.subtype nd.label ∅ (nd.lastAddClock.stamped author)) none
      (fun k => (nd.propertyClocks[k]?.getD nd.lastClock).stamped author) nd.properties.toList
    exact ⟨some nd', hplay, congrArg some hkept⟩
  · exact ⟨none, play_updates_empty .., rfl⟩

/-- An edge is restored in a slot without an edge; if there is a node, the updates are its. -/
theorem play_restoring_edge (o : Ontology) (nd : Option Node) (ed : Edge) (accepted : Bool)
    (author : String) :
    ∃ nd' ed', (⟨nd, none⟩ : Slot).play o ed.edgeId (ed.restoring accepted author) = ⟨nd', ed'⟩ ∧
      (nd = none → nd' = none ∧ ed'.map Edge.kept = ed.restored o accepted author) ∧
      (nd.isSome → ed'.map Edge.kept = if accepted then some (Edge.create ed.edgeId ed.edgeType ed.sourceId
        ed.targetId ∅ (ed.lastAddClock.stamped author)).kept else none) := by
  let clock : String → HybridClock := fun k => (ed.propertyClocks[k]?.getD ed.lastClock).stamped author
  let bare := Edge.create ed.edgeId ed.edgeType ed.sourceId ed.targetId ∅ (ed.lastAddClock.stamped author)
  rw [Edge.restoring, Edge.restored, play_append]
  cases nd with
  | none =>
    cases accepted with
    | true =>
      obtain ⟨ed', hplay, hkept⟩ := play_updates_edge o ed.edgeId bare clock ed.properties.toList
      exact ⟨none, some ed', hplay, fun _ => ⟨rfl, congrArg some hkept⟩, nofun⟩
    | false => exact ⟨none, none, play_updates_empty .., fun _ => ⟨rfl, rfl⟩, nofun⟩
  | some nd =>
    cases accepted with
    | true =>
      obtain ⟨nd', hplay, -⟩ := play_updates_node o ed.edgeId nd (some bare) clock ed.properties.toList
      exact ⟨some nd', some bare, hplay, nofun, fun _ => rfl⟩
    | false =>
      obtain ⟨nd', hplay, -⟩ := play_updates_node o ed.edgeId nd none clock ed.properties.toList
      exact ⟨some nd', none, hplay, nofun, fun _ => rfl⟩

/-- An edge without properties leaves the node alone. -/
theorem play_restoring_bare (o : Ontology) (nd : Option Node) {ed : Edge} (hp : ed.properties = ∅)
    (author : String) : (⟨nd, none⟩ : Slot).play o ed.edgeId (ed.restoring true author) =
      ⟨nd, some (Edge.create ed.edgeId ed.edgeType ed.sourceId ed.targetId ∅
        (ed.lastAddClock.stamped author))⟩ := by
  have hnil : ed.table.updates author ed.lastClock = [] := by
    rw [PropertyTable.updates, List.map_eq_nil_iff]
    exact Std.ExtTreeMap.toList_eq_nil_iff.mpr hp
  rw [Edge.restoring, hnil, if_pos rfl]
  rfl

/-- The slot is the given one but for `last_clock`. -/
def Keeps (self : Slot) (nd : Option Node) (ed : Option Edge) : Prop :=
  self.node.map Node.kept = nd.map Node.kept ∧ self.edge.map Edge.kept = ed.map Edge.kept

/-- The events that restore what a slot holds. -/
def restoring (o : Ontology) (author : String) (accepted : Bool) (nd : Option Node) (ed : Option Edge) :
    List Event :=
  nd.elim [] (Node.restoring · o author) ++ ed.elim [] (Edge.restoring · accepted author)

/-- **When a slot comes back**: its node and its edge do, and an edge that has the identifier
of a node has no properties. -/
theorem restored_iff {nd : Option Node} {ed : Option Edge} {accepted : Bool}
    (hn : ∀ n ∈ nd, n.nodeId = id ∧ n.table.Paired ∧ n.tombstoned = false)
    (he : ∀ e ∈ ed, e.edgeId = id ∧ e.table.Paired ∧ e.tombstoned = false) :
    ((⟨none, none⟩ : Slot).play o id (restoring o author accepted nd ed)).Keeps nd ed ↔
      (∀ n ∈ nd, n.Restorable o author) ∧ (∀ e ∈ ed, accepted = true ∧ e.Restorable o author) ∧
        ∀ n ∈ nd, ∀ e ∈ ed, e.properties = ∅ := by
  rw [restoring, play_append]
  cases nd with
  | none =>
    cases ed with
    | none => simp [Keeps]
    | some ed =>
      obtain ⟨rfl, hpaired, hlive⟩ := he ed rfl
      obtain ⟨nd', ed', hplay, hnone, -⟩ := play_restoring_edge o none ed accepted author
      obtain ⟨rfl, hkept⟩ := hnone rfl
      have hplay' : ((⟨none, none⟩ : Slot).play o ed.edgeId []).play o ed.edgeId
          (ed.restoring accepted author) = ⟨none, ed'⟩ := hplay
      simp only [Option.elim_none, Option.elim_some, hplay', Keeps, hkept, Option.map_some]
      rw [Edge.restored_eq_iff hpaired hlive]
      simp
  | some nd =>
    obtain ⟨rfl, hpaired, hlive⟩ := hn nd rfl
    obtain ⟨nd', hplay, hkept⟩ := play_restoring_node o nd author
    simp only [Option.elim_some, hplay]
    cases ed with
    | none =>
      simp only [Option.elim_none, play_nil, Keeps, hkept, Option.map_some]
      rw [Node.restored_eq_iff hpaired hlive]
      simp
    | some ed =>
      obtain ⟨hid, hedPaired, hedLive⟩ := he ed rfl
      obtain ⟨nd'', ed', hplay', hnone, hsome⟩ := play_restoring_edge o nd' ed accepted author
      rw [hid] at hplay'
      simp only [Option.elim_some, hplay', Keeps, Option.map_some]
      constructor
      · rintro ⟨hnode, hedge⟩
        have hthere : nd'.isSome = true := by
          rw [← Option.not_isNone, Bool.not_eq_true', ← Bool.not_eq_true, Option.isNone_iff_eq_none]
          rintro rfl
          rw [(hnone rfl).1] at hnode
          cases hnode
        rw [hsome hthere] at hedge
        cases accepted with
        | false => cases hedge
        | true =>
          have hbare : ed.table = ⟨∅, ∅⟩ :=
            congrArg Edge.table (Option.some.inj hedge).symm
          have hempty : ed.properties = ∅ := congrArg PropertyTable.properties hbare
          have hadd : ed.lastAddClock.stamped author = ed.lastAddClock :=
            congrArg Edge.lastAddClock (Option.some.inj hedge)
          rw [← hid, play_restoring_bare o nd' hempty] at hplay'
          obtain rfl : nd' = nd'' := congrArg Slot.node hplay'
          refine ⟨fun n hn => ?_, fun e he => ?_, fun n hn e he => ?_⟩
          · obtain rfl := Option.some.inj hn
            exact (Node.restored_eq_iff hpaired hlive).mp (hkept.symm.trans hnode)
          · obtain rfl := Option.some.inj he
            refine ⟨rfl, HybridClock.stamped_eq_iff.mp hadd, fun k v c hk => ?_⟩
            rw [hbare] at hk
            simp [PropertyTable.cell] at hk
          · obtain rfl := Option.some.inj he
            exact hempty
      · rintro ⟨hnr, her, hempty⟩
        obtain ⟨rfl, hr⟩ := her ed rfl
        have hedEmpty := hempty nd rfl ed rfl
        rw [← hid, play_restoring_bare o nd' hedEmpty] at hplay'
        obtain rfl : nd' = nd'' := congrArg Slot.node hplay'
        obtain rfl := congrArg Slot.edge hplay'
        refine ⟨hkept.trans ((Node.restored_eq_iff hpaired hlive).mpr (hnr nd rfl)), congrArg some ?_⟩
        have hadd := HybridClock.stamped_eq_iff.mpr hr.addClock
        exact Edge.ext_table rfl rfl rfl rfl (hedPaired.eq_empty hedEmpty).symm hadd hadd hedLive.symm

/-- What is in the slot is live and has the types of the given node and edge. -/
structure Within (nd : Option Node) (ed : Option Edge) (sl : Slot) : Prop where
  node : ∀ x ∈ sl.node, x.tombstoned = false ∧
    ∃ n ∈ nd, x.nodeType = n.nodeType ∧ x.subtype = n.subtype
  edge : ∀ x ∈ sl.edge, x.tombstoned = false ∧ ∃ e ∈ ed, x.edgeType = e.edgeType

/-- The event removes nothing, and adds nothing but the given node and edge. -/
def Restores (nd : Option Node) (ed : Option Edge) : Event → Prop
  | .addNode nodeType subtype _ _ _ => ∃ n ∈ nd, nodeType = n.nodeType ∧ subtype = n.subtype
  | .addEdge edgeType _ _ _ _ => ∃ e ∈ ed, edgeType = e.edgeType
  | .update .. => True
  | .removeNode _ | .removeEdge _ => False

variable {nd : Option Node} {ed : Option Edge}

theorem Within.step (h : sl.Within nd ed) (hev : Restores nd ed ev) : (sl.step o id ev).Within nd ed := by
  cases ev with
  | addNode ty st lb ps c =>
    refine ⟨fun x hx => ?_, h.edge⟩
    obtain rfl := Option.some.inj hx
    cases hn : sl.node with
    | none => exact ⟨rfl, hev⟩
    | some old =>
      obtain ⟨-, n, hnd, hty, hst⟩ := h.node old hn
      obtain ⟨n', hnd', -, hst'⟩ := hev
      obtain rfl : n = n' := Option.some.inj (hnd.symm.trans hnd')
      refine ⟨rfl, n, hnd, hty, ?_⟩
      change (old.readd st lb ps c).subtype = n.subtype
      rw [Node.readd_subtype, hst, hst', ite_self]
  | addEdge ty src tgt ps c =>
    refine ⟨h.node, fun x hx => ?_⟩
    obtain rfl := Option.some.inj hx
    cases he : sl.edge with
    | none => exact ⟨rfl, hev⟩
    | some old => exact ⟨rfl, (h.edge old he).2⟩
  | update k v c =>
    rw [Slot.step]
    split
    · split <;> rename_i hn
      · refine ⟨fun x hx => ?_, h.edge⟩
        obtain rfl := Option.some.inj hx
        obtain ⟨hlive, n, hnd, htypes⟩ := h.node _ hn
        exact ⟨hlive, n, hnd, htypes⟩
      · refine ⟨h.node, fun x hx => ?_⟩
        obtain ⟨old, hold, rfl⟩ := Option.map_eq_some_iff.mp hx
        exact h.edge old hold
    · exact h
  | removeNode => exact hev.elim
  | removeEdge => exact hev.elim

theorem Within.play {evs : List Event} (h : sl.Within nd ed) (hevs : ∀ ev ∈ evs, Restores nd ed ev) :
    (sl.play o id evs).Within nd ed := by
  induction evs generalizing sl with
  | nil => exact h
  | cons ev evs ih =>
    exact ih (h.step (hevs ev List.mem_cons_self)) fun x hx => hevs x (List.mem_cons_of_mem ev hx)

/-- An update is accepted in such a slot if the node accepts it, or else the edge. -/
theorem Within.accepts {k : String} {v : Value} (h : sl.Within nd ed)
    (hn : ∀ n ∈ nd, (o.validatePropertyUpdate n.nodeType n.subtype k v).isOk = true)
    (he : sl.edge.isSome = true → ∀ e ∈ ed, (o.validateEdgePropertyUpdate e.edgeType k v).isOk = true) :
    sl.accepts o k v = true := by
  rw [Slot.accepts]
  cases hsn : sl.node with
  | some x =>
    obtain ⟨-, n, hnd, hty, hst⟩ := h.node x hsn
    simp only [hty, hst]
    exact hn n hnd
  | none =>
    cases hse : sl.edge with
    | none => rfl
    | some x =>
      obtain ⟨-, e, hed, hty⟩ := h.edge x hse
      simp only [hty]
      exact he (by rw [hse]; rfl) e hed

end Slot

namespace MaterializedGraph

/-- The slots of a graph are sound. -/
theorem sound_invariant [Crates] : Invariant fun g => ∀ id, (g.slot id).Sound id where
  start o _ _ id := by
    have hempty : ((new o).slot id) = ⟨none, none⟩ := by simp [slot, new]
    exact hempty ▸ Slot.sound_empty
  entry := by
    intro g σ e mode hplain h id
    obtain he | ⟨extension, hp⟩ := ordinary_or_extension hplain
    · rw [slot_applyInner g σ he mode true]
      exact (h id).play
    · rw [slot_of_extend hp]
      exact h id
  adopt _ h := h
  release _ h := h

/-! ### The operations of a checkpoint -/

variable [Crates] {g : MaterializedGraph} {σ : HashOrder} {o : Ontology} {author : String}
  {ocs : List (GraphOp × HybridClock)}

/-- The entry that is made of an operation of a checkpoint. -/
def opEntry (author : String) (oc : GraphOp × HybridClock) : Entry :=
  .new oc.1 [] [] (oc.2.stamped author) author

/-- Replay operations of a checkpoint that bring no ontology. -/
def replayOps (σ : HashOrder) (author : String) (self : MaterializedGraph)
    (ocs : List (GraphOp × HybridClock)) : MaterializedGraph :=
  ocs.foldl (fun g oc => g.applyInner σ (opEntry author oc) .skipRequired true) self

/-- A checkpoint finds the clock of an operation at its place. -/
theorem applyOps_eq_replayOps (σ : HashOrder) (adopt : Bool) (e : Entry) (before : List (ℕ × ℕ))
    (hplain : ∀ oc ∈ ocs, oc.1.isDefineOntology = false) (g : MaterializedGraph) :
    applyOps σ adopt e (before ++ ocs.map fun oc => oc.2.asTuple) (ocs.map Prod.fst) before.length g =
      g.replayOps σ e.author ocs := by
  induction ocs generalizing before g with
  | nil => rw [List.map_nil, List.map_nil, applyOps, replayOps, List.foldl_nil]
  | cons oc ocs ih =>
    have hclock : opClock e (before ++ (oc :: ocs).map fun oc => oc.2.asTuple) before.length =
        oc.2.stamped e.author := by
      rw [opClock, List.getElem?_append_right le_rfl, Nat.sub_self]
      rfl
    have hrest := ih (before ++ [oc.2.asTuple]) (fun x hx => hplain x (List.mem_cons_of_mem oc hx))
      (g.applyInner σ (opEntry e.author oc) .skipRequired true)
    rw [List.append_assoc, List.singleton_append, List.length_append, List.length_singleton] at hrest
    rw [List.map_cons (f := Prod.fst), applyOps_cons, applyOps_singleton (hplain oc List.mem_cons_self),
      hclock]
    exact hrest

/-- **Run.** Operations that complete no held edge and mean the same events in every state that
they come to: their events are played, and if they are accepted nothing is quarantined. -/
theorem replayOps_spec {S : MaterializedGraph → Prop} {E : GraphOp × HybridClock → List (String × Event)}
    (ordinary : ∀ oc ∈ ocs, (opEntry author oc).Ordinary)
    (ontology : ∀ g, S g → g.ontology = o) (held : ∀ g, S g → g.HeldByHash)
    (alone : ∀ g, S g → ∀ oc ∈ ocs, g.retried σ .skipRequired (opEntry author oc) = [])
    (events : ∀ g, S g → ∀ oc ∈ ocs, g.ownEvents .skipRequired (opEntry author oc) = E oc)
    (keeps : ∀ g, S g → ∀ oc ∈ ocs, S (g.applyInner σ (opEntry author oc) .skipRequired true))
    (h : S g) : S (g.replayOps σ author ocs) ∧
      (∀ id, (g.replayOps σ author ocs).slot id =
        (g.slot id).play o id (eventsAt id (ocs.flatMap E))) ∧
      ((∀ g, S g → ∀ oc ∈ ocs, g.accepts .skipRequired oc.1 = true) →
        ∀ x ∈ (g.replayOps σ author ocs).quarantined, x ∈ g.quarantined) := by
  induction ocs generalizing g with
  | nil => exact ⟨h, fun _ => rfl, fun _ _ hx => hx⟩
  | cons oc ocs ih =>
    have hord := ordinary oc List.mem_cons_self
    have hstep := keeps g h oc List.mem_cons_self
    have halone := alone g h oc List.mem_cons_self
    obtain ⟨hS, hslot, hquarantined⟩ := ih (fun x hx => ordinary x (List.mem_cons_of_mem oc hx))
      (fun g hg x hx => alone g hg x (List.mem_cons_of_mem oc hx))
      (fun g hg x hx => events g hg x (List.mem_cons_of_mem oc hx))
      (fun g hg x hx => keeps g hg x (List.mem_cons_of_mem oc hx)) hstep
    refine ⟨hS, fun id => (hslot id).trans ?_, fun hacc x hx => ?_⟩
    · rw [slot_applyInner g σ hord, events_eq, halone, List.flatMap_nil, List.append_nil,
        events g h oc List.mem_cons_self, ontology g h, List.flatMap_cons, eventsAt_append, Slot.play_append]
    · have hx' := hquarantined (fun g hg y hy => hacc g hg y (List.mem_cons_of_mem oc hy)) x hx
      rw [mem_quarantined_applyInner (held g h) σ hord] at hx'
      obtain ⟨p, hp, -⟩ | ⟨-, hx'⟩ := hx'
      · rw [halone] at hp
        cases hp
      · split at hx'
        · have hok : g.accepts .skipRequired (opEntry author oc).payload = true :=
            hacc g h oc List.mem_cons_self
          rw [hok] at hx'
          cases hx'
        · exact hx'

end MaterializedGraph

end SilkGraph
