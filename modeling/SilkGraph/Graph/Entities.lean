import SilkGraph.Graph.Tables

/-!
# Nodes and edges under operations

The record of one node or edge under adds, updates and removals: which operations commute,
and which ones a record absorbs because it has seen later ones. A removal is the odd one
out: it takes effect only after the last add, and it sets `last_clock` back to its own clock,
so it commutes with an add or an update only if it has no effect or comes last.
-/

namespace SilkGraph

namespace Node

variable {nd : Node} {st st₁ st₂ : Option String} {lb lb₁ lb₂ k k₁ k₂ : String}
  {ps ps₁ ps₂ : BTreeMap String Value} {v v₁ v₂ : Value} {c c₁ c₂ r u : HybridClock}

@[simp] theorem readd_nodeId : (nd.readd st lb ps c).nodeId = nd.nodeId := rfl
@[simp] theorem readd_nodeType : (nd.readd st lb ps c).nodeType = nd.nodeType := rfl
@[simp] theorem readd_tombstoned : (nd.readd st lb ps c).tombstoned = false := rfl
@[simp] theorem readd_table : (nd.readd st lb ps c).table = nd.table.mergeLww ps c := rfl
@[simp] theorem update_nodeId : (nd.update k v c).nodeId = nd.nodeId := rfl
@[simp] theorem update_nodeType : (nd.update k v c).nodeType = nd.nodeType := rfl
@[simp] theorem update_subtype : (nd.update k v c).subtype = nd.subtype := rfl
@[simp] theorem update_tombstoned : (nd.update k v c).tombstoned = nd.tombstoned := rfl
@[simp] theorem update_table : (nd.update k v c).table = nd.table.write k v c := rfl
@[simp] theorem update_lastAddClock : (nd.update k v c).lastAddClock = nd.lastAddClock := rfl

@[simp]
theorem readd_lastAddClock : (nd.readd st lb ps c).lastAddClock = max nd.lastAddClock c :=
  laterClock_eq_max ..

@[simp]
theorem readd_lastClock : (nd.readd st lb ps c).lastClock = max nd.lastClock c :=
  laterClock_eq_max ..

@[simp]
theorem readd_label : (nd.readd st lb ps c).label = if nd.lastClock < c then lb else nd.label := by
  simp [readd]

@[simp]
theorem readd_subtype :
    (nd.readd st lb ps c).subtype = if nd.lastClock < c then st else nd.subtype := by
  simp [readd]

@[simp]
theorem update_lastClock : (nd.update k v c).lastClock = max nd.lastClock c :=
  laterClock_eq_max ..

@[simp] theorem update_label : (nd.update k v c).label = nd.label := rfl

theorem remove_of_lt (h : nd.lastAddClock < r) :
    nd.remove r = { nd with tombstoned := true, lastClock := r } := by
  simp [remove, h]

theorem remove_of_le (h : r ≤ nd.lastAddClock) : nd.remove r = nd := by
  simp [remove, h]

@[simp]
theorem remove_nodeId : (nd.remove r).nodeId = nd.nodeId := by
  rw [remove]
  split <;> rfl

@[simp]
theorem remove_nodeType : (nd.remove r).nodeType = nd.nodeType := by
  rw [remove]
  split <;> rfl

@[simp]
theorem remove_subtype : (nd.remove r).subtype = nd.subtype := by
  rw [remove]
  split <;> rfl

@[simp]
theorem remove_label : (nd.remove r).label = nd.label := by
  rw [remove]
  split <;> rfl

@[simp]
theorem remove_table : (nd.remove r).table = nd.table := by
  rw [remove]
  split <;> rfl

@[simp]
theorem remove_lastAddClock : (nd.remove r).lastAddClock = nd.lastAddClock := by
  rw [remove]
  split <;> rfl

/-- Two nodes are equal if they agree field by field, the properties as tables. -/
theorem ext_table {a b : Node} (hid : a.nodeId = b.nodeId) (hty : a.nodeType = b.nodeType)
    (hst : a.subtype = b.subtype) (hlb : a.label = b.label) (htab : a.table = b.table)
    (hlast : a.lastClock = b.lastClock) (hadd : a.lastAddClock = b.lastAddClock)
    (htomb : a.tombstoned = b.tombstoned) : a = b := by
  obtain ⟨hp, hc⟩ := PropertyTable.mk.inj htab
  exact Node.ext hid hty hst hlb hp hc hlast hadd htomb

/-! ### Which operations commute -/

theorem readd_comm (h : c₁ ≠ c₂) :
    (nd.readd st₁ lb₁ ps₁ c₁).readd st₂ lb₂ ps₂ c₂ =
      (nd.readd st₂ lb₂ ps₂ c₂).readd st₁ lb₁ ps₁ c₁ := by
  refine ext_table rfl rfl ?_ ?_ (PropertyTable.mergeLww_comm h) ?_ ?_ rfl <;> simp <;> grind

/-- A new node and an add of the same type: either may come first. -/
theorem create_readd_comm {id ty : String} (h : c₁ ≠ c₂) :
    (create id ty st₁ lb₁ ps₁ c₁).readd st₂ lb₂ ps₂ c₂ =
      (create id ty st₂ lb₂ ps₂ c₂).readd st₁ lb₁ ps₁ c₁ := by
  have htab : ∀ (st : Option String) (lb : String) (ps : BTreeMap String Value) (c : HybridClock),
      (create id ty st lb ps c).table = PropertyTable.mergeLww ⟨∅, ∅⟩ ps c := fun st lb ps c =>
    PropertyTable.init_eq ps c
  refine ext_table rfl rfl ?_ ?_ ?_ ?_ ?_ rfl
  · simp only [readd_subtype, create]
    grind
  · simp only [readd_label, create]
    grind
  · rw [readd_table, readd_table, htab, htab, PropertyTable.mergeLww_comm h]
  · simp only [readd_lastClock, create, max_comm]
  · simp only [readd_lastAddClock, create, max_comm]

theorem update_comm (h : k₁ ≠ k₂ ∨ c₁ ≠ c₂) :
    (nd.update k₁ v₁ c₁).update k₂ v₂ c₂ = (nd.update k₂ v₂ c₂).update k₁ v₁ c₁ := by
  refine ext_table rfl rfl rfl rfl (PropertyTable.write_comm h) ?_ rfl rfl
  simp [max_right_comm]

/-- An update older than the add it is next to. -/
theorem readd_update_comm (h : u < c) :
    (nd.readd st lb ps c).update k v u = (nd.update k v u).readd st lb ps c := by
  refine ext_table rfl rfl ?_ ?_ (PropertyTable.mergeLww_write_comm h.ne') ?_ rfl rfl
  · simp only [update_subtype, readd_subtype, update_lastClock]
    grind
  · simp only [update_label, readd_label, update_lastClock]
    grind
  · simp [max_right_comm]

/-- An add that beats everything the node has seen and the removal it is next to. -/
theorem readd_remove_comm (h : r < c) (hlast : nd.lastClock < c) :
    (nd.readd st lb ps c).remove r = (nd.remove r).readd st lb ps c := by
  have hle : r ≤ (nd.readd st lb ps c).lastAddClock := by simp [h.le]
  rw [remove_of_le hle]
  rcases lt_or_ge nd.lastAddClock r with hr | hr
  · rw [remove_of_lt hr]
    refine ext_table rfl rfl ?_ ?_ rfl ?_ ?_ rfl
    · simp [h, hlast]
    · simp [h, hlast]
    · simp [h.le, hlast.le]
    · simp
  · rw [remove_of_le hr]

/-- An update no later than the removal it is next to. -/
theorem update_remove_comm (h : u ≤ r) :
    (nd.update k v u).remove r = (nd.remove r).update k v u := by
  rcases lt_or_ge nd.lastAddClock r with hr | hr
  · have hr' : (nd.update k v u).lastAddClock < r := hr
    rw [remove_of_lt hr', remove_of_lt hr]
    refine ext_table rfl rfl rfl rfl rfl ?_ rfl rfl
    simp [h]
  · have hr' : r ≤ (nd.update k v u).lastAddClock := hr
    rw [remove_of_le hr', remove_of_le hr]

/-! ### What a node has absorbed -/

/-- The node has seen an add at least as late: it is live, and label, subtype and the given
properties are decided by clocks that are no earlier. -/
def AbsorbsAdd (nd : Node) (ps : BTreeMap String Value) (c : HybridClock) : Prop :=
  nd.tombstoned = false ∧ c ≤ nd.lastAddClock ∧ c ≤ nd.lastClock ∧ nd.table.Absorbs ps c

/-- The node has seen an update of the property at least as late. -/
def AbsorbsUpdate (nd : Node) (k : String) (c : HybridClock) : Prop :=
  c ≤ nd.lastClock ∧ Covers (nd.table.cell k) c

/-- The removal comes too late for a later add, or it is the one the node has last seen. -/
def AbsorbsRemove (nd : Node) (c : HybridClock) : Prop :=
  c ≤ nd.lastAddClock ∨ nd.tombstoned = true ∧ nd.lastClock = c

theorem AbsorbsAdd.eq (h : nd.AbsorbsAdd ps c) : nd.readd st lb ps c = nd := by
  obtain ⟨htomb, hadd, hlast, htab⟩ := h
  refine ext_table rfl rfl ?_ ?_ (PropertyTable.mergeLww_eq_self htab) ?_ ?_ ?_
  · simp [not_lt.mpr hlast]
  · simp [not_lt.mpr hlast]
  · simp [hlast]
  · simp [hadd]
  · simp [htomb]

theorem AbsorbsUpdate.eq (h : nd.AbsorbsUpdate k c) : nd.update k v c = nd := by
  refine ext_table rfl rfl rfl rfl (PropertyTable.write_eq_self h.2) ?_ rfl rfl
  simp [h.1]

theorem AbsorbsRemove.eq (h : nd.AbsorbsRemove c) : nd.remove c = nd := by
  rcases h with h | ⟨htomb, hlast⟩
  · exact remove_of_le h
  · rcases lt_or_ge nd.lastAddClock c with hc | hc
    · rw [remove_of_lt hc]
      exact Node.ext rfl rfl rfl rfl rfl rfl hlast.symm rfl htomb.symm
    · exact remove_of_le hc

end Node

namespace Edge

variable {ed : Edge} {k k₁ k₂ : String} {ps ps₁ ps₂ : BTreeMap String Value} {v v₁ v₂ : Value}
  {c c₁ c₂ r u : HybridClock}

@[simp] theorem readd_edgeId : (ed.readd ps c).edgeId = ed.edgeId := rfl
@[simp] theorem readd_edgeType : (ed.readd ps c).edgeType = ed.edgeType := rfl
@[simp] theorem readd_sourceId : (ed.readd ps c).sourceId = ed.sourceId := rfl
@[simp] theorem readd_targetId : (ed.readd ps c).targetId = ed.targetId := rfl
@[simp] theorem readd_tombstoned : (ed.readd ps c).tombstoned = false := rfl
@[simp] theorem readd_table : (ed.readd ps c).table = ed.table.mergeLww ps c := rfl
@[simp] theorem update_edgeId : (ed.update k v c).edgeId = ed.edgeId := rfl
@[simp] theorem update_edgeType : (ed.update k v c).edgeType = ed.edgeType := rfl
@[simp] theorem update_sourceId : (ed.update k v c).sourceId = ed.sourceId := rfl
@[simp] theorem update_targetId : (ed.update k v c).targetId = ed.targetId := rfl
@[simp] theorem update_tombstoned : (ed.update k v c).tombstoned = ed.tombstoned := rfl
@[simp] theorem update_table : (ed.update k v c).table = ed.table.write k v c := rfl
@[simp] theorem update_lastAddClock : (ed.update k v c).lastAddClock = ed.lastAddClock := rfl

@[simp]
theorem readd_lastAddClock : (ed.readd ps c).lastAddClock = max ed.lastAddClock c :=
  laterClock_eq_max ..

@[simp]
theorem readd_lastClock : (ed.readd ps c).lastClock = max ed.lastClock c :=
  laterClock_eq_max ..

@[simp]
theorem update_lastClock : (ed.update k v c).lastClock = max ed.lastClock c :=
  laterClock_eq_max ..

theorem remove_of_lt (h : ed.lastAddClock < r) :
    ed.remove r = { ed with tombstoned := true, lastClock := r } := by
  simp [remove, h]

theorem remove_of_le (h : r ≤ ed.lastAddClock) : ed.remove r = ed := by
  simp [remove, h]

@[simp]
theorem remove_edgeId : (ed.remove r).edgeId = ed.edgeId := by
  rw [remove]
  split <;> rfl

@[simp]
theorem remove_edgeType : (ed.remove r).edgeType = ed.edgeType := by
  rw [remove]
  split <;> rfl

@[simp]
theorem remove_sourceId : (ed.remove r).sourceId = ed.sourceId := by
  rw [remove]
  split <;> rfl

@[simp]
theorem remove_targetId : (ed.remove r).targetId = ed.targetId := by
  rw [remove]
  split <;> rfl

@[simp]
theorem remove_table : (ed.remove r).table = ed.table := by
  rw [remove]
  split <;> rfl

@[simp]
theorem remove_lastAddClock : (ed.remove r).lastAddClock = ed.lastAddClock := by
  rw [remove]
  split <;> rfl

/-- Two edges are equal if they agree field by field, the properties as tables. -/
theorem ext_table {a b : Edge} (hid : a.edgeId = b.edgeId) (hty : a.edgeType = b.edgeType)
    (hsrc : a.sourceId = b.sourceId) (htgt : a.targetId = b.targetId) (htab : a.table = b.table)
    (hlast : a.lastClock = b.lastClock) (hadd : a.lastAddClock = b.lastAddClock)
    (htomb : a.tombstoned = b.tombstoned) : a = b := by
  obtain ⟨hp, hc⟩ := PropertyTable.mk.inj htab
  exact Edge.ext hid hty hsrc htgt hp hc hlast hadd htomb

theorem readd_comm (h : c₁ ≠ c₂) :
    (ed.readd ps₁ c₁).readd ps₂ c₂ = (ed.readd ps₂ c₂).readd ps₁ c₁ := by
  refine ext_table rfl rfl rfl rfl (PropertyTable.mergeLww_comm h) ?_ ?_ rfl
  · simp [max_right_comm]
  · simp [max_right_comm]

/-- A new edge and an add with the same type and endpoints: either may come first. -/
theorem create_readd_comm {id ty src tgt : String} (h : c₁ ≠ c₂) :
    (create id ty src tgt ps₁ c₁).readd ps₂ c₂ = (create id ty src tgt ps₂ c₂).readd ps₁ c₁ := by
  have htab : ∀ (ps : BTreeMap String Value) (c : HybridClock),
      (create id ty src tgt ps c).table = PropertyTable.mergeLww ⟨∅, ∅⟩ ps c := fun ps c =>
    PropertyTable.init_eq ps c
  refine ext_table rfl rfl rfl rfl ?_ ?_ ?_ rfl
  · rw [readd_table, readd_table, htab, htab, PropertyTable.mergeLww_comm h]
  · simp only [readd_lastClock, create, max_comm]
  · simp only [readd_lastAddClock, create, max_comm]

theorem update_comm (h : k₁ ≠ k₂ ∨ c₁ ≠ c₂) :
    (ed.update k₁ v₁ c₁).update k₂ v₂ c₂ = (ed.update k₂ v₂ c₂).update k₁ v₁ c₁ := by
  refine ext_table rfl rfl rfl rfl (PropertyTable.write_comm h) ?_ rfl rfl
  simp [max_right_comm]

/-- An edge keeps no label, so an update and an add need different clocks only. -/
theorem readd_update_comm (h : c ≠ u) :
    (ed.readd ps c).update k v u = (ed.update k v u).readd ps c := by
  refine ext_table rfl rfl rfl rfl (PropertyTable.mergeLww_write_comm h) ?_ rfl rfl
  simp [max_right_comm]

theorem readd_remove_comm (h : r < c) (hlast : ed.lastClock < c) :
    (ed.readd ps c).remove r = (ed.remove r).readd ps c := by
  have hle : r ≤ (ed.readd ps c).lastAddClock := by simp [h.le]
  rw [remove_of_le hle]
  rcases lt_or_ge ed.lastAddClock r with hr | hr
  · rw [remove_of_lt hr]
    refine ext_table rfl rfl rfl rfl rfl ?_ ?_ rfl
    · simp [h.le, hlast.le]
    · simp
  · rw [remove_of_le hr]

theorem update_remove_comm (h : u ≤ r) :
    (ed.update k v u).remove r = (ed.remove r).update k v u := by
  rcases lt_or_ge ed.lastAddClock r with hr | hr
  · have hr' : (ed.update k v u).lastAddClock < r := hr
    rw [remove_of_lt hr', remove_of_lt hr]
    refine ext_table rfl rfl rfl rfl rfl ?_ rfl rfl
    simp [h]
  · have hr' : r ≤ (ed.update k v u).lastAddClock := hr
    rw [remove_of_le hr', remove_of_le hr]

/-- The edge has seen an add at least as late and is live. -/
def AbsorbsAdd (ed : Edge) (ps : BTreeMap String Value) (c : HybridClock) : Prop :=
  ed.tombstoned = false ∧ c ≤ ed.lastAddClock ∧ c ≤ ed.lastClock ∧ ed.table.Absorbs ps c

/-- The edge has seen an update of the property at least as late. -/
def AbsorbsUpdate (ed : Edge) (k : String) (c : HybridClock) : Prop :=
  c ≤ ed.lastClock ∧ Covers (ed.table.cell k) c

/-- The removal comes too late for a later add, or it is the one the edge has last seen. -/
def AbsorbsRemove (ed : Edge) (c : HybridClock) : Prop :=
  c ≤ ed.lastAddClock ∨ ed.tombstoned = true ∧ ed.lastClock = c

theorem AbsorbsAdd.eq (h : ed.AbsorbsAdd ps c) : ed.readd ps c = ed := by
  obtain ⟨htomb, hadd, hlast, htab⟩ := h
  refine ext_table rfl rfl rfl rfl (PropertyTable.mergeLww_eq_self htab) ?_ ?_ ?_
  · simp [hlast]
  · simp [hadd]
  · simp [htomb]

theorem AbsorbsUpdate.eq (h : ed.AbsorbsUpdate k c) : ed.update k v c = ed := by
  refine ext_table rfl rfl rfl rfl (PropertyTable.write_eq_self h.2) ?_ rfl rfl
  simp [h.1]

theorem AbsorbsRemove.eq (h : ed.AbsorbsRemove c) : ed.remove c = ed := by
  rcases h with h | ⟨htomb, hlast⟩
  · exact remove_of_le h
  · rcases lt_or_ge ed.lastAddClock c with hc | hc
    · rw [remove_of_lt hc]
      exact Edge.ext rfl rfl rfl rfl rfl rfl hlast.symm rfl htomb.symm
    · exact remove_of_le hc

end Edge

end SilkGraph
