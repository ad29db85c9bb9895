import SilkGraph.Graph.Kinds
import SilkGraph.Graph.Inert

/-!
# The property writes of an entity

Two paths of the code write properties: adds merge a map, updates write one value. On the
table of an entity both are the same: each key that the entry names gets its value at its
clock (`table_apply`). So a key ends with the greatest write to it, or with what was there if
that is no older (`IsLatest`), whatever the order and the repetitions.
-/

namespace SilkGraph

/-! ### One key -/

/-- The cell holds the greatest of the writes, if it is later than what was held, and else
what was held. -/
inductive IsLatest (held : Cell) (W : Value → HybridClock → Prop) : Cell → Prop where
  | written {v : Value} {c : HybridClock} (write : W v c) (later : ∀ c' ∈ held.2, c' < c)
      (greatest : ∀ v' c', W v' c' → c' ≤ c) : IsLatest held W (some v, some c)
  | held (covered : ∀ v c, W v c → Covers held c) : IsLatest held W held

section Cells

variable {held p p' : Cell} {W W' : Value → HybridClock → Prop} {v : Value} {c : HybridClock}

theorem IsLatest.congr (h : IsLatest held W p) (hW : ∀ v c, W' v c ↔ W v c) : IsLatest held W' p := by
  obtain rfl : W' = W := funext fun v => funext fun c => propext (hW v c)
  exact h

/-- **Step.** One write more. -/
theorem IsLatest.write (h : IsLatest held W p) (v : Value) (c : HybridClock) :
    IsLatest held (fun v' c' => W v' c' ∨ v' = v ∧ c' = c) (writeCell p v c) := by
  cases h with
  | @written v₀ c₀ write later greatest =>
    by_cases hlt : c₀ < c
    · rw [writeCell, if_pos (by simpa using hlt)]
      refine .written (.inr ⟨rfl, rfl⟩) (fun c' hc' => (later c' hc').trans hlt) ?_
      rintro v' c' (hw | ⟨-, rfl⟩)
      · exact (greatest v' c' hw).trans hlt.le
      · exact le_rfl
    · rw [writeCell, if_neg (by simpa using hlt)]
      refine .written (.inl write) later ?_
      rintro v' c' (hw | ⟨-, rfl⟩)
      · exact greatest v' c' hw
      · exact not_lt.mp hlt
  | held covered =>
    by_cases hlt : ∀ c' ∈ held.2, c' < c
    · rw [writeCell, if_pos hlt]
      refine .written (.inr ⟨rfl, rfl⟩) hlt ?_
      rintro v' c' (hw | ⟨-, rfl⟩)
      · obtain ⟨c₀, hc₀, hle⟩ := covered v' c' hw
        exact hle.trans (hlt c₀ hc₀).le
      · exact le_rfl
    · rw [writeCell, if_neg hlt]
      refine .held ?_
      rintro v' c' (hw | ⟨-, rfl⟩)
      · exact covered v' c' hw
      · push Not at hlt
        exact hlt

/-- Writes that can be told apart by their clocks have one latest cell. -/
theorem IsLatest.unique (h : IsLatest held W p) (h' : IsLatest held W p')
    (told : ∀ v v' c, W v c → W v' c → v = v') : p = p' := by
  have hclash : ∀ {v : Value} {c : HybridClock}, W v c → (∀ c' ∈ held.2, c' < c) →
      ¬ ∀ v c, W v c → Covers held c := fun hw later covered => by
    obtain ⟨c₀, hc₀, hle⟩ := covered _ _ hw
    exact absurd (later c₀ hc₀) (not_lt.mpr hle)
  cases h with
  | @written v c write later greatest =>
    cases h' with
    | @written v' c' write' _ greatest' =>
      obtain rfl := le_antisymm (greatest' v c write) (greatest v' c' write')
      rw [told v v' c write write']
    | held covered => exact absurd covered (hclash write later)
  | held covered =>
    cases h' with
    | @written v' c' write' later' _ => exact absurd covered (hclash write' later')
    | held => rfl

end Cells

/-! ### The entries that write -/

namespace GraphOp

/-- The value that an operation writes under a key. -/
def writes (key : String) : GraphOp → Option Value
  | .addNode _ _ _ _ properties => properties[key]?
  | .addEdge _ _ _ _ properties => properties[key]?
  | .updateProperty _ k value => if k = key then some value else none
  | _ => none

end GraphOp

/-- Some entry writes the value under the key at the clock. -/
def WrittenBy (es : List Entry) (key : String) (value : Value) (clock : HybridClock) : Prop :=
  ∃ e ∈ es, e.payload.writes key = some value ∧ e.clock = clock

namespace MaterializedGraph

/-- The property table of an entity. -/
def tableOf (self : MaterializedGraph) (id : String) : EntityKind → Option PropertyTable
  | .node => self.nodes[id]?.map Node.table
  | .edge => self.edges[id]?.map Edge.table

/-- The operation is a property write to the entity: an add of it, or an update of its
identifier. An update goes to the node of an identifier, and to the edge only if there is no
node. -/
def WritesTo (self : MaterializedGraph) (kind : EntityKind) (id : String) (op : GraphOp) : Prop :=
  op.adds kind id = true ∨ op.updates id = true ∧ (kind = .edge → self.nodes[id]? = none)

variable [Crates]

/-- Every entry is accepted by the graph it comes to. -/
def validates (σ : HashOrder) : MaterializedGraph → List Entry → Bool
  | _, [] => true
  | self, e :: es => self.accepts .full e.payload && validates σ (self.apply σ e) es

variable {g : MaterializedGraph} {σ : HashOrder} {e a : Entry} {es es' : List Entry}
  {kind : EntityKind} {id k : String} {t : PropertyTable}

omit [Crates] in
theorem WritesTo.concerns {op : GraphOp} (h : g.WritesTo kind id op) : op.concerns kind id = true := by
  rw [GraphOp.concerns]
  obtain h | ⟨h, -⟩ := h <;> simp [h]

/-- **Step.** What an accepted write does to the table of its entity, key by key. -/
theorem table_apply (ht : g.tableOf id kind = some t) (hw : g.WritesTo kind id e.payload)
    (hv : g.accepts .full e.payload = true) :
    ∃ t', (g.apply σ e).tableOf id kind = some t' ∧
      ∀ k, t'.cell k = PropertyTable.mergeCell (t.cell k) (e.payload.writes k) e.clock := by
  have hc := hw.concerns
  obtain ⟨ev, hev, -⟩ := ownEvents_of_concerns hc fun _ => hv
  have hnode : ∀ g : MaterializedGraph, g.tableOf id .node = (g.slot id).node.map Node.table := fun g => rfl
  have hedge : ∀ g : MaterializedGraph, g.tableOf id .edge = (g.slot id).edge.map Edge.table := fun g => rfl
  have hupdate : ∀ (t : PropertyTable) (key : String) (v : Value) (k : String),
      (t.write key v e.clock).cell k =
        PropertyTable.mergeCell (t.cell k) ((GraphOp.updateProperty id key v).writes k) e.clock := by
    intro t key v k
    rw [PropertyTable.cell_write, GraphOp.writes]
    split <;> rfl
  obtain ⟨rfl, ty, st, lb, ps, hp⟩ | ⟨rfl, ty, src, tgt, ps, hp⟩ | ⟨rfl, hp⟩ | ⟨rfl, hp⟩ | ⟨key, v, hp⟩ :=
    GraphOp.concerns_cases hc
  · obtain rfl : .addNode ty st lb ps e.clock = ev := by simpa [Entry.event, hp] using hev
    rw [hnode] at ht
    obtain ⟨nd, hnd, rfl⟩ := Option.map_eq_some_iff.mp ht
    refine ⟨nd.table.mergeLww ps e.clock, ?_, fun k => ?_⟩
    · rw [hnode, node_apply hc (fun _ => hv) hev, Slot.step, hnd]
      rfl
    · rw [PropertyTable.cell_mergeLww, hp, GraphOp.writes]
  · obtain rfl : .addEdge ty src tgt ps e.clock = ev := by simpa [Entry.event, hp] using hev
    rw [hedge] at ht
    obtain ⟨ed, hed, rfl⟩ := Option.map_eq_some_iff.mp ht
    refine ⟨ed.table.mergeLww ps e.clock, ?_, fun k => ?_⟩
    · rw [hedge, slot_apply_edge hc (fun _ => hv) hev, Slot.step, hed]
      rfl
    · rw [PropertyTable.cell_mergeLww, hp, GraphOp.writes]
  · exact absurd hw (by simp [WritesTo, hp, GraphOp.adds, GraphOp.updates])
  · exact absurd hw (by simp [WritesTo, hp, GraphOp.adds, GraphOp.updates])
  · obtain rfl : .update key v e.clock = ev := by simpa [Entry.event, hp] using hev
    rw [hp, accepts] at hv
    cases kind with
    | node =>
      rw [hnode] at ht
      obtain ⟨nd, hnd, rfl⟩ := Option.map_eq_some_iff.mp ht
      refine ⟨nd.table.write key v e.clock, ?_, fun k => by rw [hp, hupdate]⟩
      rw [hnode, node_apply hc (by simp [hp, GraphOp.adds]) hev, Slot.step, if_pos hv, hnd]
      rfl
    | edge =>
      have hno : (g.slot id).node = none := by
        obtain hadd | ⟨-, hno⟩ := hw
        · rw [hp] at hadd
          cases hadd
        · exact hno rfl
      rw [hedge] at ht
      obtain ⟨ed, hed, rfl⟩ := Option.map_eq_some_iff.mp ht
      refine ⟨ed.table.write key v e.clock, ?_, fun k => by rw [hp, hupdate]⟩
      rw [hedge, slot_apply_edge hc (by simp [hp, GraphOp.adds]) hev, Slot.step, if_pos hv, hno, hed]
      rfl

/-- A write to an entity leaves the others writes to it: no node comes up. -/
theorem WritesTo.apply (ha : g.WritesTo kind id a.payload) (hw : g.WritesTo kind id e.payload)
    (hv : g.accepts .full e.payload = true) : (g.apply σ e).WritesTo kind id a.payload := by
  obtain ha | ⟨ha, hno⟩ := ha
  · exact .inl ha
  refine .inr ⟨ha, fun hk => ?_⟩
  subst hk
  have hno : (g.slot id).node = none := hno rfl
  obtain ⟨ev, hev, -⟩ := ownEvents_of_concerns hw.concerns fun _ => hv
  have hslot := slot_apply_edge (σ := σ) hw.concerns (fun _ => hv) hev
  change ((g.apply σ e).slot id).node = none
  rw [hslot]
  obtain ⟨hk, -⟩ | ⟨-, ty, src, tgt, ps, hp⟩ | ⟨hk, -⟩ | ⟨-, hp⟩ | ⟨key, v, hp⟩ :=
    GraphOp.concerns_cases hw.concerns
  · cases hk
  · obtain rfl : .addEdge ty src tgt ps e.clock = ev := by simpa [Entry.event, hp] using hev
    exact hno
  · cases hk
  · exact absurd hw (by simp [WritesTo, hp, GraphOp.adds, GraphOp.updates])
  · obtain rfl : .update key v e.clock = ev := by simpa [Entry.event, hp] using hev
    rw [Slot.step]
    split
    · rw [hno]
    · exact hno

/-- **Run.** Each key of the table ends with the latest write. -/
theorem table_applyAll (ht : g.tableOf id kind = some t)
    (hw : ∀ e ∈ es, g.WritesTo kind id e.payload) (hv : validates σ g es = true) :
    ∃ t', (g.applyAll σ es).tableOf id kind = some t' ∧
      ∀ k held W, IsLatest held W (t.cell k) →
        IsLatest held (fun v c => W v c ∨ WrittenBy es k v c) (t'.cell k) := by
  induction es generalizing g t with
  | nil => exact ⟨t, ht, fun k held W h => h.congr fun v c => by simp [WrittenBy]⟩
  | cons e es ih =>
    rw [validates, Bool.and_eq_true] at hv
    have he := hw e List.mem_cons_self
    obtain ⟨t₁, ht₁, hcell⟩ := table_apply (σ := σ) ht he hv.1
    obtain ⟨t', ht', hlatest⟩ := ih ht₁ (fun a ha => (hw a (List.mem_cons_of_mem e ha)).apply he hv.1) hv.2
    refine ⟨t', ht', fun k held W h => ?_⟩
    have hone : IsLatest held (fun v c => W v c ∨ e.payload.writes k = some v ∧ e.clock = c) (t₁.cell k) := by
      rw [hcell]
      cases hk : e.payload.writes k with
      | none => exact h.congr fun v c => by simp
      | some w => exact (h.write w e.clock).congr fun v c => by simp [eq_comm]
    refine (hlatest k held _ hone).congr fun v c => ?_
    simp only [WrittenBy, List.mem_cons, exists_eq_or_imp]
    tauto

/-- **Properties are last-writer-wins, key by key, in any order.** Accepted writes to a node or
an edge that is there, told apart by their clocks, in two orders with any repetitions: the
table ends the same, each key with the greatest write to it or with what was there if that is
no older; a key that none names is as it was. -/
theorem property_lww_order_free (g : MaterializedGraph) (σ : HashOrder) (kind : EntityKind)
    (id : String) (t : PropertyTable) (known : g.tableOf id kind = some t) (es es' : List Entry)
    (writes : ∀ e ∈ es, g.WritesTo kind id e.payload)
    (distinct : ∀ a ∈ es, ∀ b ∈ es, a.clock = b.clock → a.payload = b.payload)
    (same : ∀ e, e ∈ es' ↔ e ∈ es) (valid : validates σ g es = true)
    (valid' : validates σ g es' = true) :
    ∃ t', (g.applyAll σ es).tableOf id kind = some t' ∧ (g.applyAll σ es').tableOf id kind = some t' ∧
      (∀ k, IsLatest (t.cell k) (WrittenBy es k) (t'.cell k)) ∧
      ∀ k, (∀ e ∈ es, e.payload.writes k = none) → t'.cell k = t.cell k := by
  have hrun : ∀ l, (∀ e, e ∈ l ↔ e ∈ es) → validates σ g l = true →
      ∃ t', (g.applyAll σ l).tableOf id kind = some t' ∧
        ∀ k, IsLatest (t.cell k) (WrittenBy es k) (t'.cell k) := by
    intro l hl hv
    obtain ⟨t', ht', hlatest⟩ := table_applyAll known (fun e he => writes e ((hl e).mp he)) hv
    refine ⟨t', ht', fun k => (hlatest k _ _ (.held fun _ _ => False.elim)).congr fun v c => ?_⟩
    simp only [WrittenBy, hl, false_or]
  obtain ⟨t', ht', hlatest⟩ := hrun es (fun _ => Iff.rfl) valid
  obtain ⟨t'', ht'', hlatest'⟩ := hrun es' same valid'
  have htold : ∀ k v v' c, WrittenBy es k v c → WrittenBy es k v' c → v = v' := by
    rintro k v v' c ⟨a, ha, hva, rfl⟩ ⟨b, hb, hvb, hclock⟩
    rw [distinct a ha b hb hclock.symm, hvb] at hva
    exact (Option.some.inj hva).symm
  have heq : t'' = t' := PropertyTable.ext_cell fun k => (hlatest' k).unique (hlatest k) (htold k)
  refine ⟨t', ht', heq ▸ ht'', hlatest, fun k hno => ?_⟩
  refine (hlatest k).unique (.held ?_) (htold k)
  rintro v c ⟨e, he, hw, -⟩
  rw [hno e he] at hw
  cases hw

end MaterializedGraph

open Sample MaterializedGraph

/-- An update and a later add of a person, in either order and repeated. -/
theorem property_lww_order_free_person :
    let add := Entry.new (.addNode "ann" "person" none "Ann" ∅) [] [] ⟨"a", 1, 0⟩ "a"
    let g := (new guests).applyAll .keyOrder [add]
    let update := Entry.new (.updateProperty "ann" "age" (.int 3)) [] [] ⟨"a", 2, 0⟩ "a"
    let again := Entry.new (.addNode "ann" "person" none "Ann" ((∅ : BTreeMap String Value).insert "age" (.int 4)))
      [] [] ⟨"a", 3, 0⟩ "a"
    (g.applyAll .keyOrder [update, again]).tableOf "ann" .node =
      (g.applyAll .keyOrder [again, update, again]).tableOf "ann" .node := by
  intro add g update again
  obtain ⟨t, ht⟩ : ∃ t, g.tableOf "ann" .node = some t :=
    Option.isSome_iff_exists.mp (by decide +kernel)
  have hwrites : ∀ e ∈ [update, again], g.WritesTo .node "ann" e.payload := by
    intro e he
    obtain rfl | rfl := List.mem_pair.mp he
    · exact .inr ⟨by decide +kernel, by simp⟩
    · exact .inl (by decide +kernel)
  have hdistinct : ∀ a ∈ [update, again], ∀ b ∈ [update, again], a.clock = b.clock → a.payload = b.payload := by
    intro a ha b hb heq
    have hnd : ([update, again].map Entry.clock).Nodup := by decide +kernel
    rw [List.inj_on_of_nodup_map hnd ha hb heq]
  obtain ⟨t', h, h', -⟩ := property_lww_order_free g .keyOrder .node "ann" t ht [update, again]
    [again, update, again] hwrites hdistinct (by simp [or_comm]) (by decide +kernel) (by decide +kernel)
  rw [h, h']

end SilkGraph
