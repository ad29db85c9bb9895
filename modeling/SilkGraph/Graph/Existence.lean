import SilkGraph.Lib.AddWins
import SilkGraph.Graph.Kinds
import SilkGraph.Graph.Inert

/-!
# When a node or an edge is gone

By the clocks an entity is gone if some removal is later than every add. The graph remembers
the clock of the last add and not that of a removal, so it is the flag of `AddWins`: a removal
that comes before the adds it beats is forgotten, and so is one that an old add follows, or a
second copy of an add. `add_wins_iff` says exactly which orders the law survives.
-/

namespace SilkGraph

/-- What an entry means for the life of an entity. -/
def Entry.lifeOp (kind : EntityKind) (id : String) (e : Entry) : AddWins.Op HybridClock :=
  if e.payload.adds kind id then .add e.clock
  else if e.payload.removes kind id then .remove e.clock
  else .other

/-- The life of the entity in a slot. -/
def Slot.life (self : Slot) : EntityKind → Option (AddWins.Flag HybridClock)
  | .node => self.node.map fun nd => ⟨nd.lastAddClock, nd.tombstoned⟩
  | .edge => self.edge.map fun ed => ⟨ed.lastAddClock, ed.tombstoned⟩

/-- The graph holds the entity, tombstoned. -/
def MaterializedGraph.tombstoned (self : MaterializedGraph) (id : String) : EntityKind → Bool
  | .node => (self.nodes[id]?.map Node.tombstoned).getD false
  | .edge => (self.edges[id]?.map Edge.tombstoned).getD false

/-- What the clocks say: the greatest clock of a removal is greater than that of every add. -/
def RemovedLater (kind : EntityKind) (id : String) (es : List Entry) : Prop :=
  ∃ r ∈ es, r.payload.removes kind id ∧ ∀ a ∈ es, a.payload.adds kind id → a.clock < r.clock

/-- Besides, such a removal comes after every add. -/
def RemovedLast (kind : EntityKind) (id : String) (es : List Entry) : Prop :=
  ∃ pre r post, es = pre ++ r :: post ∧ r.payload.removes kind id ∧
    (∀ a ∈ post, ¬ a.payload.adds kind id) ∧ ∀ a ∈ es, a.payload.adds kind id → a.clock < r.clock

section Ops

variable {kind : EntityKind} {id : String} {e : Entry} {es : List Entry} {c : HybridClock}

theorem lifeOp_eq_add : e.lifeOp kind id = .add c ↔ e.payload.adds kind id ∧ e.clock = c := by
  rw [Entry.lifeOp]
  split
  · simp_all
  · split <;> simp_all

theorem lifeOp_eq_remove : e.lifeOp kind id = .remove c ↔ e.payload.removes kind id ∧ e.clock = c := by
  have hne : e.payload.adds kind id → ¬ e.payload.removes kind id := by
    cases e.payload <;> cases kind <;> simp [GraphOp.adds, GraphOp.removes]
  rw [Entry.lifeOp]
  split
  · simp_all
  · split <;> simp_all

theorem add_mem_lifeOps : AddWins.Op.add c ∈ es.map (Entry.lifeOp kind id) ↔
    ∃ a ∈ es, a.payload.adds kind id ∧ a.clock = c := by
  simp only [List.mem_map, lifeOp_eq_add]

theorem beats_lifeOps {r : HybridClock} : AddWins.Beats (es.map (Entry.lifeOp kind id)) r ↔
    ∀ a ∈ es, a.payload.adds kind id → a.clock < r := by
  simp only [AddWins.Beats, add_mem_lifeOps]
  exact ⟨fun h a ha hadd => h _ ⟨a, ha, hadd, rfl⟩, fun h c ⟨a, ha, hadd, heq⟩ => heq ▸ h a ha hadd⟩

theorem beaten_lifeOps : AddWins.Beaten (es.map (Entry.lifeOp kind id)) ↔ RemovedLater kind id es := by
  simp only [AddWins.Beaten, RemovedLater, beats_lifeOps, List.mem_map, lifeOp_eq_remove]
  constructor
  · rintro ⟨_, ⟨r, hr, hrem, rfl⟩, hbeats⟩
    exact ⟨r, hr, hrem, hbeats⟩
  · rintro ⟨r, hr, hrem, hbeats⟩
    exact ⟨_, ⟨r, hr, hrem, rfl⟩, hbeats⟩

theorem beatenLast_lifeOps :
    AddWins.BeatenLast (es.map (Entry.lifeOp kind id)) ↔ RemovedLast kind id es := by
  constructor
  · rintro ⟨pre, c, post, heq, hno, hbeats⟩
    obtain ⟨pre', rest, rfl, rfl, hrest⟩ := List.map_eq_append_iff.mp heq
    obtain ⟨r, post', rfl, hr, rfl⟩ := List.map_eq_cons_iff.mp hrest
    obtain ⟨hrem, rfl⟩ := lifeOp_eq_remove.mp hr
    refine ⟨pre', r, post', rfl, hrem, fun a ha hadd => ?_, beats_lifeOps.mp hbeats⟩
    exact hno a.clock (add_mem_lifeOps.mpr ⟨a, ha, hadd, rfl⟩)
  · rintro ⟨pre, r, post, rfl, hrem, hno, hbeats⟩
    refine ⟨pre.map (Entry.lifeOp kind id), r.clock, post.map (Entry.lifeOp kind id), ?_, ?_,
      beats_lifeOps.mpr hbeats⟩
    · rw [List.map_append, List.map_cons, lifeOp_eq_remove.mpr ⟨hrem, rfl⟩]
    · intro c hc
      obtain ⟨a, ha, hadd, -⟩ := add_mem_lifeOps.mp hc
      exact hno a ha hadd

end Ops

namespace MaterializedGraph

section

variable [Crates] {g : MaterializedGraph} {σ : HashOrder} {e : Entry} {es : List Entry}
  {kind : EntityKind} {id : String}

/-- **Step.** An entry about an entity is one step of its flag. -/
theorem life_apply (hc : e.payload.concerns kind id = true)
    (hv : e.payload.adds kind id = true → g.accepts .full e.payload = true) :
    ((g.apply σ e).slot id).life kind = AddWins.step ((g.slot id).life kind) (e.lifeOp kind id) := by
  obtain ⟨ev, hev, -⟩ := ownEvents_of_concerns hc hv
  obtain ⟨rfl, ty, st, lb, ps, hp⟩ | ⟨rfl, ty, src, tgt, ps, hp⟩ | ⟨rfl, hp⟩ | ⟨rfl, hp⟩ | ⟨k, v, hp⟩ :=
    GraphOp.concerns_cases hc
  · obtain rfl : .addNode ty st lb ps e.clock = ev := by simpa [Entry.event, hp] using hev
    have hop : e.lifeOp .node id = .add e.clock := by simp [Entry.lifeOp, hp, GraphOp.adds]
    rw [Slot.life, node_apply hc hv hev, hop, Slot.step, Slot.life, AddWins.step]
    cases (g.slot id).node <;> simp [Node.create]
  · obtain rfl : .addEdge ty src tgt ps e.clock = ev := by simpa [Entry.event, hp] using hev
    have hop : e.lifeOp .edge id = .add e.clock := by simp [Entry.lifeOp, hp, GraphOp.adds]
    rw [Slot.life, slot_apply_edge hc hv hev, hop, Slot.step, Slot.life, AddWins.step]
    cases (g.slot id).edge <;> simp [Edge.create]
  · obtain rfl : .removeNode e.clock = ev := by simpa [Entry.event, hp] using hev
    have hop : e.lifeOp .node id = .remove e.clock := by
      simp [Entry.lifeOp, hp, GraphOp.adds, GraphOp.removes]
    rw [Slot.life, node_apply hc hv hev, hop, Slot.step, Slot.life, AddWins.step]
    cases (g.slot id).node with
    | none => rfl
    | some nd => by_cases hlt : nd.lastAddClock < e.clock <;> simp [Node.remove, hlt]
  · obtain rfl : .removeEdge e.clock = ev := by simpa [Entry.event, hp] using hev
    have hop : e.lifeOp .edge id = .remove e.clock := by
      simp [Entry.lifeOp, hp, GraphOp.adds, GraphOp.removes]
    rw [Slot.life, slot_apply_edge hc hv hev, hop, Slot.step, Slot.life, AddWins.step]
    cases (g.slot id).edge with
    | none => rfl
    | some ed => by_cases hlt : ed.lastAddClock < e.clock <;> simp [Edge.remove, hlt]
  · obtain rfl : .update k v e.clock = ev := by simpa [Entry.event, hp] using hev
    have hop : e.lifeOp kind id = .other := by
      cases kind <;> simp [Entry.lifeOp, hp, GraphOp.adds, GraphOp.removes]
    rw [hop, AddWins.step]
    cases kind with
    | node =>
      rw [Slot.life, node_apply hc hv hev, Slot.step, Slot.life]
      split
      · cases hnd : (g.slot id).node <;> simp
      · rfl
    | edge =>
      rw [Slot.life, slot_apply_edge hc hv hev, Slot.step, Slot.life]
      split
      · cases hnd : (g.slot id).node with
        | some nd => rfl
        | none => cases (g.slot id).edge <;> simp
      · rfl

/-- **Run.** -/
theorem life_applyAll (hc : ∀ e ∈ es, e.payload.concerns kind id = true)
    (hv : ∀ e ∈ es, e.payload.adds kind id = true → g.accepts .full e.payload = true) :
    ((g.applyAll σ es).slot id).life kind =
      (es.map (Entry.lifeOp kind id)).foldl AddWins.step ((g.slot id).life kind) := by
  induction es generalizing g with
  | nil => rfl
  | cons e es ih =>
    have he := hc e List.mem_cons_self
    rw [applyAll, List.foldl_cons, ← applyAll, List.map_cons, List.foldl_cons,
      ← life_apply he (hv e List.mem_cons_self)]
    refine ih (fun a ha => hc a (List.mem_cons_of_mem e ha)) fun a ha hadd => ?_
    rw [accepts_apply he hadd]
    exact hv a (List.mem_cons_of_mem e ha) hadd

omit [Crates] in
theorem tombstoned_iff : g.tombstoned id kind = true ↔ AddWins.Removed ((g.slot id).life kind) := by
  cases kind with
  | node => cases hnd : g.nodes[id]? <;> simp [tombstoned, AddWins.Removed, Slot.life, slot, hnd]
  | edge => cases hed : g.edges[id]? <;> simp [tombstoned, AddWins.Removed, Slot.life, slot, hed]

/-- **Which orders the existence law survives.** Adds that are accepted, removals and updates
of one node or edge come to a graph that does not know it, in any order and any number of
times. It ends tombstoned just when some removal is later than every add, exactly if such a
removal, when there is one, also comes after every add. -/
theorem add_wins_iff (g : MaterializedGraph) (σ : HashOrder) (kind : EntityKind) (id : String)
    (es : List Entry) (unknown : (g.slot id).life kind = none)
    (concerns : ∀ e ∈ es, e.payload.concerns kind id = true)
    (added : ∃ e ∈ es, e.payload.adds kind id = true)
    (valid : ∀ e ∈ es, e.payload.adds kind id = true → g.accepts .full e.payload = true) :
    ((g.applyAll σ es).tombstoned id kind = true ↔ RemovedLater kind id es) ↔
      (RemovedLater kind id es → RemovedLast kind id es) := by
  obtain ⟨a, ha, hadd⟩ := added
  have hadds : ∃ c, AddWins.Op.add c ∈ es.map (Entry.lifeOp kind id) :=
    ⟨a.clock, add_mem_lifeOps.mpr ⟨a, ha, hadd, rfl⟩⟩
  rw [tombstoned_iff, life_applyAll concerns valid, unknown, ← beaten_lifeOps, ← beatenLast_lifeOps]
  exact AddWins.law_iff hadds

end

end MaterializedGraph

open Sample MaterializedGraph

/-- A node, its removal and another add, all in order. -/
theorem add_wins_iff_in_order :
    let add := Entry.new (.addNode "ann" "person" none "Ann" ∅) [] [] ⟨"a", 1, 0⟩ "a"
    let remove := Entry.new (.removeNode "ann") [] [] ⟨"a", 3, 0⟩ "a"
    let again := Entry.new (.addNode "ann" "person" none "Ann" ∅) [] [] ⟨"a", 2, 0⟩ "a"
    ((new guests).applyAll .keyOrder [add, again, remove]).tombstoned "ann" .node = true := by
  intro add remove again
  have hlast : RemovedLast .node "ann" [add, again, remove] :=
    ⟨[add, again], remove, [], rfl, by decide +kernel, by simp, by decide +kernel⟩
  refine ((add_wins_iff (new guests) .keyOrder .node "ann" [add, again, remove] rfl
    (by decide +kernel) (by decide +kernel) (by decide +kernel)).mpr fun _ => hlast).mpr ?_
  exact ⟨remove, by simp, by decide +kernel, by decide +kernel⟩

/-- The removal first, then the add it beats: the node is there. So it is when an old add
follows the removal, or the add comes a second time; with the removal last it is gone. -/
theorem add_wins_broken :
    let add := Entry.new (.addNode "ann" "person" none "Ann" ∅) [] [] ⟨"a", 1, 0⟩ "a"
    let remove := Entry.new (.removeNode "ann") [] [] ⟨"a", 2, 0⟩ "a"
    RemovedLater .node "ann" [remove, add] ∧
    ((new guests).applyAll .keyOrder [remove, add]).tombstoned "ann" .node = false ∧
    ((new guests).applyAll .keyOrder [add, remove, add]).tombstoned "ann" .node = false ∧
    ((new guests).applyAll .keyOrder [add, remove]).tombstoned "ann" .node = true := by
  intro add remove
  refine ⟨⟨remove, by simp, by decide +kernel, by decide +kernel⟩, ?_, ?_, ?_⟩
  all_goals decide +kernel

end SilkGraph
