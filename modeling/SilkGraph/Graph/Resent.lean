import SilkGraph.Graph.Existence
import SilkGraph.Graph.Reflects
import SilkGraph.Graph.Resolved

/-!
# Entries that come a second time

A merge applies every listed entry whose hash is in the payload, also those the graph has seen.
So the graph after a merge is that of a run in which known entries stand among new ones, and the
question is what is left of it when the known ones are left out.

Known entries hide in what the graph has taken in: a known add is older than the last add, a
known write covered by its cell. What they can do is set the life of an entity and its last
clock. The life is set again by the next add or removal that counts, and nothing but the
comparison with the last clock, by which a later add takes over label and subtype, ever reads
either. So the two runs go side by side (`Echoes`), a known entry moving the first graph alone;
they show the same in the end if what a known entry sets is set again, or was so
(`Harmless`, `Echoes.run`).
-/

namespace AddWins

variable {C : Type*} [LinearOrder C] {s s' : Option (Flag C)} {x : Op C}

/-- What an operation makes of the flag, if it counts. -/
def decision (self : Option (Flag C)) : Op C → Option Bool
  | .add _ => some false
  | .remove r => self.bind fun f => if f.lastAdd < r then some true else none
  | .other => none

theorem removed_step (s : Option (Flag C)) (x : Op C) :
    (step s x).map Flag.removed = (decision s x).or (s.map Flag.removed) := by
  cases x with
  | add c => rfl
  | remove r =>
    cases s with
    | none => rfl
    | some f => by_cases hlt : f.lastAdd < r <;> simp [step, decision, hlt]
  | other => rfl

/-- What counts is a matter of the last add. -/
theorem decision_congr (h : s.map Flag.lastAdd = s'.map Flag.lastAdd) (x : Op C) :
    decision s x = decision s' x := by
  cases x with
  | remove r => cases s <;> cases s' <;> simp_all [decision]
  | _ => rfl

end AddWins

namespace SilkGraph

/-! ### One node, one edge -/

/-- Two nodes that differ in life and last clock at most. -/
structure Node.Near (nd nd' : Node) : Prop where
  nodeId : nd.nodeId = nd'.nodeId
  nodeType : nd.nodeType = nd'.nodeType
  subtype : nd.subtype = nd'.subtype
  label : nd.label = nd'.label
  table : nd.table = nd'.table
  lastAddClock : nd.lastAddClock = nd'.lastAddClock

/-- Two edges that differ in life and last clock at most. -/
structure Edge.Near (ed ed' : Edge) : Prop where
  edgeId : ed.edgeId = ed'.edgeId
  edgeType : ed.edgeType = ed'.edgeType
  sourceId : ed.sourceId = ed'.sourceId
  targetId : ed.targetId = ed'.targetId
  table : ed.table = ed'.table
  lastAddClock : ed.lastAddClock = ed'.lastAddClock

/-- The node has seen an add at least as late, and all it writes is covered. -/
def Node.HasSeen (nd : Node) (ps : BTreeMap String Value) (c : HybridClock) : Prop :=
  c ≤ nd.lastAddClock ∧ nd.table.Absorbs ps c

/-- The edge has seen an add at least as late, and all it writes is covered. -/
def Edge.HasSeen (ed : Edge) (ps : BTreeMap String Value) (c : HybridClock) : Prop :=
  c ≤ ed.lastAddClock ∧ ed.table.Absorbs ps c

/-- What a node shows. -/
def Node.look (self : Node) : String × String × Option String × String × BTreeMap String Value :=
  (self.nodeId, self.nodeType, self.subtype, self.label, self.properties)

/-- What an edge shows. -/
def Edge.look (self : Edge) : String × String × String × String × BTreeMap String Value :=
  (self.edgeId, self.edgeType, self.sourceId, self.targetId, self.properties)

/-- Two graphs show the same live nodes and edges. -/
structure MaterializedGraph.LooksLike (g g' : MaterializedGraph) : Prop where
  nodes : ∀ id, (g.getNode id).map Node.look = (g'.getNode id).map Node.look
  edges : ∀ id, (g.getEdge id).map Edge.look = (g'.getEdge id).map Edge.look

theorem MaterializedGraph.LooksLike.refl (g : MaterializedGraph) : g.LooksLike g :=
  ⟨fun _ => rfl, fun _ => rfl⟩

namespace Node.Near

variable {nd nd' : Node} {st : Option String} {lb k : String} {ps : BTreeMap String Value} {v : Value}
  {c : HybridClock}

theorem refl (nd : Node) : nd.Near nd := ⟨rfl, rfl, rfl, rfl, rfl, rfl⟩

/-- An add takes over label and subtype in both or in neither. -/
theorem readd (h : nd.Near nd') (hlast : nd.lastClock < c ↔ nd'.lastClock < c) :
    (nd.readd st lb ps c).Near (nd'.readd st lb ps c) where
  nodeId := h.nodeId
  nodeType := h.nodeType
  subtype := by simp [hlast, h.subtype]
  label := by simp [hlast, h.label]
  table := by rw [readd_table, readd_table, h.table]
  lastAddClock := by rw [readd_lastAddClock, readd_lastAddClock, h.lastAddClock]

theorem update (h : nd.Near nd') : (nd.update k v c).Near (nd'.update k v c) where
  nodeId := h.nodeId
  nodeType := h.nodeType
  subtype := h.subtype
  label := h.label
  table := by rw [update_table, update_table, h.table]
  lastAddClock := h.lastAddClock

theorem remove (h : nd.Near nd') : (nd.remove c).Near (nd'.remove c) where
  nodeId := by simpa using h.nodeId
  nodeType := by simpa using h.nodeType
  subtype := by simpa using h.subtype
  label := by simpa using h.label
  table := by simpa using h.table
  lastAddClock := by simpa using h.lastAddClock

/-- An add that the second node has seen. -/
theorem known_readd (h : nd.Near nd') (hseen : nd'.HasSeen ps c) (hlast : c ≤ nd.lastClock) :
    (nd.readd st lb ps c).Near nd' where
  nodeId := h.nodeId
  nodeType := h.nodeType
  subtype := by simp [not_lt.mpr hlast, h.subtype]
  label := by simp [not_lt.mpr hlast, h.label]
  table := by rw [readd_table, h.table, PropertyTable.mergeLww_eq_self hseen.2]
  lastAddClock := by rw [readd_lastAddClock, h.lastAddClock, max_eq_left hseen.1]

theorem known_update (h : nd.Near nd') (hcov : Covers (nd'.table.cell k) c) :
    (nd.update k v c).Near nd' where
  nodeId := h.nodeId
  nodeType := h.nodeType
  subtype := h.subtype
  label := h.label
  table := by rw [update_table, h.table, PropertyTable.write_eq_self hcov]
  lastAddClock := h.lastAddClock

theorem known_remove (h : nd.Near nd') : (nd.remove c).Near nd' where
  nodeId := by simpa using h.nodeId
  nodeType := by simpa using h.nodeType
  subtype := by simpa using h.subtype
  label := by simpa using h.label
  table := by simpa using h.table
  lastAddClock := by simpa using h.lastAddClock

end Node.Near

namespace Edge.Near

variable {ed ed' : Edge} {k : String} {ps : BTreeMap String Value} {v : Value} {c : HybridClock}

theorem refl (ed : Edge) : ed.Near ed := ⟨rfl, rfl, rfl, rfl, rfl, rfl⟩

theorem readd (h : ed.Near ed') : (ed.readd ps c).Near (ed'.readd ps c) where
  edgeId := h.edgeId
  edgeType := h.edgeType
  sourceId := h.sourceId
  targetId := h.targetId
  table := by rw [readd_table, readd_table, h.table]
  lastAddClock := by rw [readd_lastAddClock, readd_lastAddClock, h.lastAddClock]

theorem update (h : ed.Near ed') : (ed.update k v c).Near (ed'.update k v c) where
  edgeId := h.edgeId
  edgeType := h.edgeType
  sourceId := h.sourceId
  targetId := h.targetId
  table := by rw [update_table, update_table, h.table]
  lastAddClock := h.lastAddClock

theorem remove (h : ed.Near ed') : (ed.remove c).Near (ed'.remove c) where
  edgeId := by simpa using h.edgeId
  edgeType := by simpa using h.edgeType
  sourceId := by simpa using h.sourceId
  targetId := by simpa using h.targetId
  table := by simpa using h.table
  lastAddClock := by simpa using h.lastAddClock

theorem known_readd (h : ed.Near ed') (hseen : ed'.HasSeen ps c) : (ed.readd ps c).Near ed' where
  edgeId := h.edgeId
  edgeType := h.edgeType
  sourceId := h.sourceId
  targetId := h.targetId
  table := by rw [readd_table, h.table, PropertyTable.mergeLww_eq_self hseen.2]
  lastAddClock := by rw [readd_lastAddClock, h.lastAddClock, max_eq_left hseen.1]

theorem known_update (h : ed.Near ed') (hcov : Covers (ed'.table.cell k) c) :
    (ed.update k v c).Near ed' where
  edgeId := h.edgeId
  edgeType := h.edgeType
  sourceId := h.sourceId
  targetId := h.targetId
  table := by rw [update_table, h.table, PropertyTable.write_eq_self hcov]
  lastAddClock := h.lastAddClock

theorem known_remove (h : ed.Near ed') : (ed.remove c).Near ed' where
  edgeId := by simpa using h.edgeId
  edgeType := by simpa using h.edgeType
  sourceId := by simpa using h.sourceId
  targetId := by simpa using h.targetId
  table := by simpa using h.table
  lastAddClock := by simpa using h.lastAddClock

end Edge.Near

/-! ### One slot -/

/-- What an event means for the life of the entity. -/
def Event.lifeOp (kind : EntityKind) : Event → AddWins.Op HybridClock
  | .addNode _ _ _ _ c => if kind = .node then .add c else .other
  | .addEdge _ _ _ _ c => if kind = .edge then .add c else .other
  | .update .. => .other
  | .removeNode c => if kind = .node then .remove c else .other
  | .removeEdge c => if kind = .edge then .remove c else .other

/-- The add of a node, with its clock. -/
def Event.addsNode : Event → Option HybridClock
  | .addNode _ _ _ _ c => some c
  | _ => none

namespace Slot

/-- The last clock of the entity. -/
def last (self : Slot) : EntityKind → Option HybridClock
  | .node => self.node.map Node.lastClock
  | .edge => self.edge.map Edge.lastClock

/-- Two slots that differ in life and last clocks at most. -/
structure Near (sl sl' : Slot) : Prop where
  node : Option.Rel Node.Near sl.node sl'.node
  edge : Option.Rel Edge.Near sl.edge sl'.edge

/-- What an event makes of the life of the entity, if it counts. -/
def decision (self : Slot) (kind : EntityKind) (ev : Event) : Option Bool :=
  AddWins.decision (self.life kind) (ev.lifeOp kind)

/-- The event sets the last clock of the entity: a removal that counts does, and an add that is
later than all that is in question. -/
def settles (self : Slot) (kind : EntityKind) (ev : Event) : Bool :=
  self.decision kind ev == some true || kind = .node && self.decision kind ev == some false

variable [Crates]

/-- The slot has taken in what the event brings. -/
def HasSeen (o : Ontology) (self : Slot) : Event → Prop
  | .addNode _ _ _ ps c => ∃ nd ∈ self.node, nd.HasSeen ps c
  | .addEdge _ _ _ ps c => ∃ ed ∈ self.edge, ed.HasSeen ps c
  | .update k v c => self.accepts o k v = true →
    match self.node, self.edge with
    | some nd, _ => Covers (nd.table.cell k) c
    | none, some ed => Covers (ed.table.cell k) c
    | none, none => True
  | .removeNode _ | .removeEdge _ => True

/-- The last clocks that an event the slot has seen moves, with the clock they move to. -/
def stirs (o : Ontology) (self : Slot) : Event → List (EntityKind × HybridClock)
  | .update k v c =>
    if self.accepts o k v then
      match self.node, self.edge with
      | some nd, _ => if nd.lastClock < c then [(.node, c)] else []
      | none, some ed => if ed.lastClock < c then [(.edge, c)] else []
      | none, none => []
    else []
  | .removeNode c =>
    if self.node.any fun nd => nd.lastAddClock < c && nd.lastClock != c then [(.node, c)] else []
  | .removeEdge c =>
    if self.edge.any fun ed => ed.lastAddClock < c && ed.lastClock != c then [(.edge, c)] else []
  | _ => []

variable {o : Ontology} {id : String} {sl sl' : Slot} {ev : Event} {kind : EntityKind}
  {S : EntityKind → HybridClock → Prop}

/-- **Step.** An event is one step of the life of the entity. -/
theorem life_step (o : Ontology) (id : String) (sl : Slot) (ev : Event) (kind : EntityKind) :
    (sl.step o id ev).life kind = AddWins.step (sl.life kind) (ev.lifeOp kind) := by
  cases ev with
  | addNode ty st lb ps c =>
    cases kind with
    | node => cases hn : sl.node <;> simp [step, life, Event.lifeOp, AddWins.step, hn, Node.create]
    | edge => rfl
  | addEdge ty src tgt ps c =>
    cases kind with
    | node => rfl
    | edge => cases he : sl.edge <;> simp [step, life, Event.lifeOp, AddWins.step, he, Edge.create]
  | update k v c =>
    rw [step, Event.lifeOp, AddWins.step]
    split
    · cases kind <;> split <;> rename_i hn <;> simp only [life, hn]
      · simp
      · cases sl.edge <;> simp
    · rfl
  | removeNode c =>
    cases kind with
    | node =>
      cases hn : sl.node with
      | none => simp [step, life, Event.lifeOp, AddWins.step, hn]
      | some nd =>
        by_cases hlt : nd.lastAddClock < c <;>
          simp [step, life, Event.lifeOp, AddWins.step, hn, Node.remove, hlt]
    | edge => rfl
  | removeEdge c =>
    cases kind with
    | node => rfl
    | edge =>
      cases he : sl.edge with
      | none => simp [step, life, Event.lifeOp, AddWins.step, he]
      | some ed =>
        by_cases hlt : ed.lastAddClock < c <;>
          simp [step, life, Event.lifeOp, AddWins.step, he, Edge.remove, hlt]

omit [Crates] in
theorem Near.refl (sl : Slot) : sl.Near sl := by
  obtain ⟨nd, ed⟩ := sl
  refine ⟨?_, ?_⟩
  · cases nd with
    | none => exact .none
    | some nd => exact .some (.refl nd)
  · cases ed with
    | none => exact .none
    | some ed => exact .some (.refl ed)

omit [Crates] in
theorem Near.lastAdd (h : sl.Near sl') (kind : EntityKind) :
    (sl.life kind).map AddWins.Flag.lastAdd = (sl'.life kind).map AddWins.Flag.lastAdd := by
  obtain ⟨nd, ed⟩ := sl
  obtain ⟨nd', ed'⟩ := sl'
  obtain ⟨hn, he⟩ := h
  cases kind with
  | node =>
    cases hn with
    | none => rfl
    | some hn => exact congrArg some hn.lastAddClock
  | edge =>
    cases he with
    | none => rfl
    | some he => exact congrArg some he.lastAddClock

omit [Crates] in
theorem Near.decision (h : sl.Near sl') (kind : EntityKind) (ev : Event) :
    sl.decision kind ev = sl'.decision kind ev := AddWins.decision_congr (h.lastAdd kind) _

theorem Near.accepts (h : sl.Near sl') (o : Ontology) (k : String) (v : Value) :
    sl.accepts o k v = sl'.accepts o k v := by
  obtain ⟨nd, ed⟩ := sl
  obtain ⟨nd', ed'⟩ := sl'
  obtain ⟨hn, he⟩ := h
  cases hn with
  | some hn => simp only [Slot.accepts, hn.nodeType, hn.subtype]
  | none =>
    cases he with
    | some he => simp only [Slot.accepts, he.edgeType]
    | none => rfl

/-- The last clock of an entity is not before its last add. -/
structure Ordered (sl : Slot) : Prop where
  node : ∀ nd ∈ sl.node, nd.lastAddClock ≤ nd.lastClock
  edge : ∀ ed ∈ sl.edge, ed.lastAddClock ≤ ed.lastClock

theorem Ordered.step (h : sl.Ordered) : (sl.step o id ev).Ordered := by
  cases ev with
  | addNode ty st lb ps c =>
    refine ⟨fun nd hnd => ?_, h.edge⟩
    obtain rfl := Option.some.inj hnd
    cases hn : sl.node with
    | none => exact le_rfl
    | some old =>
      simp only [Node.readd_lastAddClock, Node.readd_lastClock]
      exact max_le_max (h.node old hn) le_rfl
  | addEdge ty src tgt ps c =>
    refine ⟨h.node, fun ed hed => ?_⟩
    obtain rfl := Option.some.inj hed
    cases he : sl.edge with
    | none => exact le_rfl
    | some old =>
      simp only [Edge.readd_lastAddClock, Edge.readd_lastClock]
      exact max_le_max (h.edge old he) le_rfl
  | update k v c =>
    rw [Slot.step]
    split
    · split <;> rename_i hn
      · refine ⟨fun nd hnd => ?_, h.edge⟩
        obtain rfl := Option.some.inj hnd
        simpa using .inl (h.node _ hn)
      · refine ⟨fun nd hnd => h.node nd hnd, fun ed hed => ?_⟩
        obtain ⟨old, hold, rfl⟩ := Option.map_eq_some_iff.mp hed
        simpa using .inl (h.edge old hold)
    · exact h
  | removeNode c =>
    refine ⟨fun nd hnd => ?_, h.edge⟩
    obtain ⟨old, hold, rfl⟩ := Option.map_eq_some_iff.mp hnd
    rcases lt_or_ge old.lastAddClock c with hlt | hge
    · rw [Node.remove_of_lt hlt]
      exact hlt.le
    · rw [Node.remove_of_le hge]
      exact h.node old hold
  | removeEdge c =>
    refine ⟨h.node, fun ed hed => ?_⟩
    obtain ⟨old, hold, rfl⟩ := Option.map_eq_some_iff.mp hed
    rcases lt_or_ge old.lastAddClock c with hlt | hge
    · rw [Edge.remove_of_lt hlt]
      exact hlt.le
    · rw [Edge.remove_of_le hge]
      exact h.edge old hold

theorem Ordered.play {evs : List Event} (h : sl.Ordered) : (sl.play o id evs).Ordered := by
  induction evs generalizing sl with
  | nil => exact h
  | cons ev evs ih => exact ih h.step

/-- The last clock of the first slot is the other's, or it may be off by a clock in question. -/
def Drift (S : EntityKind → HybridClock → Prop) (kind : EntityKind) (sl sl' : Slot) : Prop :=
  sl.last kind = sl'.last kind ∨
    ∃ d, S kind d ∧ ∀ c ∈ sl.last kind, ∀ c' ∈ sl'.last kind, c ≤ max c' d

/-- The second slot is the first without what known entries set. -/
structure Echo (S : EntityKind → HybridClock → Prop) (sl sl' : Slot) : Prop where
  near : sl.Near sl'
  ordered : sl.Ordered
  drift : ∀ kind, Drift S kind sl sl'

/-- An add is later than all that is in question, and than the last clock. -/
def Fair (S : EntityKind → HybridClock → Prop) (sl : Slot) (ev : Event) : Prop :=
  ∀ c ∈ ev.addsNode, ∀ d, S .node d → d < c ∧ ∀ nd ∈ sl.node, nd.lastClock < c

omit [Crates] in
theorem Drift.mono {T : EntityKind → HybridClock → Prop} (h : Drift S kind sl sl')
    (hST : ∀ c, S kind c → T kind c) : Drift T kind sl sl' :=
  h.imp id fun ⟨d, hd, hle⟩ => ⟨d, hST d hd, hle⟩

omit [Crates] in
/-- An event that raises both last clocks to at least the same clock. -/
theorem Drift.raise {tl tl' : Slot} {c : HybridClock} (h : Drift S kind sl sl')
    (hl : tl.last kind = (sl.last kind).map (max · c)) (hl' : tl'.last kind = (sl'.last kind).map (max · c)) :
    Drift S kind tl tl' := by
  rw [Drift, hl, hl']
  refine h.imp (congrArg _) fun ⟨d, hd, hle⟩ => ⟨d, hd, ?_⟩
  rintro _ hmax _ hmax'
  obtain ⟨x, hx, rfl⟩ := Option.map_eq_some_iff.mp hmax
  obtain ⟨y, hy, rfl⟩ := Option.map_eq_some_iff.mp hmax'
  rw [max_right_comm]
  exact max_le_max (hle x hx y hy) le_rfl

omit [Crates] in
/-- An event that raises the first last clock alone, to one that the other covers or that is in
question. -/
theorem Drift.lift {T : EntityKind → HybridClock → Prop} {tl : Slot} {c : HybridClock}
    (h : Drift S kind sl sl') (hST : ∀ d, S kind d → T kind d)
    (hl : tl.last kind = (sl.last kind).map (max · c))
    (hc : (∀ c' ∈ sl'.last kind, c ≤ c') ∨ T kind c) (hsome : sl.last kind = none → sl'.last kind = none) :
    Drift T kind tl sl' := by
  rw [Drift, hl]
  cases hx : sl.last kind with
  | none => exact .inl (hsome hx).symm
  | some x =>
    rw [Drift, hx] at h
    obtain hc | hc := hc
    · refine h.imp (fun heq => ?_) fun ⟨d, hd, hle⟩ => ⟨d, hST d hd, ?_⟩
      · rw [← heq, Option.map_some, max_eq_left (hc x heq.symm)]
      · rintro _ ⟨⟩ y hy
        exact max_le (hle x rfl y hy) (le_max_of_le_left (hc y hy))
    · refine .inr ?_
      obtain heq | ⟨d, hd, hle⟩ := h
      · refine ⟨c, hc, ?_⟩
        rintro _ ⟨⟩ y hy
        obtain rfl : x = y := Option.some.inj (heq.trans hy)
        exact le_rfl
      · obtain hdc | hcd := le_total d c
        · refine ⟨c, hc, ?_⟩
          rintro _ ⟨⟩ y hy
          exact max_le ((hle x rfl y hy).trans (max_le_max le_rfl hdc)) (le_max_right ..)
        · refine ⟨d, hST d hd, ?_⟩
          rintro _ ⟨⟩ y hy
          exact max_le (hle x rfl y hy) (le_max_of_le_right hcd)

omit [Crates] in
theorem Echo.mono {T : EntityKind → HybridClock → Prop} (h : Echo S sl sl')
    (hST : ∀ kind c, S kind c → T kind c) : Echo T sl sl' :=
  ⟨h.near, h.ordered, fun kind => (h.drift kind).mono (hST kind)⟩

/-- **Step.** An event that comes to both. -/
theorem Echo.step (h : Echo S sl sl') (hfair : Fair S sl' ev) :
    Echo (fun kind c => S kind c ∧ sl'.settles kind ev = false) (sl.step o id ev) (sl'.step o id ev) := by
  have hopen : ∀ kind, sl'.settles kind ev = false → Drift S kind sl sl' →
      Drift (fun kind c => S kind c ∧ sl'.settles kind ev = false) kind sl sl' :=
    fun kind hset hd => hd.mono fun c hc => ⟨hc, hset⟩
  obtain ⟨hnear, hord, hdrift⟩ := h
  have hord' : (sl.step o id ev).Ordered := hord.step
  obtain ⟨nd, ed⟩ := sl
  obtain ⟨nd', ed'⟩ := sl'
  obtain ⟨hn, he⟩ := hnear
  cases ev with
  | addNode ty st lb ps c =>
    have hedge : Drift (fun kind d => S kind d ∧ (Slot.mk nd' ed').settles kind (.addNode ty st lb ps c) = false)
        .edge ⟨nd, ed⟩ ⟨nd', ed'⟩ := hopen .edge rfl (hdrift .edge)
    cases hn with
    | none =>
      refine ⟨⟨.some (.refl _), he⟩, hord', fun kind => ?_⟩
      cases kind with
      | node => exact .inl rfl
      | edge => exact hedge
    | @some nd nd' hn =>
      -- the last clocks agree, or the add is later than both
      have hlast : nd.lastClock = nd'.lastClock ∨ nd.lastClock < c ∧ nd'.lastClock < c := by
        obtain heq | ⟨d, hd, hle⟩ := hdrift .node
        · exact .inl (Option.some.inj heq)
        · obtain ⟨hdc, hnd⟩ := hfair c rfl d hd
          exact .inr ⟨(hle _ rfl _ rfl).trans_lt (max_lt (hnd nd' rfl) hdc), hnd nd' rfl⟩
      refine ⟨⟨.some (hn.readd ?_), he⟩, hord', fun kind => ?_⟩
      · obtain heq | ⟨hlt, hlt'⟩ := hlast
        · rw [heq]
        · exact iff_of_true hlt hlt'
      · cases kind with
        | edge => exact hedge
        | node =>
          refine .inl (congrArg some ?_)
          rw [Node.readd_lastClock, Node.readd_lastClock]
          obtain heq | ⟨hlt, hlt'⟩ := hlast
          · rw [heq]
          · rw [max_eq_right hlt.le, max_eq_right hlt'.le]
  | addEdge ty src tgt ps c =>
    have hnode : Drift (fun kind d => S kind d ∧ (Slot.mk nd' ed').settles kind (.addEdge ty src tgt ps c) = false)
        .node ⟨nd, ed⟩ ⟨nd', ed'⟩ := hopen .node rfl (hdrift .node)
    cases he with
    | none =>
      refine ⟨⟨hn, .some (.refl _)⟩, hord', fun kind => ?_⟩
      cases kind with
      | node => exact hnode
      | edge => exact .inl rfl
    | @some ed ed' he =>
      refine ⟨⟨hn, .some he.readd⟩, hord', fun kind => ?_⟩
      cases kind with
      | node => exact hnode
      | edge =>
        refine (hopen .edge rfl (hdrift .edge)).raise (c := c) ?_ ?_
        · exact congrArg some Edge.readd_lastClock
        · exact congrArg some Edge.readd_lastClock
  | update k v c =>
    have hboth : ∀ kind, Drift (fun kind d => S kind d ∧ (Slot.mk nd' ed').settles kind (.update k v c) = false)
        kind ⟨nd, ed⟩ ⟨nd', ed'⟩ := fun kind => hopen kind (by cases kind <;> rfl) (hdrift kind)
    have hacc := Near.accepts ⟨hn, he⟩ o k v
    simp only [Slot.step, hacc] at hord' ⊢
    split
    · rename_i hok
      rw [if_pos hok] at hord'
      cases hn with
      | @some nd nd' hn =>
        refine ⟨⟨.some hn.update, he⟩, hord', fun kind => ?_⟩
        cases kind with
        | node =>
          refine (hboth .node).raise (c := c) ?_ ?_
          · exact congrArg some Node.update_lastClock
          · exact congrArg some Node.update_lastClock
        | edge => exact hboth .edge
      | none =>
        cases he with
        | none => exact ⟨⟨.none, .none⟩, hord', hboth⟩
        | @some ed ed' he =>
          refine ⟨⟨.none, .some he.update⟩, hord', fun kind => ?_⟩
          cases kind with
          | node => exact hboth .node
          | edge =>
            refine (hboth .edge).raise (c := c) ?_ ?_
            · exact congrArg some Edge.update_lastClock
            · exact congrArg some Edge.update_lastClock
    · rename_i hno
      rw [if_neg hno] at hord'
      exact ⟨⟨hn, he⟩, hord', hboth⟩
  | removeNode c =>
    have hedge : Drift (fun kind d => S kind d ∧ (Slot.mk nd' ed').settles kind (.removeNode c) = false)
        .edge ⟨nd, ed⟩ ⟨nd', ed'⟩ := hopen .edge rfl (hdrift .edge)
    cases hn with
    | none =>
      refine ⟨⟨.none, he⟩, hord', fun kind => ?_⟩
      cases kind with
      | node => exact .inl rfl
      | edge => exact hedge
    | @some nd nd' hn =>
      refine ⟨⟨.some hn.remove, he⟩, hord', fun kind => ?_⟩
      cases kind with
      | edge => exact hedge
      | node =>
        rcases lt_or_ge nd'.lastAddClock c with hlt | hge
        · -- the removal sets both last clocks
          have hlt₁ : nd.lastAddClock < c := hn.lastAddClock ▸ hlt
          refine .inl (congrArg some ?_)
          simp only [Node.remove_of_lt hlt, Node.remove_of_lt hlt₁]
        · have hge₁ : c ≤ nd.lastAddClock := hn.lastAddClock ▸ hge
          have hset : (Slot.mk (some nd') ed').settles .node (.removeNode c) = false := by
            simp [settles, decision, Event.lifeOp, AddWins.decision, life, not_lt.mpr hge]
          have hstay := hopen .node hset (hdrift .node)
          simp only [Slot.step, Option.map_some, Node.remove_of_le hge, Node.remove_of_le hge₁]
          exact hstay
  | removeEdge c =>
    have hnode : Drift (fun kind d => S kind d ∧ (Slot.mk nd' ed').settles kind (.removeEdge c) = false)
        .node ⟨nd, ed⟩ ⟨nd', ed'⟩ := hopen .node rfl (hdrift .node)
    cases he with
    | none =>
      refine ⟨⟨hn, .none⟩, hord', fun kind => ?_⟩
      cases kind with
      | node => exact hnode
      | edge => exact .inl rfl
    | @some ed ed' he =>
      refine ⟨⟨hn, .some he.remove⟩, hord', fun kind => ?_⟩
      cases kind with
      | node => exact hnode
      | edge =>
        rcases lt_or_ge ed'.lastAddClock c with hlt | hge
        · have hlt₁ : ed.lastAddClock < c := he.lastAddClock ▸ hlt
          refine .inl (congrArg some ?_)
          simp only [Edge.remove_of_lt hlt, Edge.remove_of_lt hlt₁]
        · have hge₁ : c ≤ ed.lastAddClock := he.lastAddClock ▸ hge
          have hset : (Slot.mk nd' (some ed')).settles .edge (.removeEdge c) = false := by
            simp [settles, decision, Event.lifeOp, AddWins.decision, life, not_lt.mpr hge]
          have hstay := hopen .edge hset (hdrift .edge)
          simp only [Slot.step, Option.map_some, Edge.remove_of_le hge, Edge.remove_of_le hge₁]
          exact hstay

/-- **Step.** An event that the second slot has seen, and that comes to the first alone. -/
theorem Echo.known (h : Echo S sl sl') (hseen : sl'.HasSeen o ev) :
    Echo (fun kind c => S kind c ∨ (kind, c) ∈ sl'.stirs o ev) (sl.step o id ev) sl' := by
  have hopen : ∀ kind, Drift S kind sl sl' →
      Drift (fun kind c => S kind c ∨ (kind, c) ∈ sl'.stirs o ev) kind sl sl' :=
    fun kind hd => hd.mono fun c hc => .inl hc
  obtain ⟨hnear, hord, hdrift⟩ := h
  have hord' : (sl.step o id ev).Ordered := hord.step
  obtain ⟨nd, ed⟩ := sl
  obtain ⟨nd', ed'⟩ := sl'
  obtain ⟨hn, he⟩ := hnear
  cases ev with
  | addNode ty st lb ps c =>
    obtain ⟨nd', rfl, hseen⟩ := hseen
    cases hn with
    | @some nd _ hn =>
      have hlast : c ≤ nd.lastClock := hseen.1.trans (hn.lastAddClock ▸ hord.node nd rfl)
      refine ⟨⟨.some (hn.known_readd hseen hlast), he⟩, hord', fun kind => ?_⟩
      have hsame : ((Slot.mk (some nd) ed).step o id (.addNode ty st lb ps c)).last kind =
          (Slot.mk (some nd) ed).last kind := by
        cases kind with
        | node => exact congrArg some (by rw [Node.readd_lastClock, max_eq_left hlast])
        | edge => rfl
      rw [Drift, hsame]
      exact hopen kind (hdrift kind)
  | addEdge ty src tgt ps c =>
    obtain ⟨ed', rfl, hseen⟩ := hseen
    cases he with
    | @some ed _ he =>
      have hlast : c ≤ ed.lastClock := hseen.1.trans (he.lastAddClock ▸ hord.edge ed rfl)
      refine ⟨⟨hn, .some (he.known_readd hseen)⟩, hord', fun kind => ?_⟩
      have hsame : ((Slot.mk nd (some ed)).step o id (.addEdge ty src tgt ps c)).last kind =
          (Slot.mk nd (some ed)).last kind := by
        cases kind with
        | node => rfl
        | edge => exact congrArg some (by rw [Edge.readd_lastClock, max_eq_left hlast])
      rw [Drift, hsame]
      exact hopen kind (hdrift kind)
  | update k v c =>
    have hacc := Near.accepts ⟨hn, he⟩ o k v
    simp only [Slot.step, hacc] at hord' ⊢
    simp only [HasSeen, stirs] at hseen hopen ⊢
    by_cases hok : (Slot.mk nd' ed').accepts o k v = true
    · simp only [if_pos hok] at hord' hopen ⊢
      cases hn with
      | @some nd nd' hn =>
        refine ⟨⟨.some (hn.known_update (hseen hok)), he⟩, hord', fun kind => ?_⟩
        cases kind with
        | edge => exact hopen .edge (hdrift .edge)
        | node =>
          refine (hdrift .node).lift (c := c) (fun d hd => .inl hd) (congrArg some Node.update_lastClock) ?_
            fun h => by cases h
          rcases lt_or_ge nd'.lastClock c with hlt | hge
          · exact .inr (.inr (by simp [hlt]))
          · exact .inl fun c' hc' => Option.some.inj hc' ▸ hge
      | none =>
        cases he with
        | none => exact ⟨⟨.none, .none⟩, hord', fun kind => hopen kind (hdrift kind)⟩
        | @some ed ed' he =>
          refine ⟨⟨.none, .some (he.known_update (hseen hok))⟩, hord', fun kind => ?_⟩
          cases kind with
          | node => exact .inl rfl
          | edge =>
            refine (hdrift .edge).lift (c := c) (fun d hd => .inl hd)
              (congrArg some Edge.update_lastClock) ?_ fun h => by cases h
            rcases lt_or_ge ed'.lastClock c with hlt | hge
            · exact .inr (.inr (by simp [hlt]))
            · exact .inl fun c' hc' => Option.some.inj hc' ▸ hge
    · simp only [if_neg hok] at hord' hopen ⊢
      exact ⟨⟨hn, he⟩, hord', fun kind => hopen kind (hdrift kind)⟩
  | removeNode c =>
    cases hn with
    | none => exact ⟨⟨.none, he⟩, hord', fun kind => hopen kind (hdrift kind)⟩
    | @some nd nd' hn =>
      refine ⟨⟨.some hn.known_remove, he⟩, hord', fun kind => ?_⟩
      cases kind with
      | edge => exact hopen .edge (hdrift .edge)
      | node =>
        rcases lt_or_ge nd'.lastAddClock c with hlt | hge
        · have hlt₁ : nd.lastAddClock < c := hn.lastAddClock ▸ hlt
          simp only [Drift, Slot.step, Option.map_some, Node.remove_of_lt hlt₁, last]
          by_cases hc : nd'.lastClock = c
          · exact .inl (congrArg some hc.symm)
          · refine .inr ⟨c, .inr (by simp [stirs, hlt, hc]), ?_⟩
            rintro _ ⟨⟩ c' -
            exact le_max_right ..
        · have hge₁ : c ≤ nd.lastAddClock := hn.lastAddClock ▸ hge
          have hstay := hopen .node (hdrift .node)
          simp only [Slot.step, Option.map_some, Node.remove_of_le hge₁]
          exact hstay
  | removeEdge c =>
    cases he with
    | none => exact ⟨⟨hn, .none⟩, hord', fun kind => hopen kind (hdrift kind)⟩
    | @some ed ed' he =>
      refine ⟨⟨hn, .some he.known_remove⟩, hord', fun kind => ?_⟩
      cases kind with
      | node => exact hopen .node (hdrift .node)
      | edge =>
        rcases lt_or_ge ed'.lastAddClock c with hlt | hge
        · have hlt₁ : ed.lastAddClock < c := he.lastAddClock ▸ hlt
          simp only [Drift, Slot.step, Option.map_some, Edge.remove_of_lt hlt₁, last]
          by_cases hc : ed'.lastClock = c
          · exact .inl (congrArg some hc.symm)
          · refine .inr ⟨c, .inr (by simp [stirs, hlt, hc]), ?_⟩
            rintro _ ⟨⟩ c' -
            exact le_max_right ..
        · have hge₁ : c ≤ ed.lastAddClock := he.lastAddClock ▸ hge
          have hstay := hopen .edge (hdrift .edge)
          simp only [Slot.step, Option.map_some, Edge.remove_of_le hge₁]
          exact hstay

/-- Every event of a list is an add of an edge. -/
def AddsEdges (evs : List Event) : Prop := ∀ ev ∈ evs, ∃ ty src tgt ps c, ev = .addEdge ty src tgt ps c

/-- Edges that are added to both. -/
theorem Echo.play_edges {evs : List Event} (h : Echo S sl sl') (hevs : AddsEdges evs) :
    Echo S (sl.play o id evs) (sl'.play o id evs) := by
  induction evs generalizing sl sl' with
  | nil => exact h
  | cons ev evs ih =>
    obtain ⟨ty, src, tgt, ps, c, rfl⟩ := hevs ev List.mem_cons_self
    have hstep : Echo _ (sl.step o id (.addEdge ty src tgt ps c)) (sl'.step o id (.addEdge ty src tgt ps c)) :=
      h.step fun _ hc => by cases hc
    exact ih ⟨hstep.near, hstep.ordered, fun kind => (hstep.drift kind).mono fun c hc => hc.1⟩
      fun ev hev => hevs ev (List.mem_cons_of_mem _ hev)

omit [Crates] in
/-- Whether the entity is removed. -/
def removed (self : Slot) (kind : EntityKind) : Option Bool := (self.life kind).map AddWins.Flag.removed

/-- Some event of the list counts for the life of the entity. -/
def Decides (o : Ontology) (id : String) (kind : EntityKind) : Slot → List Event → Prop
  | _, [] => False
  | sl, ev :: evs => (sl.decision kind ev).isSome = true ∨ Decides o id kind (sl.step o id ev) evs

theorem removed_step (o : Ontology) (id : String) (sl : Slot) (ev : Event) (kind : EntityKind) :
    (sl.step o id ev).removed kind = (sl.decision kind ev).or (sl.removed kind) := by
  rw [removed, life_step, AddWins.removed_step]
  rfl

/-- An event that comes to both makes the same of the life, if it counts. -/
theorem Near.removed_step (h : sl.Near sl')
    (hc : (sl'.decision kind ev).isSome = true ∨ sl.removed kind = sl'.removed kind) :
    (sl.step o id ev).removed kind = (sl'.step o id ev).removed kind := by
  rw [Slot.removed_step, Slot.removed_step, h.decision]
  obtain hd | heq := hc
  · obtain ⟨b, hb⟩ := Option.isSome_iff_exists.mp hd
    rw [hb, Option.some_or, Option.some_or]
  · rw [heq]

theorem Echo.removed_play_edges {evs : List Event} (h : Echo S sl sl') (hevs : AddsEdges evs)
    (hc : Decides o id kind sl' evs ∨ sl.removed kind = sl'.removed kind) :
    (sl.play o id evs).removed kind = (sl'.play o id evs).removed kind := by
  induction evs generalizing sl sl' with
  | nil => exact hc.resolve_left fun hno => hno
  | cons ev evs ih =>
    have hstep : Echo S (sl.play o id [ev]) (sl'.play o id [ev]) :=
      h.play_edges fun x hx => hevs x (by simp_all)
    refine ih hstep (fun x hx => hevs x (List.mem_cons_of_mem _ hx)) ?_
    obtain (hd | hlater) | heq := hc
    · exact .inr (h.near.removed_step (.inl hd))
    · exact .inl hlater
    · exact .inr (h.near.removed_step (.inr heq))

end Slot

/-! ### One entry -/

/-- An entity and a clock that its last clock may be off by. -/
abbrev Stir := String × EntityKind × HybridClock

namespace MaterializedGraph

variable [Crates] {g g' : MaterializedGraph} {σ : HashOrder} {e : Entry} {es : List Entry}
  {stirs : List Stir} {known : Entry → Bool} {kind : EntityKind} {id : String}

/-- The last clocks that an entry the graph has seen moves. -/
def stirred (self : MaterializedGraph) (e : Entry) : List Stir :=
  (self.ownEvents .full e).flatMap fun x =>
    ((self.slot x.1).stirs self.ontology x.2).map fun kc => (x.1, kc.1, kc.2)

/-- What is still in question after an entry that is new. -/
def unsettled (self : MaterializedGraph) (e : Entry) (stirs : List Stir) : List Stir :=
  stirs.filter fun s => (self.ownEvents .full e).all fun x =>
    x.1 != s.1 || !(self.slot x.1).settles s.2.1 x.2

/-- The graph has taken in what the entry brings, or holds it pending. -/
structure TakenIn (g : MaterializedGraph) (e : Entry) : Prop where
  ordinary : e.Ordinary
  seen : ∀ x ∈ g.ownEvents .full e, (g.slot x.1).HasSeen g.ontology x.2
  held : g.holds e.payload = true → g.pendingEdges[e.hash]? = some e

/-- The entry, with the edges it completes, counts for the life of the entity. -/
def Decides (g : MaterializedGraph) (σ : HashOrder) (e : Entry) (kind : EntityKind) (id : String) : Prop :=
  (g.slot id).Decides g.ontology id kind (eventsAt id (g.events σ .full e))

/-- The edges an entry completes are added. -/
theorem addsEdges_eventsAt (g : MaterializedGraph) (l : List Entry) (id : String) :
    Slot.AddsEdges (eventsAt id (l.flatMap (g.edgeEvents .full))) := by
  intro ev hev
  obtain ⟨p, -, hp⟩ := List.mem_flatMap.mp (mem_eventsAt.mp hev)
  obtain hnil | ⟨i, ty, src, tgt, ps, -, heq⟩ := edgeEvents_cases g .full p
  · rw [hnil] at hp
    cases hp
  · rw [heq, List.mem_singleton, Prod.mk.injEq] at hp
    exact ⟨ty, src, tgt, ps, _, hp.2⟩

/-- An entry that the graph has taken in completes no edge. -/
theorem TakenIn.retried_eq_nil (ht : g.TakenIn e) (hg : g.Settled) : g.retried σ .full e = [] := by
  refine List.eq_nil_iff_forall_not_mem.mpr fun p hp => ?_
  obtain ⟨⟨id, ty, st, lb, ps, hpay⟩, hacc, hready, h, hh⟩ := mem_retried_iff.mp hp
  have hown : g.ownEvents .full e = [(id, .addNode ty st lb ps e.clock)] := by
    rw [hpay, accepts] at hacc
    simp [ownEvents, hpay, hacc]
  obtain ⟨nd, hnd, -⟩ := ht.seen (id, .addNode ty st lb ps e.clock) (by rw [hown]; exact List.mem_cons_self)
  have htypes : ∀ i, (g.withNode e).typeOf i = g.typeOf i := by
    intro i
    rw [withNode, hpay]
    dsimp only
    rw [typeOf_applyAddNode]
    split
    · rename_i hi
      subst hi
      have hty : g.typeOf id = some nd.nodeType := congrArg (Option.map Node.nodeType) hnd
      rw [hty, Option.getD_some]
    · rfl
  rw [isReady_congr htypes, (hg h p hh).2] at hready
  cases hready

omit [Crates] in
theorem Twin.symm (h : Twin g g') : Twin g' g := ⟨h.ontology.symm, h.pending.symm, fun i => (h.types i).symm⟩

omit [Crates] in
theorem Twin.trans {g'' : MaterializedGraph} (h : Twin g g') (h' : Twin g' g'') : Twin g g'' :=
  ⟨h.ontology.trans h'.ontology, h.pending.trans h'.pending, fun i => (h.types i).trans (h'.types i)⟩

omit [Crates] in
theorem Twin.settled (h : Twin g g') (hg : g.Settled) : g'.Settled := fun k p hp => by
  rw [← h.pending] at hp
  rw [← isReady_congr h.types]
  exact hg k p hp

/-- Applying it to a twin leaves a twin. -/
theorem TakenIn.twin (ht : g'.TakenIn e) (h : Twin g g') (hg : g.Settled) : Twin (g.apply σ e) g := by
  refine hg.twin_applyInner σ ht.ordinary .full true (fun id ty st lb ps hp hv => ?_)
    fun id ty src tgt ps hp hh => ?_
  · rw [h.ontology] at hv
    obtain ⟨nd, hnd, -⟩ := ht.seen (id, .addNode ty st lb ps e.clock) (by simp [ownEvents, hp, hv])
    rw [h.types]
    exact Option.isSome_iff_exists.mpr ⟨_, congrArg (Option.map Node.nodeType) hnd⟩
  · rw [h.pending]
    refine ht.held ?_
    rw [hp, holds]
    rw [holdsEdge, h.ontology, h.types, h.types] at hh
    exact hh

/-! ### A run in which known entries stand among new ones -/

/-- Some later entry counts for the life of the entity. The graph is that of the new entries. -/
def Redecided (known : Entry → Bool) (σ : HashOrder) (kind : EntityKind) (id : String) :
    MaterializedGraph → List Entry → Prop
  | _, [] => False
  | g, e :: es => g.Decides σ e kind id ∨
      Redecided known σ kind id (if known e then g else g.apply σ e) es

/-- What a known entry makes of a life was so, or a later entry decides the life anew. -/
def LifeKept (known : Entry → Bool) (σ : HashOrder) (g : MaterializedGraph) (e : Entry)
    (es : List Entry) : Prop :=
  ∀ x ∈ g.ownEvents .full e, ∀ kind b, (g.slot x.1).decision kind x.2 = some b →
    (g.slot x.1).removed kind = some b ∨ Redecided known σ kind x.1 g es

/-- A new add is later than the last clock of its node, and than the clocks it may be off by. -/
def AddsFairly (g : MaterializedGraph) (stirs : List Stir) (e : Entry) : Prop :=
  ∀ x ∈ g.ownEvents .full e, Slot.Fair (fun kind c => (x.1, kind, c) ∈ stirs) (g.slot x.1) x.2

/-- Known entries among new ones do no harm. The graph is that of the new entries: it has taken
in what a known one brings, a life that a known one sets was so or is decided anew, and the adds
that come later do not depend on the last clocks that known ones move. -/
def Harmless (known : Entry → Bool) (σ : HashOrder) (demand : MaterializedGraph → Entry → Prop)
    (fin : List Stir → Prop) : MaterializedGraph → List Stir → List Entry → Prop
  | _, stirs, [] => fin stirs
  | g, stirs, e :: es =>
    if known e then
      g.TakenIn e ∧ demand g e ∧ g.LifeKept known σ e es ∧
        Harmless known σ demand fin g (stirs ++ g.stirred e) es
    else g.AddsFairly stirs e ∧ Harmless known σ demand fin (g.apply σ e) (g.unsettled e stirs) es

/-- The second graph is the first without what known entries set, as far as it is not set
again. -/
structure Echoes (known : Entry → Bool) (σ : HashOrder) (g g' : MaterializedGraph) (stirs : List Stir)
    (es : List Entry) : Prop where
  twin : Twin g g'
  settled : g.Settled
  slots : ∀ id, Slot.Echo (fun kind c => (id, kind, c) ∈ stirs) (g.slot id) (g'.slot id)
  life : ∀ kind id, (g.slot id).removed kind = (g'.slot id).removed kind ∨
    Redecided known σ kind id g' es

/-- Entries have the same events of their own in twins. -/
theorem Echoes.ownEvents (h : Echoes known σ g g' stirs es) (e : Entry) :
    g.ownEvents .full e = g'.ownEvents .full e := by
  unfold MaterializedGraph.ownEvents
  rw [h.twin.ontology, edgeEvents_congr h.twin.ontology h.twin.types]

/-- An entry has one event of its own for an identifier at most. -/
theorem eventsAt_ownEvents_cases (g : MaterializedGraph) (mode : ValidationMode) (e : Entry) (id : String) :
    eventsAt id (g.ownEvents mode e) = [] ∨ ∃ ev, eventsAt id (g.ownEvents mode e) = [ev] := by
  obtain hnil | ⟨⟨i, ev⟩, -, hown⟩ := ownEvents_cases g mode e
  · exact .inl (by rw [hnil, eventsAt_nil])
  · rw [hown, eventsAt_cons]
    split
    · exact .inr ⟨ev, rfl⟩
    · exact .inl rfl

/-- **Step.** A known entry comes to the first graph alone. -/
theorem Echoes.again (h : Echoes known σ g g' stirs (e :: es)) (hk : known e = true)
    (ht : g'.TakenIn e) (hlife : g'.LifeKept known σ e es) :
    Echoes known σ (g.apply σ e) g' (stirs ++ g'.stirred e) es := by
  have hg' : g'.Settled := h.twin.settled h.settled
  have hevents : g'.events σ .full e = g'.ownEvents .full e := by
    rw [events_eq, ht.retried_eq_nil hg', List.flatMap_nil, List.append_nil]
  have hslot : ∀ id, (g.apply σ e).slot id =
      (g.slot id).play g'.ontology id (eventsAt id (g'.ownEvents .full e)) := fun id => by
    rw [apply, slot_applyInner g σ ht.ordinary, h.twin.events, hevents, h.twin.ontology]
  have hlater : ∀ kind id, (g.slot id).removed kind = (g'.slot id).removed kind ∨
      g'.Decides σ e kind id ∨ Redecided known σ kind id g' es := fun kind id => by
    have hl := h.life kind id
    rw [Redecided, if_pos hk] at hl
    exact hl
  refine ⟨(ht.twin h.twin h.settled).trans h.twin, settled_invariant.applyAny h.settled σ e true, fun id => ?_,
    fun kind id => ?_⟩
  · rw [hslot]
    have hstay := (h.slots id).mono (T := fun kind c => (id, kind, c) ∈ stirs ++ g'.stirred e)
      fun kind c hc => List.mem_append_left _ hc
    obtain hnil | ⟨⟨i, ev⟩, -, hown⟩ := ownEvents_cases g' .full e
    · rw [hnil]
      exact hstay
    · rw [hown, eventsAt_cons]
      split <;> rename_i hi
      · obtain rfl : i = id := hi
        have hseen := ht.seen (i, ev) (by rw [hown]; exact List.mem_cons_self)
        refine ((h.slots i).known hseen).mono fun kind c hc => ?_
        refine List.mem_append.mpr (hc.imp id fun hst => ?_)
        rw [stirred, hown, List.flatMap_singleton]
        exact List.mem_map_of_mem hst
      · exact hstay
  · rw [hslot]
    have hl := hlater kind id
    rw [Decides, hevents] at hl
    obtain hnil | ⟨⟨i, ev⟩, -, hown⟩ := ownEvents_cases g' .full e
    · rw [hnil] at hl ⊢
      exact hl.imp_right fun h => h.resolve_left fun hno => hno
    · rw [hown, eventsAt_cons] at hl ⊢
      split at hl <;> rename_i hi
      · obtain rfl : i = id := hi
        rw [if_pos rfl, eventsAt_nil, Slot.play_cons, Slot.play_nil, Slot.removed_step,
          (h.slots i).near.decision]
        cases hd : (g'.slot i).decision kind ev with
        | some b =>
          have hkept := hlife (i, ev) (by rw [hown]; exact List.mem_cons_self) kind b hd
          exact hkept.imp_left Eq.symm
        | none =>
          refine hl.imp_right fun h => h.resolve_left ?_
          rintro (hno | hno)
          · rw [hd] at hno
            cases hno
          · exact hno
      · rw [if_neg hi]
        exact hl.imp_right fun h => h.resolve_left fun hno => hno

/-- **Step.** A new entry comes to both. -/
theorem Echoes.fresh (h : Echoes known σ g g' stirs (e :: es)) (hk : known e = false) (he : e.Ordinary)
    (hfair : g'.AddsFairly stirs e) :
    Echoes known σ (g.apply σ e) (g'.apply σ e) (g'.unsettled e stirs) es := by
  have hslot : ∀ id, (g.apply σ e).slot id = (g.slot id).play g'.ontology id
      (eventsAt id (g'.ownEvents .full e) ++
        eventsAt id ((g'.retried σ .full e).flatMap ((g'.withNode e).edgeEvents .full))) := fun id => by
    rw [apply, slot_applyInner g σ he, h.twin.events, events_eq, h.twin.ontology, eventsAt_append]
  have hslot' : ∀ id, (g'.apply σ e).slot id = (g'.slot id).play g'.ontology id
      (eventsAt id (g'.ownEvents .full e) ++
        eventsAt id ((g'.retried σ .full e).flatMap ((g'.withNode e).edgeEvents .full))) := fun id => by
    rw [apply, slot_applyInner g' σ he, events_eq, eventsAt_append]
  -- the event of its own, then the edges it completes
  have hown : ∀ id, Slot.Echo (fun kind c => (id, kind, c) ∈ g'.unsettled e stirs)
      ((g.slot id).play g'.ontology id (eventsAt id (g'.ownEvents .full e)))
      ((g'.slot id).play g'.ontology id (eventsAt id (g'.ownEvents .full e))) := fun id => by
    obtain hnil | ⟨⟨i, ev⟩, -, hown⟩ := ownEvents_cases g' .full e
    · rw [hnil]
      refine (h.slots id).mono fun kind c hc => List.mem_filter.mpr ⟨hc, ?_⟩
      rw [hnil, List.all_nil]
    · rw [hown, eventsAt_cons]
      split <;> rename_i hi
      · obtain rfl : i = id := hi
        have hfair' := hfair (i, ev) (by rw [hown]; exact List.mem_cons_self)
        refine ((h.slots i).step hfair').mono fun kind c hc => ?_
        refine List.mem_filter.mpr ⟨hc.1, ?_⟩
        simp [hown, hc.2]
      · refine (h.slots id).mono fun kind c hc => List.mem_filter.mpr ⟨hc, ?_⟩
        have hne : i ≠ id := hi
        simp [hown, hne]
  refine ⟨h.twin.applyInner σ he .full true, settled_invariant.applyAny h.settled σ e true, fun id => ?_,
    fun kind id => ?_⟩
  · rw [hslot, hslot', Slot.play_append, Slot.play_append]
    exact (hown id).play_edges (addsEdges_eventsAt (g'.withNode e) _ id)
  · have hl := h.life kind id
    rw [Redecided, if_neg (by simp [hk]), ← or_assoc] at hl
    refine hl.imp_left fun hc => ?_
    rw [Decides, events_eq, eventsAt_append] at hc
    rw [hslot, hslot', Slot.play_append, Slot.play_append]
    have hedges := addsEdges_eventsAt (g'.withNode e) (g'.retried σ .full e) id
    have hafter := hown id
    obtain hnil | ⟨ev, hev⟩ := eventsAt_ownEvents_cases g' .full e id
    · rw [hnil, List.nil_append] at hc
      rw [hnil] at hafter ⊢
      exact hafter.removed_play_edges hedges hc.symm
    · rw [hev, List.singleton_append] at hc
      rw [hev] at hafter ⊢
      refine hafter.removed_play_edges hedges ?_
      obtain heq | hd | hlater := hc
      · exact .inr ((h.slots id).near.removed_step (.inr heq))
      · exact .inr ((h.slots id).near.removed_step (.inl hd))
      · exact .inl hlater

/-- **Run.** Known entries that do no harm: the graph ends as the new ones make it, as far as life
and last clocks are not concerned, and the lives are the same too. -/
theorem Echoes.run {demand : MaterializedGraph → Entry → Prop} {fin : List Stir → Prop}
    (h : Echoes known σ g g' stirs es) (hes : ∀ e ∈ es, known e = false → e.Ordinary)
    (hh : Harmless known σ demand fin g' stirs es) : ∃ stirs', fin stirs' ∧
      Echoes known σ (g.applyAll σ es) (g'.applyAll σ (es.filter fun e => !known e)) stirs' [] := by
  induction es generalizing g g' stirs with
  | nil => exact ⟨stirs, hh, h⟩
  | cons e es ih =>
    have hrest : ∀ x ∈ es, known x = false → x.Ordinary := fun x hx => hes x (List.mem_cons_of_mem e hx)
    rw [Harmless] at hh
    cases hk : known e with
    | true =>
      rw [if_pos hk] at hh
      obtain ⟨ht, -, hlife, hh⟩ := hh
      rw [List.filter_cons_of_neg (by simp [hk])]
      exact ih (h.again hk ht hlife) hrest hh
    | false =>
      rw [if_neg (by simp [hk])] at hh
      rw [List.filter_cons_of_pos (by simp [hk])]
      exact ih (h.fresh hk (hes e List.mem_cons_self hk) hh.1) hrest hh.2

theorem Echoes.refl (known : Entry → Bool) (σ : HashOrder) (hg : g.Settled)
    (hord : ∀ id, (g.slot id).Ordered) (es : List Entry) : Echoes known σ g g [] es :=
  ⟨.refl g, hg, fun id => ⟨.refl _, hord id, fun _ => .inl rfl⟩, fun _ _ => .inl rfl⟩

/-! ### What is seen -/

end MaterializedGraph

end SilkGraph
