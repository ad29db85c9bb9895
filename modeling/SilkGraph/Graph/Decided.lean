import SilkGraph.Graph.Reflects

/-!
# Nodes that their entries decide

What a node ought to be, given the events about it as a set: it is live if no removal is
later than every add, and each property has the value written last. `Decided` says that a
slot holds this node. Events keep it if they come in order (`Fits`): an add is not overtaken
by a removal that is later, and an update finds the node.

Two slots decided by two sets show the same node exactly if the sets agree on what is live
and on what was written last (`Slot.Decided.shown_eq_iff`), whatever the order the events
came in.
-/

namespace SilkGraph

/-! ### What a set of events decides -/

/-- The event is about a node. -/
def Event.OfNode : Event → Prop
  | .addNode .. | .update .. | .removeNode _ => True
  | _ => False

/-- The events add the node at a clock. -/
def Added (W : Event → Prop) (clock : HybridClock) : Prop :=
  ∃ ty st lb ps, W (.addNode ty st lb ps clock)

/-- No removal is later than every add. -/
def Live (W : Event → Prop) : Prop :=
  ∃ c, Added W c ∧ ∀ r, W (.removeNode r) → r ≤ c

/-- The events write a value to a property, and no later one. -/
def LatestValue (W : Event → Prop) (key : String) (value : Value) : Prop :=
  ∃ c, Written W key value c ∧ ∀ v' c', Written W key v' c' → c' ≤ c

/-- Writes of a property at one clock write one value. -/
def TieFree (W : Event → Prop) : Prop :=
  ∀ k v v' c, Written W k v c → Written W k v' c → v = v'

/-- Two sets of events make the same of a node. -/
structure SameNode (W W' : Event → Prop) : Prop where
  live : Live W ↔ Live W'
  values : Live W → ∀ k v, LatestValue W k v ↔ LatestValue W' k v

/-- One event more. -/
def AndAlso (W : Event → Prop) (ev : Event) : Event → Prop := fun x => W x ∨ x = ev

section Sets

variable {W : Event → Prop} {ev : Event} {k : String} {v : Value} {c : HybridClock}

theorem TieFree.mono {W' : Event → Prop} (h : TieFree W) (hle : ∀ ev, W' ev → W ev) : TieFree W' :=
  fun k v v' c ⟨ev, hev, hw⟩ ⟨ev', hev', hw'⟩ => h k v v' c ⟨ev, hle ev hev, hw⟩ ⟨ev', hle ev' hev', hw'⟩

theorem written_andAlso : Written (AndAlso W ev) k v c ↔ Written W k v c ∨ ev.Writes k v c := by
  constructor
  · rintro ⟨x, hx | rfl, hw⟩
    · exact .inl ⟨x, hx, hw⟩
    · exact .inr hw
  · rintro (⟨x, hx, hw⟩ | hw)
    · exact ⟨x, .inl hx, hw⟩
    · exact ⟨ev, .inr rfl, hw⟩

theorem added_andAlso : Added (AndAlso W ev) c ↔
    Added W c ∨ ∃ ty st lb ps, ev = .addNode ty st lb ps c := by
  constructor
  · rintro ⟨ty, st, lb, ps, h | h⟩
    · exact .inl ⟨ty, st, lb, ps, h⟩
    · exact .inr ⟨ty, st, lb, ps, h.symm⟩
  · rintro (⟨ty, st, lb, ps, h⟩ | ⟨ty, st, lb, ps, rfl⟩)
    · exact ⟨ty, st, lb, ps, .inl h⟩
    · exact ⟨ty, st, lb, ps, .inr rfl⟩

end Sets

/-! ### Tables -/

namespace PropertyTable

variable {t : PropertyTable} {P : String → Value → HybridClock → Prop} {k : String} {v : Value}
  {c : HybridClock} {ps : BTreeMap String Value}

/-- Every property has a clock. -/
def Whole (t : PropertyTable) : Prop := ∀ k v, (t.cell k).1 = some v → ∃ c, (t.cell k).2 = some c

theorem whole_writeCell {p : Cell} (h : ∀ v, p.1 = some v → ∃ c, p.2 = some c) :
    ∀ w, (writeCell p v c).1 = some w → ∃ c', (writeCell p v c).2 = some c' := by
  intro w hw
  rw [writeCell] at hw ⊢
  split
  · exact ⟨c, rfl⟩
  · rename_i hlt
    rw [if_neg hlt] at hw
    exact h w hw

theorem Whole.write (h : t.Whole) : (t.write k v c).Whole := by
  intro k' w hw
  rw [cell_write] at hw ⊢
  split <;> rename_i hk
  · rw [if_pos hk] at hw
    exact whole_writeCell (h k') w hw
  · rw [if_neg hk] at hw
    exact h k' w hw

theorem Whole.mergeLww (h : t.Whole) : (t.mergeLww ps c).Whole := by
  intro k w hw
  rw [cell_mergeLww] at hw ⊢
  cases hv : ps[k]? with
  | none =>
    rw [hv] at hw
    exact h k w hw
  | some v =>
    rw [hv] at hw
    exact whole_writeCell (h k) w hw

theorem whole_init : (init ps c).Whole := by
  rw [init_eq]
  refine Whole.mergeLww fun k v hv => ?_
  simp [cell] at hv

/-- A table that comes from writes and covers them all holds what was written last. -/
theorem From.value_iff (h : t.From P) (hwhole : t.Whole)
    (hcov : ∀ k v c, P k v c → Covers (t.cell k) c)
    (htie : ∀ k v v' c, P k v c → P k v' c → v = v') :
    t.properties[k]? = some v ↔ ∃ c, P k v c ∧ ∀ v' c', P k v' c' → c' ≤ c := by
  have hcell : (t.cell k).1 = t.properties[k]? := rfl
  constructor
  · intro hv
    obtain ⟨c, hc⟩ := hwhole k v hv
    obtain ⟨v', hv', hw⟩ := h k c hc
    obtain rfl : v = v' := Option.some.inj (hv.symm.trans hv')
    refine ⟨c, hw, fun w c' hw' => ?_⟩
    obtain ⟨c'', hc'', hle⟩ := hcov k w c' hw'
    obtain rfl := Option.some.inj (hc.symm.trans hc'')
    exact hle
  · rintro ⟨c, hw, hlast⟩
    obtain ⟨c', hc', hle⟩ := hcov k v c hw
    obtain ⟨v', hv', hw'⟩ := h k c' hc'
    obtain rfl := le_antisymm hle (hlast v' c' hw')
    rw [← hcell, hv', htie k v v' c hw hw']

end PropertyTable

/-! ### Nodes -/

/-- The node is the one that the events decide. -/
structure Node.Decided (W : Event → Prop) (nd : Node) : Prop where
  added : Added W nd.lastAddClock
  latest : ∀ c, Added W c → c ≤ nd.lastAddClock
  covers : ∀ k v c, Written W k v c → Covers (nd.table.cell k) c
  values : nd.table.From (Written W)
  whole : nd.table.Whole
  removed : nd.tombstoned = true ↔ ∃ r, W (.removeNode r) ∧ nd.lastAddClock < r

/-- The slot holds the node that the events decide: none if they only remove. -/
structure Slot.Decided (W : Event → Prop) (sl : Slot) : Prop where
  node : ∀ nd ∈ sl.node, nd.Decided W
  absent : sl.node = none → ∀ ev, W ev → ∃ r, ev = .removeNode r

namespace Node.Decided

variable {W : Event → Prop} {nd : Node} {id ty lb k : String} {st : Option String} {v : Value}
  {ps : BTreeMap String Value} {c : HybridClock}

theorem live_iff (h : nd.Decided W) : nd.tombstoned = false ↔ Live W := by
  rw [← Bool.not_eq_true, h.removed]
  constructor
  · intro hno
    refine ⟨_, h.added, fun r hr => not_lt.mp fun hlt => hno ⟨r, hr, hlt⟩⟩
  · rintro ⟨c, hc, hr⟩ ⟨r, hrem, hlt⟩
    exact absurd (hr r hrem) (not_le.mpr ((h.latest c hc).trans_lt hlt))

theorem value_iff (h : nd.Decided W) (htie : TieFree W) :
    nd.properties[k]? = some v ↔ LatestValue W k v :=
  h.values.value_iff h.whole h.covers htie

/-- **Step.** An add of a new node. -/
theorem create (hno : ∀ ev, W ev → ∃ r, ev = .removeNode r) (hrem : ∀ r, W (.removeNode r) → r ≤ c) :
    (Node.create id ty st lb ps c).Decided (AndAlso W (.addNode ty st lb ps c)) := by
  have hadded : ∀ c', ¬ Added W c' := by
    rintro c' ⟨_, _, _, _, h⟩
    obtain ⟨r, hr⟩ := hno _ h
    cases hr
  have hwritten : ∀ k v c', ¬ Written W k v c' := by
    rintro k v c' ⟨ev, hev, hw⟩
    obtain ⟨r, rfl⟩ := hno ev hev
    exact hw
  have htab : (Node.create id ty st lb ps c).table = PropertyTable.init ps c := rfl
  refine ⟨added_andAlso.mpr (.inr ⟨ty, st, lb, ps, rfl⟩), fun c' hc' => ?_, fun k v c' hw => ?_, ?_, ?_, ?_⟩
  · obtain hc' | ⟨_, _, _, _, heq⟩ := added_andAlso.mp hc'
    · exact absurd hc' (hadded c')
    · cases heq
      exact le_rfl
  · obtain hw | ⟨hk, rfl⟩ := written_andAlso.mp hw
    · exact absurd hw (hwritten k v c')
    · rw [htab, PropertyTable.init_eq]
      exact PropertyTable.absorbs_mergeLww k (Std.ExtTreeMap.mem_iff_isSome_getElem?.mpr (by rw [hk]; rfl))
  · rw [htab]
    exact PropertyTable.from_init fun k v hk => written_andAlso.mpr (.inr ⟨hk, rfl⟩)
  · exact PropertyTable.whole_init
  · refine ⟨fun ht => (by cases ht), fun ⟨r, hr, hlt⟩ => ?_⟩
    exact absurd (hrem r (hr.resolve_right nofun)) (not_le.mpr hlt)

/-- **Step.** An add of a node that is there: no removal is later than all adds. -/
theorem readd (h : nd.Decided W)
    (hrem : ∀ r, W (.removeNode r) → r ≤ c ∨ ∃ c', Added W c' ∧ r ≤ c') :
    (nd.readd st lb ps c).Decided (AndAlso W (.addNode ty st lb ps c)) := by
  have hadd : (nd.readd st lb ps c).lastAddClock = max nd.lastAddClock c := Node.readd_lastAddClock
  refine ⟨?_, fun c' hc' => ?_, fun k v c' hw => ?_, ?_, ?_, ?_⟩
  · rw [hadd, added_andAlso]
    obtain hle | hle := le_total c nd.lastAddClock
    · rw [max_eq_left hle]
      exact .inl h.added
    · rw [max_eq_right hle]
      exact .inr ⟨ty, st, lb, ps, rfl⟩
  · rw [hadd]
    obtain hc' | ⟨_, _, _, _, heq⟩ := added_andAlso.mp hc'
    · exact (h.latest c' hc').trans (le_max_left ..)
    · cases heq
      exact le_max_right ..
  · rw [Node.readd_table]
    obtain hw | ⟨hk, rfl⟩ := written_andAlso.mp hw
    · exact PropertyTable.covers_mergeLww (h.covers k v c' hw)
    · exact PropertyTable.absorbs_mergeLww k (Std.ExtTreeMap.mem_iff_isSome_getElem?.mpr (by rw [hk]; rfl))
  · rw [Node.readd_table]
    refine PropertyTable.From.mergeLww (fun k c' hc' => ?_) fun k v hk =>
      written_andAlso.mpr (.inr ⟨hk, rfl⟩)
    obtain ⟨v, hv, hw⟩ := h.values k c' hc'
    exact ⟨v, hv, written_andAlso.mpr (.inl hw)⟩
  · rw [Node.readd_table]
    exact h.whole.mergeLww
  · rw [hadd, Node.readd_tombstoned]
    refine ⟨nofun, fun ⟨r, hr, hlt⟩ => ?_⟩
    obtain hle | ⟨c', hc', hle⟩ := hrem r (hr.resolve_right nofun)
    · exact absurd (hle.trans (le_max_right ..)) (not_le.mpr hlt)
    · exact absurd ((hle.trans (h.latest c' hc')).trans (le_max_left ..)) (not_le.mpr hlt)

/-- **Step.** An update. -/
theorem update (h : nd.Decided W) : (nd.update k v c).Decided (AndAlso W (.update k v c)) := by
  have hno : ∀ c', Added (AndAlso W (.update k v c)) c' ↔ Added W c' := fun c' => by
    rw [added_andAlso]
    exact or_iff_left nofun
  refine ⟨(hno _).mpr h.added, fun c' hc' => h.latest c' ((hno c').mp hc'), fun k' v' c' hw => ?_, ?_, ?_,
    ?_⟩
  · rw [Node.update_table]
    obtain hw | ⟨rfl, rfl, rfl⟩ := written_andAlso.mp hw
    · exact PropertyTable.covers_write (h.covers k' v' c' hw) v
    · rw [PropertyTable.cell_write, if_pos rfl]
      exact covers_writeCell
  · rw [Node.update_table]
    refine PropertyTable.From.write (fun k' c' hc' => ?_) (written_andAlso.mpr (.inr ⟨rfl, rfl, rfl⟩))
    obtain ⟨v', hv', hw⟩ := h.values k' c' hc'
    exact ⟨v', hv', written_andAlso.mpr (.inl hw)⟩
  · rw [Node.update_table]
    exact h.whole.write
  · rw [Node.update_tombstoned, h.removed, Node.update_lastAddClock]
    exact exists_congr fun r => and_congr_left fun _ => ⟨.inl, fun hr => hr.resolve_right nofun⟩

/-- **Step.** A removal. -/
theorem remove (h : nd.Decided W) : (nd.remove c).Decided (AndAlso W (.removeNode c)) := by
  have hno : ∀ c', Added (AndAlso W (.removeNode c)) c' ↔ Added W c' := fun c' => by
    rw [added_andAlso]
    exact or_iff_left nofun
  have hw : ∀ k v c', Written (AndAlso W (.removeNode c)) k v c' ↔ Written W k v c' := fun k v c' => by
    rw [written_andAlso]
    exact or_iff_left id
  refine ⟨?_, fun c' hc' => ?_, fun k v c' hwr => ?_, ?_, ?_, ?_⟩
  · rw [Node.remove_lastAddClock]
    exact (hno _).mpr h.added
  · rw [Node.remove_lastAddClock]
    exact h.latest c' ((hno c').mp hc')
  · rw [Node.remove_table]
    exact h.covers k v c' ((hw k v c').mp hwr)
  · rw [Node.remove_table]
    intro k c' hc'
    obtain ⟨v, hv, hwr⟩ := h.values k c' hc'
    exact ⟨v, hv, (hw k v c').mpr hwr⟩
  · rw [Node.remove_table]
    exact h.whole
  · rw [Node.remove_lastAddClock]
    obtain hlt | hle := lt_or_ge nd.lastAddClock c
    · rw [Node.remove_of_lt hlt]
      exact ⟨fun _ => ⟨c, .inr rfl, hlt⟩, fun _ => rfl⟩
    · rw [Node.remove_of_le hle, h.removed]
      refine exists_congr fun r => ⟨fun hr => ⟨.inl hr.1, hr.2⟩, fun ⟨hr, hlt⟩ => ⟨?_, hlt⟩⟩
      exact hr.resolve_right fun heq => by cases heq; exact absurd hle (not_le.mpr hlt)

end Node.Decided

/-! ### Slots -/

namespace Slot

variable {W W' : Event → Prop} {sl sl' : Slot} {o : Ontology} {id : String} {ev : Event}

/-- The properties of the node, if it is live. -/
def shown (self : Slot) : Option (BTreeMap String Value) :=
  (self.node.filter fun nd => !nd.tombstoned).map Node.properties

theorem Decided.congr (h : sl.Decided W) (hW : ∀ ev, W ev ↔ W' ev) : sl.Decided W' := by
  obtain rfl : W = W' := funext fun ev => propext (hW ev)
  exact h

theorem Decided.shown_isSome (h : sl.Decided W) : sl.shown.isSome = true ↔ Live W := by
  cases hn : sl.node with
  | none =>
    rw [shown, hn]
    refine ⟨nofun, fun ⟨c, ⟨_, _, _, _, hc⟩, _⟩ => ?_⟩
    obtain ⟨r, hr⟩ := h.absent hn _ hc
    cases hr
  | some nd =>
    have hlive := (h.node nd hn).live_iff
    rw [shown, hn, Option.filter_some, ← hlive]
    cases nd.tombstoned <;> simp

theorem Decided.shown_value (h : sl.Decided W) (htie : TieFree W) {ps : BTreeMap String Value}
    (hps : sl.shown = some ps) (k : String) (v : Value) : ps[k]? = some v ↔ LatestValue W k v := by
  obtain ⟨nd, hnd, rfl⟩ := Option.map_eq_some_iff.mp hps
  exact (h.node nd (Option.filter_eq_some_iff.mp hnd).1).value_iff htie

/-- **Agreement.** Decided slots show the same exactly if the sets make the same of the
node. -/
theorem Decided.shown_eq_iff (h : sl.Decided W) (h' : sl'.Decided W') (htie : TieFree W)
    (htie' : TieFree W') : sl'.shown = sl.shown ↔ SameNode W W' := by
  constructor
  · intro heq
    refine ⟨?_, fun hlive k v => ?_⟩
    · rw [← h.shown_isSome, ← h'.shown_isSome, heq]
    · obtain ⟨ps, hps⟩ := Option.isSome_iff_exists.mp (h.shown_isSome.mpr hlive)
      rw [← h.shown_value htie hps, ← h'.shown_value htie' (heq.trans hps)]
  · intro hsame
    cases hps : sl.shown with
    | none =>
      have hdead : ¬ Live W' := fun hl => by
        have := h.shown_isSome.mpr (hsame.live.mpr hl)
        rw [hps] at this
        cases this
      cases hps' : sl'.shown with
      | none => rfl
      | some ps' => exact absurd (h'.shown_isSome.mp (by rw [hps']; rfl)) hdead
    | some ps =>
      have hlive : Live W := h.shown_isSome.mp (by rw [hps]; rfl)
      obtain ⟨ps', hps'⟩ := Option.isSome_iff_exists.mp (h'.shown_isSome.mpr (hsame.live.mp hlive))
      rw [hps', Option.some.injEq]
      refine Std.ExtTreeMap.ext_getElem? fun {k} => Option.ext fun v => ?_
      rw [h.shown_value htie hps, h'.shown_value htie' hps', hsame.values hlive]

variable [Crates]

omit [Crates] in
/-- The event comes in order: an add brings the node back for good, and an update finds the
node. -/
def Fits (W : Event → Prop) (self : Slot) : Event → Prop
  | .addNode _ _ _ _ c => ∀ r, W (.removeNode r) → r ≤ c ∨ ∃ c', Added W c' ∧ r ≤ c'
  | .update _ _ _ => self.node.isSome = true
  | _ => True

/-- **Step.** An event about the node that comes in order. -/
theorem Decided.step (h : sl.Decided W) (hev : ev.OfNode) (hfits : sl.Fits W ev)
    (hacc : ∀ k v c, ev = .update k v c → sl.accepts o k v = true) :
    (sl.step o id ev).Decided (AndAlso W ev) := by
  cases ev with
  | addNode ty st lb ps c =>
    refine ⟨fun nd hnd => ?_, fun hn => by cases hn⟩
    obtain rfl := Option.some.inj hnd
    cases hn : sl.node with
    | none =>
      refine Node.Decided.create (h.absent hn) fun r hr => (hfits r hr).resolve_right ?_
      rintro ⟨c', ⟨_, _, _, _, hc'⟩, -⟩
      obtain ⟨r', hr'⟩ := h.absent hn _ hc'
      cases hr'
    | some nd => exact (h.node nd hn).readd hfits
  | update k v c =>
    obtain ⟨nd, hn⟩ := Option.isSome_iff_exists.mp hfits
    rw [Slot.step, if_pos (hacc k v c rfl), hn]
    refine ⟨fun nd' hnd' => ?_, fun hn' => by cases hn'⟩
    obtain rfl := Option.some.inj hnd'
    exact (h.node nd hn).update
  | removeNode c =>
    refine ⟨fun nd hnd => ?_, fun hn x hx => ?_⟩
    · obtain ⟨nd₀, hn, rfl⟩ := Option.map_eq_some_iff.mp hnd
      exact (h.node nd₀ hn).remove
    · obtain hx | rfl := hx
      · exact h.absent (Option.map_eq_none_iff.mp hn) x hx
      · exact ⟨c, rfl⟩
  | addEdge | removeEdge => cases hev

omit [Crates] in
theorem Decided.ofNode (h : sl.Decided W) (hn : sl'.node = sl.node) : sl'.Decided W :=
  ⟨fun nd hnd => h.node nd (hn ▸ hnd), fun hno => h.absent (hn ▸ hno)⟩

/-- Events about edges leave the node alone. -/
theorem node_play {evs : List Event} (hevs : ∀ ev ∈ evs, ¬ ev.OfNode) :
    (sl.play o id evs).node = sl.node := by
  induction evs generalizing sl with
  | nil => rfl
  | cons ev evs ih =>
    refine (ih fun ev' hev' => hevs ev' (List.mem_cons_of_mem _ hev')).trans ?_
    cases ev with
    | addEdge | removeEdge => rfl
    | _ => exact absurd trivial (hevs _ List.mem_cons_self)

end Slot

/-! ### Graphs -/

namespace MaterializedGraph

/-- The events about a node among those of the entries. -/
def NodeEventOf (src : Entry → Prop) (id : String) (ev : Event) : Prop :=
  EventOf src id ev ∧ ev.OfNode

/-- The properties of a node, if it is live. -/
def shownNode (self : MaterializedGraph) (id : String) : Option (BTreeMap String Value) :=
  (self.getNode id).map Node.properties

variable [Crates] {g : MaterializedGraph} {σ : HashOrder} {e : Entry} {mode : ValidationMode}
  {adopt : Bool} {id : String} {W : Event → Prop} {ev : Event}

/-- The entry, if it is about the node, is accepted and comes in order. -/
def FitsAt (id : String) (W : Event → Prop) (g : MaterializedGraph) (e : Entry) : Prop :=
  ∀ ev, e.event = some (id, ev) → ev.OfNode →
    g.accepts .full e.payload = true ∧ (g.slot id).Fits W ev

/-- An accepted entry about a node has its event. -/
theorem ownEvents_of_accepts (hev : e.event = some (id, ev)) (hnode : ev.OfNode)
    (hacc : g.accepts mode e.payload = true) : g.ownEvents mode e = [(id, ev)] := by
  rw [Entry.event] at hev
  rw [ownEvents]
  cases hp : e.payload with
  | addNode i ty st lb ps =>
    rw [hp] at hev hacc
    obtain ⟨rfl, rfl⟩ := Prod.mk.inj (Option.some.inj hev)
    exact if_pos hacc
  | updateProperty | removeNode | removeEdge =>
    rw [hp] at hev
    obtain ⟨rfl, rfl⟩ := Prod.mk.inj (Option.some.inj hev)
    rfl
  | addEdge =>
    rw [hp] at hev
    obtain ⟨rfl, rfl⟩ := Prod.mk.inj (Option.some.inj hev)
    cases hnode
  | _ =>
    rw [hp] at hev
    cases hev

omit [Crates] in
theorem payload_of_update {k : String} {v : Value} {c : HybridClock}
    (hev : e.event = some (id, .update k v c)) : e.payload = .updateProperty id k v := by
  rw [Entry.event] at hev
  split at hev <;> cases hev
  assumption

omit [Crates] in
theorem payload_of_addNode {ty lb : String} {st : Option String} {ps : BTreeMap String Value}
    {c : HybridClock} (hev : e.event = some (id, .addNode ty st lb ps c)) :
    e.payload = .addNode id ty st lb ps := by
  rw [Entry.event] at hev
  split at hev <;> cases hev
  assumption

/-- Edges that are judged again do nothing to nodes. -/
theorem node_applyInner (g : MaterializedGraph) (σ : HashOrder) (he : e.Ordinary) (mode : ValidationMode)
    (adopt : Bool) (id : String) : ((g.applyInner σ e mode adopt).slot id).node =
      ((g.slot id).play g.ontology id (eventsAt id (g.ownEvents mode e))).node := by
  rw [slot_applyInner g σ he, events_eq, eventsAt_append, Slot.play_append]
  refine Slot.node_play fun ev hev => ?_
  obtain ⟨p, -, hp⟩ := List.mem_flatMap.mp (mem_eventsAt.mp hev)
  obtain hnil | ⟨i, ty, s, t, ps, -, heq⟩ := edgeEvents_cases (g.withNode e) .full p
  · rw [hnil] at hp
    cases hp
  · rw [heq, List.mem_singleton] at hp
    obtain ⟨-, rfl⟩ := Prod.mk.inj hp
    exact fun hnode => hnode

/-- The events about the node after one more entry. -/
def eventsAfter (id : String) (W : Event → Prop) (e : Entry) : Event → Prop :=
  fun ev => W ev ∨ e.event = some (id, ev) ∧ ev.OfNode

/-- **Step.** An entry that is no checkpoint and comes in order. -/
theorem decided_applyInner (h : (g.slot id).Decided W) (hplain : e.payload.isCheckpoint = false)
    (hfits : FitsAt id W g e) (σ : HashOrder) (adopt : Bool) :
    ((g.applyInner σ e .full adopt).slot id).Decided (eventsAfter id W e) := by
  obtain he | ⟨extension, hp⟩ := ordinary_or_extension hplain
  · by_cases hown : ∃ ev, e.event = some (id, ev) ∧ ev.OfNode
    · obtain ⟨ev, hev, hnode⟩ := hown
      obtain ⟨hacc, hfit⟩ := hfits ev hev hnode
      refine Slot.Decided.ofNode ?_ (node_applyInner g σ he .full adopt id)
      rw [ownEvents_of_accepts hev hnode hacc, eventsAt_cons, if_pos rfl, eventsAt_nil, Slot.play_cons,
        Slot.play_nil]
      refine (h.step hnode hfit fun k v c hup => ?_).congr fun x => or_congr_right ?_
      · rw [hup] at hev
        rw [payload_of_update hev] at hacc
        exact hacc
      · rw [hev, Option.some.injEq, Prod.mk.injEq, eq_comm]
        exact ⟨fun heq => ⟨⟨rfl, heq⟩, heq ▸ hnode⟩, fun hx => hx.1.2⟩
    · -- the entry is about something else
      refine (h.ofNode ((node_applyInner g σ he .full adopt id).trans (Slot.node_play fun ev hev => ?_))).congr
        fun ev => ⟨.inl, fun hev => hev.resolve_right fun hno => hown ⟨ev, hno⟩⟩
      obtain hnil | ⟨x, hx, heq⟩ := ownEvents_cases g .full e
      · rw [hnil] at hev
        cases hev
      · rw [heq, mem_eventsAt, List.mem_singleton] at hev
        subst hev
        exact fun hnode => hown ⟨ev, hx, hnode⟩
  · have hev : e.event = none := by rw [Entry.event, hp]
    rw [slot_of_extend hp .full adopt id]
    refine h.congr fun ev => ⟨.inl, fun hev' => hev'.resolve_right fun hno => ?_⟩
    rw [hev] at hno
    cases hno.1

/-- Every entry about the node comes in order. -/
def InOrder (id : String) (step : MaterializedGraph → Entry → MaterializedGraph) :
    (Event → Prop) → MaterializedGraph → List Entry → Prop
  | _, _, [] => True
  | W, g, e :: es => FitsAt id W g e ∧ InOrder id step (eventsAfter id W e) (step g e) es

/-- **Run.** The node is the one that the entries so far decide. -/
theorem decided_replay {step : MaterializedGraph → Entry → MaterializedGraph} {es : List Entry}
    (hstep : ∀ g e, (∃ adopt, step g e = g.applyInner σ e .full adopt) ∨ e.event = none ∧ step g e = g)
    (hplain : ∀ e ∈ es, e.payload.isCheckpoint = false) (h : (g.slot id).Decided W)
    (horder : InOrder id step W g es) :
    ((es.foldl step g).slot id).Decided fun ev => W ev ∨ NodeEventOf (fun e => e ∈ es) id ev := by
  induction es generalizing g W with
  | nil =>
    exact h.congr fun ev => ⟨.inl, fun hev => hev.resolve_right fun hno => by
      obtain ⟨⟨e, he, -⟩, -⟩ := hno
      cases he⟩
  | cons e es ih =>
    have hone : ((step g e).slot id).Decided (eventsAfter id W e) := by
      obtain ⟨adopt, heq⟩ | ⟨hev, heq⟩ := hstep g e
      · rw [heq]
        exact decided_applyInner h (hplain e List.mem_cons_self) horder.1 σ adopt
      · rw [heq]
        refine h.congr fun ev => ⟨.inl, fun hev' => hev'.resolve_right fun hno => ?_⟩
        rw [hev] at hno
        cases hno.1
    refine (ih (fun x hx => hplain x (List.mem_cons_of_mem e hx)) hone horder.2).congr fun ev => ?_
    rw [eventsAfter, or_assoc]
    refine or_congr_right ⟨?_, ?_⟩
    · rintro (⟨hev, hnode⟩ | ⟨⟨x, hx, hev⟩, hnode⟩)
      · exact ⟨⟨e, List.mem_cons_self, hev⟩, hnode⟩
      · exact ⟨⟨x, List.mem_cons_of_mem e hx, hev⟩, hnode⟩
    · rintro ⟨⟨x, hx, hev⟩, hnode⟩
      obtain rfl | hx := List.mem_cons.mp hx
      · exact .inl ⟨hev, hnode⟩
      · exact .inr ⟨⟨x, hx, hev⟩, hnode⟩

theorem ontology_applyInner (g : MaterializedGraph) (σ : HashOrder) (he : e.Ordinary)
    (mode : ValidationMode) (adopt : Bool) : (g.applyInner σ e mode adopt).ontology = g.ontology := by
  obtain ⟨hext, hchk⟩ := he
  rw [(applyInner_schema g σ e mode adopt).1]
  cases hp : e.payload
  case extendOntology => rw [hp] at hext; cases hext
  case checkpoint => rw [hp] at hchk; cases hchk
  all_goals simp only [GraphOp.evolve]

/-- Accepted adds come in order where nothing was removed or updated. -/
theorem inOrder_of_adds (σ : HashOrder) {es : List Entry} (hordinary : ∀ e ∈ es, e.Ordinary)
    (hadds : ∀ e ∈ es, ∀ ev, e.event = some (id, ev) → ev.OfNode →
      ∃ ty st lb ps c, ev = .addNode ty st lb ps c)
    (hacc : ∀ e ∈ es, ∀ ev, e.event = some (id, ev) → ev.OfNode → g.accepts .full e.payload = true)
    (hW : ∀ r, ¬ W (.removeNode r)) : InOrder id (fun g e => g.apply σ e) W g es := by
  induction es generalizing g W with
  | nil => trivial
  | cons e es ih =>
    refine ⟨fun ev hev hnode => ⟨hacc e List.mem_cons_self ev hev hnode, ?_⟩, ?_⟩
    · obtain ⟨ty, st, lb, ps, c, rfl⟩ := hadds e List.mem_cons_self ev hev hnode
      exact fun r hr => absurd hr (hW r)
    · refine ih (fun x hx => hordinary x (List.mem_cons_of_mem e hx))
        (fun x hx => hadds x (List.mem_cons_of_mem e hx)) (fun x hx ev hev hnode => ?_) fun r hr => ?_
      · -- an add is judged by the ontology alone
        have hx' := hacc x (List.mem_cons_of_mem e hx) ev hev hnode
        obtain ⟨ty, st, lb, ps, c, rfl⟩ := hadds x (List.mem_cons_of_mem e hx) ev hev hnode
        have hkeep : (g.apply σ e).ontology = g.ontology :=
          ontology_applyInner g σ (hordinary e List.mem_cons_self) .full true
        rw [payload_of_addNode hev, accepts] at hx' ⊢
        dsimp only
        rw [hkeep]
        exact hx'
      · obtain hr | ⟨hev, hnode⟩ := hr
        · exact hW r hr
        · obtain ⟨_, _, _, _, _, h⟩ := hadds e List.mem_cons_self _ hev hnode
          cases h

end MaterializedGraph

end SilkGraph
