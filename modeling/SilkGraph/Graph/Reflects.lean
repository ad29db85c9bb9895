import SilkGraph.Graph.Shown

/-!
# What a graph reflects

`Reflects` ties a graph to the entries it has applied. What it shows and what it holds
pending comes from given sources, and each of the entries that are followed is quarantined
or absorbed. An entry leaves quarantine only when it is judged again and accepted, and then
its event is played (`judged_of_released`), so applying one more entry keeps this
(`Reflects.applyInner`), and so does a replay.

A followed update has to find its entity: one that comes to an identifier the graph does not
know is accepted and has no effect.
-/

namespace SilkGraph

/-- The event of an entry and the identifier it is about. -/
def Entry.event (self : Entry) : Option (String × Event) :=
  match self.payload with
  | .addNode nodeId nodeType subtype label properties =>
    some (nodeId, .addNode nodeType subtype label properties self.clock)
  | .addEdge edgeId edgeType sourceId targetId properties =>
    some (edgeId, .addEdge edgeType sourceId targetId properties self.clock)
  | .updateProperty entityId key value => some (entityId, .update key value self.clock)
  | .removeNode nodeId => some (nodeId, .removeNode self.clock)
  | .removeEdge edgeId => some (edgeId, .removeEdge self.clock)
  | _ => none

namespace MaterializedGraph

/-- The event is that of an entry of the given kind. -/
def EventOf (src : Entry → Prop) (id : String) (ev : Event) : Prop :=
  ∃ e, src e ∧ e.event = some (id, ev)

/-- The graph reflects the followed entries: what it shows and holds comes from the sources,
and a followed entry is quarantined or absorbed. -/
structure Reflects (src followed : Entry → Prop) (g : MaterializedGraph) : Prop where
  held : ∀ (h : Hash) (p : Entry), g.pendingEdges[h]? = some p → p.hash = h ∧ src p
  sourced : ∀ id, (g.slot id).Sourced (EventOf src id)
  absorbed : ∀ e, followed e → e.hash ∈ g.quarantined ∨
    ∀ id ev, e.event = some (id, ev) → (g.slot id).Absorbed ev

theorem Reflects.mono {g : MaterializedGraph} {src src' P Q : Entry → Prop} (hr : g.Reflects src P)
    (hsrc : ∀ e, src e → src' e) (hQ : ∀ e, Q e → P e) : g.Reflects src' Q := by
  refine ⟨fun h p hp => (hr.held h p hp).imp_right (hsrc p), fun id => ?_,
    fun e he => hr.absorbed e (hQ e he)⟩
  exact (hr.sourced id).mono fun ev ⟨e, he, hev⟩ => ⟨e, hsrc e he, hev⟩

variable [Crates] {g g' : MaterializedGraph} {σ : HashOrder} {e : Entry} {h : Hash}
  {mode : ValidationMode} {adopt : Bool} {src followed P Q : Entry → Prop}

/-- The operations of a checkpoint are sources with it, and a followed entry is no such
operation: it has parents, and its hash belongs to no other source. -/
structure Distinct (src followed : Entry → Prop) : Prop where
  closed : ∀ (e : Entry) ops opClocks lc ft, src e → e.payload = .checkpoint ops opClocks lc ft →
    ∀ (i : ℕ) (op : GraphOp), ops[i]? = some op →
      src (Entry.new op [] [] (opClock e opClocks i) e.author)
  unique : ∀ a, followed a → ∀ p, src p → p.hash = a.hash → p = a
  later : ∀ a, followed a → a.next ≠ []

/-! ### Which events an entry brings -/

theorem edgeEvents_cases (g : MaterializedGraph) (mode : ValidationMode) (p : Entry) :
    g.edgeEvents mode p = [] ∨ ∃ id ty s t ps, p.payload = .addEdge id ty s t ps ∧
      g.edgeEvents mode p = [(id, .addEdge ty s t ps p.clock)] := by
  rw [edgeEvents]
  split
  · rename_i id ty s t ps hp
    split
    · exact .inr ⟨id, ty, s, t, ps, hp, rfl⟩
    · exact .inl rfl
  · exact .inl rfl

/-- An entry brings its own event or nothing, apart from the edges it completes. -/
theorem ownEvents_cases (g : MaterializedGraph) (mode : ValidationMode) (e : Entry) :
    g.ownEvents mode e = [] ∨ ∃ x, e.event = some x ∧ g.ownEvents mode e = [x] := by
  rw [ownEvents]
  split <;> rename_i hp
  · split
    · exact .inr ⟨_, by rw [Entry.event, hp], rfl⟩
    · exact .inl rfl
  · obtain hnil | ⟨i, ty, s, t, ps, hpay, heq⟩ := edgeEvents_cases g mode e
    · exact .inl hnil
    · exact .inr ⟨_, by rw [Entry.event, hpay], heq⟩
  · exact .inr ⟨_, by rw [Entry.event, hp], rfl⟩
  · exact .inr ⟨_, by rw [Entry.event, hp], rfl⟩
  · exact .inr ⟨_, by rw [Entry.event, hp], rfl⟩
  · exact .inl rfl

/-- Every event is that of the entry or of an edge that was held. -/
theorem event_of_mem_events {x : String × Event} (hx : x ∈ g.events σ mode e) :
    ∃ a, (a = e ∨ ∃ h : Hash, g.pendingEdges[h]? = some a) ∧ a.event = some x := by
  rw [events_eq, List.mem_append, List.mem_flatMap] at hx
  obtain hown | ⟨p, hp, hmem⟩ := hx
  · obtain hnil | ⟨y, hy, heq⟩ := ownEvents_cases g mode e
    · rw [hnil] at hown
      cases hown
    · rw [heq, List.mem_singleton] at hown
      exact ⟨e, .inl rfl, hown ▸ hy⟩
  · refine ⟨p, .inr (ready_of_retried hp).2, ?_⟩
    obtain hnil | ⟨id, ty, s, t, ps, hpay, heq⟩ := edgeEvents_cases (g.withNode e) .full p
    · rw [hnil] at hmem
      cases hmem
    · rw [heq, List.mem_singleton] at hmem
      rw [hmem, Entry.event, hpay]

/-- A hash that is in quarantine or comes to be judged, and is out afterwards, is that of an
edge that was judged again and accepted, or of the entry, which was accepted. -/
theorem judged_of_released (hg : g.HeldByHash) (σ : HashOrder) (he : e.Ordinary)
    (hin : h ∈ g.quarantined ∨ e.hash = h) (hout : h ∉ (g.applyInner σ e mode adopt).quarantined) :
    (∃ p ∈ g.retried σ mode e, p.hash = h ∧ (g.withNode e).edgeEvents .full p ≠ []) ∨
      e.hash = h ∧ (isJudged e.payload = true → g.accepts mode e.payload = true) := by
  rw [mem_quarantined_applyInner hg σ he, not_or] at hout
  obtain ⟨hno, hrest⟩ := hout
  by_cases hp : ∃ p ∈ g.retried σ mode e, p.hash = h
  · obtain ⟨p, hp, hph⟩ := hp
    exact .inl ⟨p, hp, hph, fun hnil => hno ⟨p, hp, hph, hnil⟩⟩
  · right
    have hrest := fun hif => hrest ⟨fun p hp' hph => hp ⟨p, hp', hph⟩, hif⟩
    split at hrest <;> rename_i hc
    · exact ⟨hc.1, fun _ => by simpa using hrest⟩
    · have hh := hin.resolve_left hrest
      exact ⟨hh, fun hj => absurd ⟨hh, hj⟩ hc⟩

/-! ### Ordinary entries -/

omit [Crates] in
theorem Reflects.heldByHash (hr : g.Reflects src P) : g.HeldByHash := fun h p hp => (hr.held h p hp).1

/-- An edge that is judged again and accepted is absorbed. -/
theorem absorbed_of_retried {p : Entry} (he : e.Ordinary) (hp : p ∈ g.retried σ mode e)
    (hacc : (g.withNode e).edgeEvents .full p ≠ []) {id : String} {ev : Event}
    (hev : p.event = some (id, ev)) : ((g.applyInner σ e mode adopt).slot id).Absorbed ev := by
  obtain ⟨i, ty, s, t, ps, hpay, heq⟩ := (edgeEvents_cases _ _ _).resolve_left hacc
  rw [Entry.event, hpay, Option.some.injEq, Prod.mk.injEq] at hev
  obtain ⟨rfl, rfl⟩ := hev
  rw [slot_applyInner g σ he]
  refine Slot.absorbed_play (mem_eventsAt.mpr ?_) fun _ _ => trivial
  rw [events_eq, List.mem_append, List.mem_flatMap]
  exact .inr ⟨p, hp, by rw [heq]; exact List.mem_singleton_self _⟩

/-- An entry that is accepted, and finds what it updates, is absorbed. -/
theorem absorbed_of_accepts (he : e.Ordinary) (hacc : g.accepts mode e.payload = true)
    (hfind : ∀ id k v, e.payload = .updateProperty id k v → (g.slot id).Occupied) {id : String}
    {ev : Event} (hev : e.event = some (id, ev)) :
    ((g.applyInner σ e mode adopt).slot id).Absorbed ev := by
  rw [slot_applyInner g σ he, events_eq, eventsAt_append, Slot.play_append]
  refine Slot.Absorbed.grow ?_ (Slot.grows_play ..)
  rw [ownEvents]
  rw [Entry.event] at hev
  cases hp : e.payload with
  | addNode i ty st lb ps =>
    rw [hp] at hev hacc
    obtain ⟨rfl, rfl⟩ := Prod.mk.inj (Option.some.inj hev)
    have hv : (g.ontology.validateNodeMode ty st ps mode).isOk = true := hacc
    simp only [hv, if_true]
    exact Slot.absorbed_play (mem_eventsAt.mpr List.mem_cons_self) fun _ _ => trivial
  | addEdge i ty s t ps =>
    rw [hp] at hev hacc
    obtain ⟨rfl, rfl⟩ := Prod.mk.inj (Option.some.inj hev)
    have hne : g.edgeEvents mode e ≠ [] := fun hnil => by
      rw [accepts, (edgeEvents_eq_nil_iff hp).mp hnil] at hacc
      cases hacc
    obtain ⟨_, _, _, _, _, hpay, heq⟩ := (edgeEvents_cases _ _ _).resolve_left hne
    rw [hp] at hpay
    cases hpay
    exact Slot.absorbed_play (mem_eventsAt.mpr (by rw [heq]; exact List.mem_singleton_self _))
      fun _ _ => trivial
  | updateProperty i k v =>
    rw [hp] at hev hacc
    obtain ⟨rfl, rfl⟩ := Prod.mk.inj (Option.some.inj hev)
    simp only [eventsAt_cons, if_true, eventsAt_nil, Slot.play_cons, Slot.play_nil]
    exact Slot.absorbed_step ⟨hacc, hfind i k v hp⟩
  | removeNode | removeEdge =>
    rw [hp] at hev
    obtain ⟨rfl, rfl⟩ := Prod.mk.inj (Option.some.inj hev)
    trivial
  | _ =>
    rw [hp] at hev
    cases hev

omit [Crates] in
theorem isJudged_of_event {x : String × Event} (hev : e.event = some x) : isJudged e.payload = true := by
  rw [Entry.event] at hev
  split at hev <;> rename_i hp
  · rw [hp]; rfl
  · rw [hp]; rfl
  · rw [hp]; rfl
  · rw [hp]; rfl
  · rw [hp]; rfl
  · cases hev

/-- **Step.** An entry that is neither a checkpoint nor an extension. -/
theorem Reflects.ordinary (hr : g.Reflects src P) (hd : Distinct src followed) (σ : HashOrder)
    (he : e.Ordinary) (mode : ValidationMode) (adopt : Bool) (hsrc : src e)
    (hQ : ∀ a, Q a → followed a ∧ (P a ∨ a = e))
    (hfind : Q e → ∀ id k v, e.payload = .updateProperty id k v → (g.slot id).Occupied) :
    (g.applyInner σ e mode adopt).Reflects src Q := by
  refine ⟨fun h p hp => ?_, fun id => ?_, fun a ha => ?_⟩
  · rw [getElem?_pending_applyInner g σ he] at hp
    split at hp
    · cases hp
    · split at hp <;> rename_i hh
      · obtain rfl := Option.some.inj hp
        exact ⟨hh.1, hsrc⟩
      · exact hr.held h p hp
  · rw [slot_applyInner g σ he]
    refine (hr.sourced id).play fun ev hev => ?_
    obtain ⟨a, ha, hae⟩ := event_of_mem_events (mem_eventsAt.mp hev)
    obtain rfl | ⟨h, hh⟩ := ha
    · exact ⟨a, hsrc, hae⟩
    · exact ⟨a, (hr.held h a hh).2, hae⟩
  · by_cases hout : a.hash ∈ (g.applyInner σ e mode adopt).quarantined
    · exact .inl hout
    · right
      obtain ⟨hfol, hPe⟩ := hQ a ha
      -- absorbed before, or in quarantine, or the entry itself
      have hcases : (∀ id ev, a.event = some (id, ev) → (g.slot id).Absorbed ev) ∨
          (a.hash ∈ g.quarantined ∨ e.hash = a.hash) := by
        obtain hP | rfl := hPe
        · exact (hr.absorbed a hP).symm.imp_right .inl
        · exact .inr (.inr rfl)
      intro id ev hev
      obtain habs | hin := hcases
      · rw [slot_applyInner g σ he]
        exact (habs id ev hev).grow (Slot.grows_play ..)
      · obtain ⟨p, hp, hph, hacc⟩ | ⟨hh, hacc⟩ := judged_of_released hr.heldByHash σ he hin hout
        · obtain ⟨h, hh⟩ := (ready_of_retried hp).2
          obtain rfl := hd.unique a hfol p (hr.held h p hh).2 hph
          exact absorbed_of_retried he hp hacc hev
        · obtain rfl := hd.unique a hfol e hsrc hh
          exact absorbed_of_accepts he (hacc (isJudged_of_event hev)) (hfind ha) hev

/-! ### Any entry -/

/-- The graph changes in nothing but its ontology and the quarantine record of an entry that
has no event. -/
theorem Reflects.schema (hr : g.Reflects src P) (hd : Distinct src followed) (hsrc : src e)
    (hev : e.event = none) (hQ : ∀ a, Q a → followed a ∧ (P a ∨ a = e))
    (hpend : g'.pendingEdges = g.pendingEdges) (hslot : ∀ id, g'.slot id = g.slot id)
    (hquar : ∀ h, h ≠ e.hash → h ∈ g.quarantined → h ∈ g'.quarantined) : g'.Reflects src Q := by
  refine ⟨fun h p hp => hr.held h p (hpend ▸ hp), fun id => ?_, fun a ha => ?_⟩
  · rw [hslot]
    exact hr.sourced id
  · obtain ⟨hfol, hPe⟩ := hQ a ha
    by_cases hh : e.hash = a.hash
    · obtain rfl := hd.unique a hfol e hsrc hh
      exact .inr fun id ev h => by rw [hev] at h; cases h
    · obtain hP | rfl := hPe
      · simp only [hslot]
        exact (hr.absorbed a hP).imp_left (hquar _ (Ne.symm hh))
      · exact absurd rfl hh

omit [Crates] in
theorem mem_of_release {h' : Hash} (hne : h ≠ h') (hh : h ∈ g.quarantined) :
    h ∈ (g.release h').quarantined := (mem_release_iff g h').mpr ⟨Ne.symm hne, hh⟩

theorem Reflects.extension (hr : g.Reflects src P) (hd : Distinct src followed) (hsrc : src e)
    {x : OntologyExtension} (hp : e.payload = .extendOntology x)
    (hQ : ∀ a, Q a → followed a ∧ (P a ∨ a = e)) : (g.extendOntologyArm e x).Reflects src Q := by
  have hev : e.event = none := by rw [Entry.event, hp]
  rw [extendOntologyArm]
  split
  · exact hr.schema hd hsrc hev hQ rfl (fun _ => rfl) fun h hne hh => HashMap.mem_insert.mpr (.inr hh)
  · exact hr.schema hd hsrc hev hQ rfl (fun _ => rfl) fun h hne hh => mem_of_release hne hh

theorem Reflects.plain (hr : g.Reflects src P) (hd : Distinct src followed) (σ : HashOrder)
    (mode : ValidationMode) (adopt : Bool) {op : GraphOp} (hp : e.payload = op)
    (hext : op.isExtendOntology = false) (hchk : op.isCheckpoint = false) (hsrc : src e)
    (hQ : ∀ a, Q a → followed a ∧ (P a ∨ a = e))
    (hfind : Q e → ∀ id k v, op = .updateProperty id k v → (g.slot id).Occupied) :
    (MaterializedGraph.applyPayload σ mode adopt e op g).Reflects src Q := by
  subst hp
  exact hr.ordinary hd σ ⟨hext, hchk⟩ mode adopt hsrc hQ hfind

/-- An operation of a checkpoint is not followed. -/
theorem Distinct.not_followed (hd : Distinct src followed) (op : GraphOp) (c : HybridClock)
    (author : String) : ¬ followed (Entry.new op [] [] c author) := fun h => hd.later _ h rfl

mutual

theorem Reflects.applyPayload (hd : Distinct src followed) (σ : HashOrder) (mode : ValidationMode)
    (adopt : Bool) (e : Entry) : ∀ (op : GraphOp) {g : MaterializedGraph} {P Q : Entry → Prop},
      e.payload = op → src e → g.Reflects src P → (∀ a, P a → followed a) →
      (∀ a, Q a → followed a ∧ (P a ∨ a = e)) →
      (Q e → ∀ id k v, op = .updateProperty id k v → (g.slot id).Occupied) →
      (applyPayload σ mode adopt e op g).Reflects src Q
  | .checkpoint ops opClocks lc ft, g, P, Q, hp, hsrc, hr, hP, hQ, _ => by
    have hops := Reflects.applyOps hd σ adopt e opClocks ops 0 (fun i op hi => by
      rw [Nat.zero_add]
      exact hd.closed e ops opClocks lc ft hsrc hp i op hi) hr hP
    have hev : e.event = none := by rw [Entry.event, hp]
    rw [MaterializedGraph.applyPayload]
    exact hops.schema hd hsrc hev hQ rfl (fun _ => rfl) fun h hne hh => mem_of_release hne hh
  | .extendOntology x, _, _, _, hp, hsrc, hr, _, hQ, _ => by
    rw [MaterializedGraph.applyPayload]
    exact hr.extension hd hsrc hp hQ
  | .defineOntology _, _, _, _, hp, hs, hr, _, hQ, hf => hr.plain hd σ mode adopt hp rfl rfl hs hQ hf
  | .defineLens _, _, _, _, hp, hs, hr, _, hQ, hf => hr.plain hd σ mode adopt hp rfl rfl hs hQ hf
  | .addNode .., _, _, _, hp, hs, hr, _, hQ, hf => hr.plain hd σ mode adopt hp rfl rfl hs hQ hf
  | .addEdge .., _, _, _, hp, hs, hr, _, hQ, hf => hr.plain hd σ mode adopt hp rfl rfl hs hQ hf
  | .updateProperty .., _, _, _, hp, hs, hr, _, hQ, hf => hr.plain hd σ mode adopt hp rfl rfl hs hQ hf
  | .removeNode .., _, _, _, hp, hs, hr, _, hQ, hf => hr.plain hd σ mode adopt hp rfl rfl hs hQ hf
  | .removeEdge .., _, _, _, hp, hs, hr, _, hQ, hf => hr.plain hd σ mode adopt hp rfl rfl hs hQ hf

theorem Reflects.applyOps (hd : Distinct src followed) (σ : HashOrder) (adopt : Bool) (e : Entry)
    (opClocks : List (ℕ × ℕ)) : ∀ (ops : List GraphOp) (i : ℕ) {g : MaterializedGraph}
      {P : Entry → Prop},
      (∀ (j : ℕ) (op : GraphOp), ops[j]? = some op →
        src (Entry.new op [] [] (opClock e opClocks (i + j)) e.author)) →
      g.Reflects src P → (∀ a, P a → followed a) → (applyOps σ adopt e opClocks ops i g).Reflects src P
  | [], i, _, _, _, hr, _ => by
    rw [MaterializedGraph.applyOps]
    exact hr
  | op :: ops, i, g, P, hsrc, hr, hP => by
    have hrest : ∀ (j : ℕ) (op : GraphOp), ops[j]? = some op →
        src (Entry.new op [] [] (opClock e opClocks (i + 1 + j)) e.author) := fun j op hj => by
      rw [Nat.add_assoc, Nat.add_comm 1 j]
      exact hsrc (j + 1) op hj
    have hop := Reflects.applyPayload hd σ .skipRequired true
      (Entry.new op [] [] (opClock e opClocks i) e.author) op (Q := P) rfl (hsrc 0 op rfl) hr hP
      (fun a ha => ⟨hP a ha, .inl ha⟩) fun h => absurd (hP _ h) (hd.not_followed _ _ _)
    cases op with
    | defineOntology carried =>
      rw [MaterializedGraph.applyOps]
      refine Reflects.applyOps hd σ adopt e opClocks ops (i + 1) hrest ?_ hP
      cases adopt
      · exact hr
      · exact ⟨hr.held, hr.sourced, hr.absorbed⟩
    | _ =>
      rw [MaterializedGraph.applyOps]
      · exact Reflects.applyOps hd σ adopt e opClocks ops (i + 1) hrest hop hP
      all_goals exact fun _ h => by cases h

end

/-- **Step.** Applying an entry keeps what is reflected, and adds the entry. -/
theorem Reflects.applyInner (hr : g.Reflects src P) (hd : Distinct src followed) (σ : HashOrder)
    (mode : ValidationMode) (adopt : Bool) (hsrc : src e) (hP : ∀ a, P a → followed a)
    (hQ : ∀ a, Q a → followed a ∧ (P a ∨ a = e))
    (hfind : Q e → ∀ id k v, e.payload = .updateProperty id k v → (g.slot id).Occupied) :
    (g.applyInner σ e mode adopt).Reflects src Q :=
  Reflects.applyPayload hd σ mode adopt e e.payload rfl hsrc hr hP hQ hfind

/-! ### Replays -/

/-- Every update among the entries to follow finds its entity in the graph it comes to. -/
def Finds (follow : Entry → Prop) (step : MaterializedGraph → Entry → MaterializedGraph) :
    MaterializedGraph → List Entry → Prop
  | _, [] => True
  | g, e :: es =>
    (follow e → ∀ id k v, e.payload = .updateProperty id k v → (g.slot id).Occupied) ∧
      Finds follow step (step g e) es

omit [Crates] in
/-- With no update to follow there is nothing to find. -/
theorem finds_of_not {follow : Entry → Prop} {step : MaterializedGraph → Entry → MaterializedGraph}
    (h : ∀ e id k v, follow e → e.payload ≠ .updateProperty id k v) (g : MaterializedGraph)
    (es : List Entry) : Finds follow step g es := by
  induction es generalizing g with
  | nil => trivial
  | cons e es ih => exact ⟨fun he id k v hp => absurd hp (h e id k v he), ih _⟩

/-- **Run.** A replay reflects the entries it goes through. -/
theorem Reflects.replay {step : MaterializedGraph → Entry → MaterializedGraph} {follow : Entry → Prop}
    (hstep : ∀ g e, (∃ adopt, step g e = g.applyInner σ e .full adopt) ∨ e.event = none ∧ step g e = g)
    (hd : Distinct src followed) (hfollow : ∀ a, followed a → follow a) {es : List Entry}
    (hsrc : ∀ e ∈ es, src e) (hr : g.Reflects src P) (hP : ∀ a, P a → followed a)
    (hfind : Finds follow step g es) :
    (es.foldl step g).Reflects src fun a => P a ∨ followed a ∧ a ∈ es := by
  induction es generalizing g P with
  | nil => exact ⟨hr.held, hr.sourced, fun a ha => hr.absorbed a (ha.resolve_right (by simp))⟩
  | cons e es ih =>
    have hQ : ∀ a, (P a ∨ followed a ∧ a = e) → followed a ∧ (P a ∨ a = e) := fun a ha =>
      ha.elim (fun h => ⟨hP a h, .inl h⟩) fun h => ⟨h.1, .inr h.2⟩
    have hone : (step g e).Reflects src fun a => P a ∨ followed a ∧ a = e := by
      obtain ⟨adopt, heq⟩ | ⟨hev, heq⟩ := hstep g e
      · rw [heq]
        exact hr.applyInner hd σ .full adopt (hsrc e List.mem_cons_self) hP hQ fun h =>
          hfind.1 (hfollow e (hQ e h).1)
      · rw [heq]
        exact hr.schema hd (hsrc e List.mem_cons_self) hev hQ rfl (fun _ => rfl) fun _ _ h => h
    have hrest := ih (fun a ha => hsrc a (List.mem_cons_of_mem _ ha)) hone (fun a ha => (hQ a ha).1)
      hfind.2
    refine ⟨hrest.held, hrest.sourced, fun a ha => hrest.absorbed a ?_⟩
    obtain ha | ⟨hfol, hmem⟩ := ha
    · exact .inl (.inl ha)
    · obtain rfl | hmem := List.mem_cons.mp hmem
      · exact .inl (.inr ⟨hfol, rfl⟩)
      · exact .inr ⟨hfol, hmem⟩

theorem materialize_step (σ : HashOrder) (g : MaterializedGraph) (e : Entry) :
    (∃ adopt, materialize σ g e = g.applyInner σ e .full adopt) ∨
      e.event = none ∧ materialize σ g e = g := by
  rw [materialize]
  split <;> rename_i hext
  · refine .inr ⟨?_, rfl⟩
    rw [Entry.event]
    split <;> rename_i hp
    all_goals first | rfl | (rw [hp] at hext; cases hext)
  · exact .inl ⟨false, rfl⟩

/-- A rebuild reflects every entry it replays. -/
theorem Reflects.rebuild (hd : Distinct src followed) {follow : Entry → Prop}
    (hfollow : ∀ a, followed a → follow a) (g : MaterializedGraph) {es : List Entry}
    (hsrc : ∀ e ∈ es, src e) (hfind : Finds follow (materialize σ) (secondPass g.baseOntology es) es) :
    (g.rebuild σ es).Reflects src fun a => followed a ∧ a ∈ es := by
  obtain ⟨hn, he, hp⟩ := entities_secondPass g.baseOntology es
  have hstart : (secondPass g.baseOntology es).Reflects src fun _ => False := by
    refine ⟨fun h p hp' => ?_, fun id => ?_, fun _ h => h.elim⟩
    · rw [hp, Std.ExtTreeMap.getElem?_empty] at hp'
      cases hp'
    · rw [slot, hn, he, Std.ExtTreeMap.getElem?_empty, Std.ExtTreeMap.getElem?_empty]
      exact .empty
  have h := Reflects.replay (materialize_step σ) hd hfollow hsrc hstart (fun _ h => h.elim) hfind
  exact ⟨h.held, h.sourced, fun a ha => h.absorbed a (.inr ha)⟩

end MaterializedGraph

end SilkGraph
