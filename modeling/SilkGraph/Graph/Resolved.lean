import SilkGraph.Graph.Actions
import SilkGraph.Graph.Visible

/-!
# Quarantined hashes and the entries behind them

A record in quarantine is written under the hash of the entry that is judged. For an entry
of the log that is a hash of the log, for an operation of a checkpoint it is the hash of an
entry that was made up for it and that nobody holds. So what is quarantined can be looked up
in the log as long as the operations of checkpoints are accepted: `smooth` says that they
are, along a replay, and `Resolves.foldl` is the result. An edge that is held back is in
quarantine all the same.
-/

namespace SilkGraph

variable [Crates]

/-- The action does not quarantine the hash of a made-up entry: an operation of a checkpoint
is accepted. Nor is a held edge released instead (two hashes collide). -/
def Action.fine (g : MaterializedGraph) : Action → Bool
  | .op x => g.accepts .skipRequired x.payload && !g.pendingEdges.contains x.hash
  | .release hash => !g.pendingEdges.contains hash
  | _ => true

/-- Along a replay every action is fine. -/
def smooth (σ : HashOrder) : MaterializedGraph → List Action → Bool
  | _, [] => true
  | g, a :: as => a.fine g && smooth σ (a.run σ g) as

omit [Crates] in
/-- The entries behind the actions: those of the log are known, and none is a checkpoint. -/
def Action.Known (known : Hash → Option GraphOp) : Action → Prop
  | .entry e => e.payload.isCheckpoint = false ∧ known e.hash = some e.payload
  | .op x => x.payload.isCheckpoint = false
  | _ => True

namespace MaterializedGraph

variable {known : Hash → Option GraphOp} {g : MaterializedGraph} {σ : HashOrder} {e : Entry}

/-- An accepted edge has both endpoints. -/
theorem ends_of_acceptsEdge {mode : ValidationMode} {ty src tgt : String}
    {ps : BTreeMap String Value} (h : g.acceptsEdge mode ty src tgt ps = true) :
    (g.typeOf src).isSome = true ∧ (g.typeOf tgt).isSome = true := by
  rw [acceptsEdge, Bool.and_eq_true] at h
  cases hs : g.typeOf src with
  | none => simp [hs] at h
  | some a =>
    cases ht : g.typeOf tgt with
    | none => simp [hs, ht] at h
    | some b => exact ⟨rfl, rfl⟩

/-- Every quarantined hash is known, and the held edges are quarantined edges that still lack
an endpoint. -/
structure Resolves (known : Hash → Option GraphOp) (g : MaterializedGraph) : Prop where
  quarantined : ∀ h ∈ g.quarantined, (known h).isSome
  pending : ∀ (h : Hash) (p : Entry), g.pendingEdges[h]? = some p → h ∈ g.quarantined ∧
    known h = some p.payload ∧ ∃ id ty src tgt ps, p.payload = .addEdge id ty src tgt ps
  settled : g.Settled

namespace Resolves

omit [Crates] in
theorem new (o : Ontology) : (MaterializedGraph.new o).Resolves known := by
  refine ⟨fun h hh => ?_, fun h p hp => ?_, fun h p hp => ?_⟩
  · exact absurd hh Std.ExtTreeMap.not_mem_empty
  all_goals
    rw [MaterializedGraph.new, Std.ExtTreeMap.getElem?_empty] at hp
    cases hp

omit [Crates] in
/-- What is known may grow. -/
theorem mono {known' : Hash → Option GraphOp} (hg : g.Resolves known)
    (hle : ∀ h op, known h = some op → known' h = some op) : g.Resolves known' := by
  refine ⟨fun h hh => ?_, fun h p hp => ?_, hg.settled⟩
  · obtain ⟨op, hop⟩ := Option.isSome_iff_exists.mp (hg.quarantined h hh)
    rw [hle h op hop, Option.isSome_some]
  · obtain ⟨hq, hk, hedge⟩ := hg.pending h p hp
    exact ⟨hq, hle h _ hk, hedge⟩

omit [Crates] in
theorem withOntology (hg : g.Resolves known) (ontology : Ontology) :
    ({ g with ontology } : MaterializedGraph).Resolves known :=
  ⟨hg.quarantined, hg.pending, hg.settled⟩

theorem quarantine (hg : g.Resolves known) {h : Hash} (hh : (known h).isSome) (kind reason : String) :
    (g.quarantine h kind reason).Resolves known := by
  refine ⟨fun h' hh' => ?_, fun h' p hp => ?_, hg.settled⟩
  · obtain rfl | hh' := (mem_quarantine_iff g h kind reason).mp hh'
    · exact hh
    · exact hg.quarantined h' hh'
  · obtain ⟨hq, hrest⟩ := hg.pending h' p hp
    exact ⟨(mem_quarantine_iff g h kind reason).mpr (.inr hq), hrest⟩

omit [Crates] in
/-- A hash may be released if no edge is held under it. -/
theorem release (hg : g.Resolves known) {h : Hash} (hh : g.pendingEdges[h]? = none) :
    (g.release h).Resolves known := by
  refine ⟨fun h' hh' => ?_, fun h' p hp => ?_, hg.settled⟩
  · exact hg.quarantined h' ((mem_release_iff g h).mp hh').2
  · obtain ⟨hq, hrest⟩ := hg.pending h' p hp
    refine ⟨(mem_release_iff g h).mpr ⟨?_, hq⟩, hrest⟩
    rintro rfl
    rw [MaterializedGraph.release] at hp
    rw [hh] at hp
    cases hp

omit [Crates] in
theorem heldByHash (hg : g.Resolves known) : g.HeldByHash := fun h p hp => (hg.settled h p hp).1

/-- **Step.** An ordinary entry that is known, or that is accepted under a hash that no edge
is held under. -/
theorem applyInner (hg : g.Resolves known) (σ : HashOrder) (he : e.Ordinary) (mode : ValidationMode)
    (adopt : Bool) (hknown : known e.hash = some e.payload ∨
      g.accepts mode e.payload = true ∧ g.pendingEdges[e.hash]? = none) :
    (g.applyInner σ e mode adopt).Resolves known := by
  have hretried : ∀ p ∈ g.retried σ mode e, ∀ h, p.hash = h → known h = some p.payload := by
    rintro p hp h rfl
    obtain ⟨-, x, hx⟩ := ready_of_retried hp
    have hhash := (hg.settled x p hx).1
    exact hhash ▸ (hg.pending x p hx).2.1
  refine ⟨fun h hh => ?_, fun h p hp => ?_, hg.settled.applyInner σ he mode adopt⟩
  · obtain ⟨p, hp, hph, -⟩ | ⟨-, hrest⟩ := (mem_quarantined_applyInner hg.heldByHash σ he mode adopt).mp hh
    · rw [hretried p hp h hph, Option.isSome_some]
    · split at hrest
      · rename_i hself
        obtain hk | ⟨ha, -⟩ := hknown
        · rw [← hself.1, hk, Option.isSome_some]
        · rw [ha] at hrest
          cases hrest
      · exact hg.quarantined h hrest
  · rw [getElem?_pending_applyInner] at hp
    · split at hp
      · cases hp
      · rename_i hnot
        push Not at hnot
        split at hp
        · -- the entry itself is held
          rename_i hself
          obtain rfl := Option.some.inj hp
          have hno : g.accepts mode e.payload = false := accepts_of_holds hself.2
          obtain ⟨id, ty, src, tgt, ps, hedge⟩ : ∃ id ty src tgt ps,
              e.payload = .addEdge id ty src tgt ps := by
            have hholds := hself.2
            unfold holds at hholds
            split at hholds
            · exact ⟨_, _, _, _, _, ‹_›⟩
            · cases hholds
          refine ⟨(mem_quarantined_applyInner hg.heldByHash σ he mode adopt).mpr (.inr ⟨hnot, ?_⟩), ?_,
            id, ty, src, tgt, ps, hedge⟩
          · rw [if_pos ⟨hself.1, by rw [hedge]; rfl⟩]
            exact hno
          · obtain hk | ⟨ha, -⟩ := hknown
            · rw [← hself.1, hk]
            · rw [ha] at hno
              cases hno
        · rename_i hother
          obtain ⟨hq, hk, id, ty, src, tgt, ps, hedge⟩ := hg.pending h p hp
          refine ⟨(mem_quarantined_applyInner hg.heldByHash σ he mode adopt).mpr (.inr ⟨hnot, ?_⟩),
            hk, id, ty, src, tgt, ps, hedge⟩
          split
          · rename_i hself
            obtain hk' | ⟨-, hnone⟩ := hknown
            · -- the same edge again, and it still lacks an endpoint
              obtain rfl := hself.1
              have hpay : e.payload = p.payload := Option.some.inj (hk'.symm.trans hk)
              have hready := (hg.settled _ p hp).2
              rw [hpay, hedge, accepts]
              by_contra hacc
              obtain ⟨hsrc, htgt⟩ := ends_of_acceptsEdge ((Bool.not_eq_false _).mp hacc)
              rw [isReady_iff.mpr ⟨id, ty, src, tgt, ps, hedge, hsrc, htgt⟩] at hready
              cases hready
            · rw [hself.1, hp] at hnone
              cases hnone
          · exact hq
    · exact he

/-- **Step.** Any action that is known and fine. -/
theorem run (hg : g.Resolves known) (σ : HashOrder) {a : Action} (ha : a.Known known)
    (hfine : a.fine g = true) : (a.run σ g).Resolves known := by
  have hextend : ∀ (x : Entry) (mode : ValidationMode) (extension : OntologyExtension),
      x.payload = .extendOntology extension → ((known x.hash).isSome ∨
        g.accepts mode x.payload = true) → g.pendingEdges[x.hash]? = none →
      (g.applyInner σ x mode true).Resolves known := by
    intro x mode extension hx hjudged hnone
    rw [applyInner_of_extend hx mode true]
    rw [hx, accepts] at hjudged
    rw [extendOntologyArm]
    split <;> rename_i o hm
    · refine (hg.withOntology o).quarantine (hjudged.resolve_right fun hok => ?_) _ _
      rw [hm] at hok
      cases hok
    · exact (hg.withOntology o).release hnone
  cases a with
  | entry e =>
    obtain ⟨hplain, hk⟩ := ha
    obtain he | ⟨extension, hp⟩ := ordinary_or_extension hplain
    · exact hg.applyInner σ he .full true (.inl hk)
    · refine hextend e .full extension hp (.inl (by rw [hk]; rfl)) ?_
      -- the entry known under this hash is no edge
      by_contra hheld
      obtain ⟨p, hp'⟩ := Option.ne_none_iff_exists'.mp hheld
      obtain ⟨-, hk', id, ty, src, tgt, ps, hedge⟩ := hg.pending e.hash p hp'
      rw [hk, hp, hedge] at hk'
      cases hk'
  | op x =>
    rw [Action.fine, Bool.and_eq_true, Bool.not_eq_true', ← Bool.not_eq_true,
      Std.ExtTreeMap.contains_iff_mem, HashMap.not_mem_iff_getElem?] at hfine
    obtain hx | ⟨extension, hp⟩ := ordinary_or_extension ha
    · exact hg.applyInner σ hx .skipRequired true (.inr hfine)
    · exact hextend x .skipRequired extension hp (.inr hfine.1) hfine.2
  | adopt ontology => exact hg.withOntology ontology
  | release hash =>
    rw [Action.fine, Bool.not_eq_true', ← Bool.not_eq_true, Std.ExtTreeMap.contains_iff_mem,
      HashMap.not_mem_iff_getElem?] at hfine
    exact hg.release hfine

/-- **Run.** A smooth replay of known actions. -/
theorem foldl (hg : g.Resolves known) (σ : HashOrder) {as : List Action}
    (hknown : ∀ a ∈ as, a.Known known) (hsmooth : smooth σ g as = true) :
    (as.foldl (Action.run σ) g).Resolves known := by
  induction as generalizing g with
  | nil => exact hg
  | cons a as ih =>
    rw [smooth, Bool.and_eq_true] at hsmooth
    exact ih (hg.run σ (hknown a List.mem_cons_self) hsmooth.1)
      (fun b hb => hknown b (List.mem_cons_of_mem a hb)) hsmooth.2

theorem foldOntology (hg : g.Resolves known) (he : known e.hash = some e.payload) :
    (g.foldOntology e).Resolves known := by
  rw [MaterializedGraph.foldOntology]
  split
  · split <;> rename_i o _
    · exact (hg.withOntology o).quarantine (by rw [he]; rfl) _ _
    · exact hg.withOntology o
  · exact hg.withOntology _
  · exact hg

end Resolves

end MaterializedGraph

/-! ### The actions of known entries -/

mutual

theorem GraphOp.known_innerActions (known : Hash → Option GraphOp) (x : Entry) :
    ∀ op : GraphOp, x.payload = op → ∀ a ∈ op.innerActions x, a.Known known
  | .checkpoint ops opClocks _ _, _ => by
    intro a ha
    rw [GraphOp.innerActions, List.mem_append, List.mem_singleton] at ha
    obtain ha | rfl := ha
    · exact GraphOp.known_opsActions known true x opClocks ops 0 a ha
    · exact trivial
  | .defineOntology _, h | .addNode .., h | .addEdge .., h | .updateProperty .., h
  | .removeNode _, h | .removeEdge _, h | .extendOntology _, h | .defineLens _, h => by
    intro a ha
    rw [GraphOp.innerActions] at ha
    · obtain rfl := List.mem_singleton.mp ha
      change x.payload.isCheckpoint = false
      rw [h]
      rfl
    · nofun

theorem GraphOp.known_opsActions (known : Hash → Option GraphOp) (adopt : Bool) (e : Entry)
    (opClocks : List (ℕ × ℕ)) : ∀ (ops : List GraphOp) (i : ℕ),
      ∀ a ∈ GraphOp.opsActions adopt e opClocks ops i, a.Known known
  | [], i, a, ha => by
    rw [GraphOp.opsActions] at ha
    cases ha
  | op :: ops, i, a, ha => by
    have hrest := GraphOp.known_opsActions known adopt e opClocks ops (i + 1) a
    have hop := GraphOp.known_innerActions known
      (Entry.new op [] [] (MaterializedGraph.opClock e opClocks i) e.author) op rfl a
    cases op with
    | defineOntology carried =>
      rw [GraphOp.opsActions, List.mem_append] at ha
      obtain ha | ha := ha
      · split at ha
        · obtain rfl := List.mem_singleton.mp ha
          exact trivial
        · cases ha
      · exact hrest ha
    | _ =>
      rw [GraphOp.opsActions, List.mem_append] at ha
      · exact ha.elim hop hrest
      all_goals exact fun _ h => by cases h

end

theorem Entry.known_actions {known : Hash → Option GraphOp} {e : Entry} {adopt : Bool}
    (he : known e.hash = some e.payload) : ∀ a ∈ e.actions adopt, a.Known known := by
  intro a ha
  rw [Entry.actions] at ha
  split at ha
  · rename_i ops opClocks _ _ _
    obtain ha | ha := List.mem_append.mp ha
    · exact GraphOp.known_opsActions known adopt e opClocks ops 0 a ha
    · obtain rfl := List.mem_singleton.mp ha
      exact trivial
  · rename_i hne
    obtain rfl := List.mem_singleton.mp ha
    refine ⟨?_, he⟩
    cases hp : e.payload with
    | checkpoint ops opClocks p l => exact absurd hp (hne ops opClocks p l)
    | _ => rfl

omit [Crates] in
/-- The action is made of an entry that is no checkpoint. -/
def Action.Plain : Action → Prop
  | .entry e => e.payload.isCheckpoint = false
  | .op x => x.payload.isCheckpoint = false
  | _ => True

namespace MaterializedGraph

variable {known : Hash → Option GraphOp} {g : MaterializedGraph} {σ : HashOrder} {e : Entry}

/-- No action of an entry is a whole checkpoint: its operations come one by one. -/
theorem plain_of_actions {adopt : Bool} {a : Action} (ha : a ∈ e.actions adopt) : a.Plain := by
  have hknown : a.Known fun _ => some e.payload := Entry.known_actions rfl a ha
  cases a with
  | entry e => exact hknown.1
  | op x => exact hknown
  | adopt ontology => trivial
  | release hash => trivial

theorem plain_of_replayActions {es : List Entry} {a : Action} (ha : a ∈ replayActions es) : a.Plain := by
  obtain ⟨e, -, ha⟩ := List.mem_flatMap.mp ha
  exact plain_of_actions ha

/-! ### Invariants -/

/-- A property of graphs that holds at the start of a replay, whatever the ontologies and the
quarantine, and that every action keeps. -/
structure Invariant (I : MaterializedGraph → Prop) : Prop where
  start : ∀ (o base : Ontology) (q : HashMap Hash QuarantineRecord),
    I { new o with quarantined := q, baseOntology := base }
  entry : ∀ {g : MaterializedGraph} (σ : HashOrder) {e : Entry} (mode : ValidationMode),
    e.payload.isCheckpoint = false → I g → I (g.applyInner σ e mode true)
  adopt : ∀ {g : MaterializedGraph} (ontology : Ontology), I g → I { g with ontology }
  release : ∀ {g : MaterializedGraph} (hash : Hash), I g → I (g.release hash)

namespace Invariant

variable {I : MaterializedGraph → Prop}

theorem run (hI : Invariant I) (h : I g) (σ : HashOrder) {a : Action} (ha : a.Plain) : I (a.run σ g) := by
  cases a with
  | entry e => exact hI.entry σ .full ha h
  | op x => exact hI.entry σ .skipRequired ha h
  | adopt ontology => exact hI.adopt ontology h
  | release hash => exact hI.release hash h

theorem actions (hI : Invariant I) (h : I g) (σ : HashOrder) {as : List Action}
    (has : ∀ a ∈ as, a.Plain) : I (as.foldl (Action.run σ) g) := by
  induction as generalizing g with
  | nil => exact h
  | cons a as ih =>
    exact ih (hI.run h σ (has a List.mem_cons_self)) fun b hb => has b (List.mem_cons_of_mem a hb)

/-- **Step.** An entry of any kind. -/
theorem applyAny (hI : Invariant I) (h : I g) (σ : HashOrder) (e : Entry) (adopt : Bool) :
    I (g.applyInner σ e .full adopt) := by
  rw [applyInner_eq_actions]
  exact hI.actions h σ fun a ha => plain_of_actions ha

theorem applyAll (hI : Invariant I) (h : I g) (σ : HashOrder) (es : List Entry) : I (g.applyAll σ es) := by
  induction es generalizing g with
  | nil => exact h
  | cons e es ih => exact ih (hI.applyAny h σ e true)

/-- A rebuild makes it anew. -/
theorem rebuild (hI : Invariant I) (g : MaterializedGraph) (σ : HashOrder) (es : List Entry) :
    I (g.rebuild σ es) := by
  obtain ⟨q, base, heq⟩ := foldOntology_visible g.baseOntology es
  rw [rebuild_eq_actions, heq]
  exact hI.actions (hI.start _ base q) σ fun a ha => plain_of_replayActions ha

end Invariant

/-- Held edges lack an endpoint. For this nothing has to be known, and no operation has to be
accepted. -/
theorem settled_invariant : Invariant Settled where
  start o base q h p hp := by
    rw [new, Std.ExtTreeMap.getElem?_empty] at hp
    cases hp
  entry := by
    intro g σ e mode hplain hg
    obtain he | ⟨extension, hp⟩ := ordinary_or_extension hplain
    · exact hg.applyInner σ he mode true
    · rw [applyInner_of_extend hp, extendOntologyArm]
      split <;> exact hg
  adopt _ hg := hg
  release _ hg := hg

/-! ### Rebuilds and later entries -/

/-- The replay of a list of entries over a base meets no refused operation of a checkpoint. -/
def smoothReplay (σ : HashOrder) (base : Ontology) (es : List Entry) : Bool :=
  smooth σ (es.foldl foldOntology (new base)) (replayActions es)

/-- **Rebuilds.** After a smooth rebuild from known entries everything quarantined is known. -/
theorem resolves_rebuild (g : MaterializedGraph) (σ : HashOrder) {es : List Entry}
    (hes : ∀ e ∈ es, known e.hash = some e.payload)
    (hsmooth : smoothReplay σ g.baseOntology es = true) : (g.rebuild σ es).Resolves known := by
  have hfold : ∀ (l : List Entry) (g : MaterializedGraph), (∀ e ∈ l, known e.hash = some e.payload) →
      g.Resolves known → (l.foldl foldOntology g).Resolves known := by
    intro l
    induction l with
    | nil => exact fun g _ h => h
    | cons e l ih =>
      exact fun g hl h => ih _ (fun x hx => hl x (List.mem_cons_of_mem e hx))
        (h.foldOntology (hl e List.mem_cons_self))
  rw [rebuild_eq_actions]
  refine (hfold es _ hes (.new g.baseOntology)).foldl σ (fun a ha => ?_) hsmooth
  obtain ⟨e, he, ha⟩ := List.mem_flatMap.mp ha
  exact Entry.known_actions (hes e (List.mem_of_mem_filter he)) a ha

/-- A known entry that is no checkpoint, applied to the graph as it is. -/
theorem Resolves.apply (hg : g.Resolves known) (σ : HashOrder) (he : known e.hash = some e.payload)
    (hplain : e.payload.isCheckpoint = false) : (g.apply σ e).Resolves known :=
  hg.run σ (a := .entry e) ⟨hplain, he⟩ rfl

theorem Resolves.applyAll (hg : g.Resolves known) (σ : HashOrder) {es : List Entry}
    (hes : ∀ e ∈ es, known e.hash = some e.payload ∧ e.payload.isCheckpoint = false) :
    (g.applyAll σ es).Resolves known := by
  induction es generalizing g with
  | nil => exact hg
  | cons e es ih =>
    obtain ⟨hk, hplain⟩ := hes e List.mem_cons_self
    exact ih (hg.apply σ hk hplain) fun x hx => hes x (List.mem_cons_of_mem e hx)

end MaterializedGraph

end SilkGraph
