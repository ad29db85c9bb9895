import SilkGraph.Graph.Decided
import SilkGraph.Graph.Inert
import SilkGraph.GraphStore.Resolved
import SilkGraph.Sync.Filtered
import SilkGraph.Sync.Wire

/-!
# Is a filtered sync faithful?

A filtered sync brings a node of a requested type with everything that is sent about it. What
is sent about a node whose `AddNode` the recipient has already is decided by chance: only the
ancestors of something else. So the recipient may keep a node that was removed, or old values
of its properties (`filtered_sync_misses_update`).

For stores whose nodes are those that their entries decide, and a merge in which the entries
come in order, the sync is faithful exactly if what is sent, with what the recipient holds,
makes the same of each such node as all entries of the sender (`filtered_sync_faithful_iff`).
-/

namespace SilkGraph

open OpLog MaterializedGraph

namespace PyGraphStore

section

variable [Crates] {A B : PyGraphStore} {env : Env} {nodeTypes : List String} {id : String}
  {es : List Entry}

/-- `receive_filtered_sync_offer`, for an offer that has been decoded. -/
def receiveFilteredSyncOffer (self : PyGraphStore) (offer : SyncOffer) (nodeTypes : List String) :
    Option SyncPayload :=
  (entriesMissing self.oplog offer).map fun fullPayload => fullPayload.filterTypes nodeTypes

/-- What a peer lacks of the store according to its offer. -/
def delta (self peer : PyGraphStore) (env : Env) : Option SyncPayload := do
  let offer ← SyncOffer.fromOplog env.order peer.oplog peer.clock.physicalMs peer.clock.logical
  entriesMissing self.oplog offer

/-- One direction of a filtered sync: offer, answer and merge. -/
def pullFiltered (self peer : PyGraphStore) (env : Env) (nodeTypes : List String) :
    Except PyErr ℕ × PyGraphStore :=
  match SyncOffer.fromOplog env.order self.oplog self.clock.physicalMs self.clock.logical with
  | none => (.error .panic, self)
  | some offer =>
    match peer.receiveFilteredSyncOffer offer nodeTypes with
    | none => (.error .panic, self)
    | some payload => self.mergeEntriesVec env payload.entries

omit [Crates] in
/-- The entry is stored. -/
def Holds (self : PyGraphStore) (e : Entry) : Prop := self.oplog.entries[e.hash]? = some e

omit [Crates] in
/-- The events about a node in the log. -/
def nodeEvents (self : PyGraphStore) (id : String) : Event → Prop := NodeEventOf self.Holds id

/-- The entries that are sent: those of the delta that the filter keeps. -/
def Sent (self peer : PyGraphStore) (env : Env) (nodeTypes : List String) (e : Entry) : Prop :=
  ∃ full, self.delta peer env = some full ∧ e ∈ full.entries ∧
    KeptHash (Std.ExtTreeSet.ofList nodeTypes compare) full.entries e.hash

omit [Crates] in
/-- A node of the sender of a requested type, about which the recipient holds no entry that
the sender lacks. -/
structure Concerns (A B : PyGraphStore) (nodeTypes : List String) (id : String) : Prop where
  requested : ∃ nd, A.graph.nodes[id]? = some nd ∧ nd.nodeType ∈ nodeTypes
  covered : ∀ e, B.Holds e → (∃ ev, e.event = some (id, ev) ∧ ev.OfNode) → A.Holds e

/-- The merge goes through, and each such node shows the same in both
stores. -/
structure FilteredSyncFaithful (A B : PyGraphStore) (env : Env) (nodeTypes : List String) : Prop where
  merges : ∃ n, (B.pullFiltered A env nodeTypes).1 = .ok n
  shows : ∀ id, Concerns A B nodeTypes id →
    (B.pullFiltered A env nodeTypes).2.graph.shownNode id = A.graph.shownNode id

/-- The entries about a node come in order in the merge of a filtered sync. -/
def PullInOrder (self peer : PyGraphStore) (env : Env) (nodeTypes : List String) (id : String) : Prop :=
  ∀ full all, peer.delta self env = some full →
    let batch := (full.filterTypes nodeTypes).entries.filter self.admits
    (self.backend.merge env.order (env.txn 0) batch).2.oplog.entriesSince none = some all →
    if batch.any isSchemaChange then
      InOrder id (materialize env.order) (fun _ => False) (secondPass self.graph.baseOntology all) all
    else InOrder id (fun g e => g.apply env.order e) (self.nodeEvents id) self.graph (listedOf all batch)

/-- Stores between which a sync can be judged by the entries: never compacted, with logs that
can be listed, the nodes in question as the entries decide. The recipient trusts what it
lacks, and what is sent about the nodes comes in order. -/
structure Judgeable (A B : PyGraphStore) (env : Env) (nodeTypes : List String) : Prop where
  sender : A.oplog.Listable
  recipient : B.oplog.Listable
  noRefs : A.oplog.All fun _ e => e.refs = []
  neverCompacted : A.oplog.All fun _ e => e.payload.isCheckpoint = false
  neverCompacted' : B.oplog.All fun _ e => e.payload.isCheckpoint = false
  trusts : B.TrustsPeer A
  commits : env.txn 0 = .ok ()
  decided : ∀ id, Concerns A B nodeTypes id → (A.graph.slot id).Decided (A.nodeEvents id)
  decided' : ∀ id, Concerns A B nodeTypes id → (B.graph.slot id).Decided (B.nodeEvents id)
  tieFree : ∀ id, Concerns A B nodeTypes id → TieFree (A.nodeEvents id)
  inOrder : ∀ id, Concerns A B nodeTypes id → B.PullInOrder A env nodeTypes id

/-- What is sent about each node, with what the recipient holds, makes the same of it as all
entries of the sender. -/
def SendsEnough (A B : PyGraphStore) (env : Env) (nodeTypes : List String) : Prop :=
  ∀ id, Concerns A B nodeTypes id → SameNode (A.nodeEvents id)
    (NodeEventOf (fun e => B.Holds e ∨ A.Sent B env nodeTypes e ∧ e.hash ∉ B.oplog.entries) id)

/-! ### The merge -/

/-- The recipient gets an answer, and what the filter leaves of it is closed. -/
theorem delta_spec (hA : A.oplog.Listable) (hB : B.oplog.Listable) (env : Env) (nodeTypes : List String) :
    ∃ full heads, A.delta B env = some full ∧ ClosedPayload A.oplog heads full.entries ∧
      (∀ h ∈ heads, h ∈ B.oplog.entries) ∧
      B.pullFiltered A env nodeTypes = B.mergeEntriesVec env (full.filterTypes nodeTypes).entries := by
  obtain ⟨offer, hoffer, hdims, hheads⟩ := SyncOffer.fromOplog_spec hB.wellFormed hB.nextNodup
    hB.refsStored env.order B.clock.physicalMs B.clock.logical
  obtain ⟨full, hfull, hmissing⟩ := entriesMissing_spec hA.wellFormed hA.nextNodup hA.refsStored offer
    hdims
  refine ⟨full, offer.heads, ?_, hmissing.closedPayload, fun h hh => ?_, ?_⟩
  · rw [delta, hoffer]
    exact hfull
  · exact ((hB.wellFormed.rep.heads h).mp ((hheads h).mp hh)).1
  · rw [pullFiltered, hoffer]
    dsimp only
    rw [receiveFilteredSyncOffer, hfull]
    rfl

/-- An entry that a closed payload brings is the one of the payload under its hash. -/
theorem eq_of_inserted {L L' : OpLog} {heads : List Hash} {payload new : List Entry}
    (hp : ClosedPayload L heads payload) {B : OpLog} (hi : Inserts B new L') (hsub : new ⊆ payload)
    {e : Entry} (he : e ∈ payload) (hfresh : e.hash ∉ B.entries) (hin : e.hash ∈ L'.entries) : e ∈ new := by
  obtain ⟨x, hx⟩ := HashMap.mem_iff_getElem?.mp hin
  obtain hold | ⟨hnew, hh⟩ := hi.source hx
  · exact absurd (HashMap.mem_iff_getElem?.mpr ⟨x, hold⟩) hfresh
  · exact List.inj_on_of_nodup_map hp.nodup (hsub hnew) he hh ▸ hnew

/-- **The merge.** It goes through. The log is what it was with the entries sent that it
lacked, it is listed, and the graph follows. -/
theorem pullFiltered_spec (hj : Judgeable A B env nodeTypes) : ∃ full all n,
    A.delta B env = some full ∧ (B.pullFiltered A env nodeTypes).1 = .ok n ∧
    (∀ e, e ∈ all ↔ B.Holds e ∨ A.Sent B env nodeTypes e ∧ e.hash ∉ B.oplog.entries) ∧
    (∀ e ∈ all, e.payload.isCheckpoint = false) ∧
    let batch := (full.filterTypes nodeTypes).entries.filter B.admits
    (B.backend.merge env.order (env.txn 0) batch).2.oplog.entriesSince none = some all ∧
    (∀ e ∈ all, B.Holds e ∨ e.hash ∈ batch.map Entry.hash) ∧ (n = 0 → ∀ e ∈ all, B.Holds e) ∧
    (B.pullFiltered A env nodeTypes).2.graph =
      if n = 0 then B.graph else if batch.any isSchemaChange then B.graph.rebuild env.order all
      else B.graph.applyAll env.order (listedOf all batch) := by
  obtain ⟨full, heads, hfull, hclosed, hheads, hpull⟩ := delta_spec hj.sender hj.recipient env nodeTypes
  have hp := hclosed.filterTypes nodeTypes
  have hleft := mem_filterTypes hclosed.nodup nodeTypes
  set payload := (full.filterTypes nodeTypes).entries with hpayload
  -- what the recipient lacks of it, it admits
  have hlack : ∀ e ∈ payload, e.hash ∉ B.oplog.entries → B.admits e = true ∧ ¬ e.isRootCheckpoint := by
    intro e he hno
    have hcp := hj.neverCompacted e.hash e (hp.stored e he)
    exact ⟨admits_of_trusts (hj.trusts _ e (hp.stored e he) hno) hcp, by simp [Entry.isRootCheckpoint, hcp]⟩
  obtain ⟨new, hok, hi, hsub, hunion⟩ := hp.merge_admitted hj.sender.wellFormed.rep hj.recipient.wellFormed
    hheads B.admits hlack
  have hnew : ∀ e ∈ new, e ∈ payload := fun e he => List.mem_of_mem_filter (hsub he)
  set batch := payload.filter B.admits with hbatch
  set merged := (mergeBatch B.oplog batch).2 with hmerged
  have hlog : (B.backend.merge env.order (env.txn 0) batch).2.oplog = merged := Backend.merge_oplog ..
  have hcount : (B.backend.merge env.order (env.txn 0) batch).1 = .ok new.length := by
    rw [hj.commits]
    exact merge_of_ok hok
  -- the merged log can be listed
  have hsource : ∀ e, merged.entries[e.hash]? = some e → B.Holds e ∨ e ∈ new := fun e he =>
    (hi.source he).imp_right And.left
  have hnodup : merged.NextNodup := fun x e he => by
    obtain hold | ⟨hin, -⟩ := hi.source he
    · exact hj.recipient.nextNodup x e hold
    · exact hj.sender.nextNodup _ e (hp.stored e (hnew e hin))
  have hrefs : merged.RefsStored := fun x e he r hr => by
    obtain hold | ⟨hin, -⟩ := hi.source he
    · exact hi.mem_mono (hj.recipient.refsStored x e hold r hr)
    · rw [hj.noRefs _ e (hp.stored e (hnew e hin))] at hr
      cases hr
  obtain ⟨all, hall, -, hmem, -⟩ := entriesSince_none_spec (hi.wellFormed hj.recipient.wellFormed) hnodup
    hrefs
  rw [← hlog] at hall
  obtain ⟨hdone, hgraph⟩ := mergeEntriesVec_of_ok B env _ (Prod.ext hcount rfl) hall
  rw [← hpull] at hdone hgraph
  have hsent : ∀ e, A.Sent B env nodeTypes e ↔ e ∈ payload := fun e => by
    rw [hleft e]
    constructor
    · rintro ⟨full', hfull', he, hk⟩
      obtain rfl := Option.some.inj (hfull.symm.trans hfull')
      exact ⟨he, hk⟩
    · rintro ⟨he, hk⟩
      exact ⟨full, hfull, he, hk⟩
  refine ⟨full, all, new.length, hfull, hdone, fun e => ?_, fun e he => ?_, hall, fun e he => ?_,
    fun hzero e he => ?_, hgraph⟩
  · rw [hmem, hsent]
    constructor
    · intro he
      exact (hsource e he).imp_right fun hin => ⟨hnew e hin, hi.fresh.1 e hin⟩
    · rintro (hold | ⟨hin, hfresh⟩)
      · exact hi.within _ e hold
      · refine hi.get_new (eq_of_inserted hp hi hnew hin hfresh ?_)
        exact (hunion e.hash).mpr (.inr (List.mem_map_of_mem hin))
  · obtain hold | hin := hsource e ((hmem e).mp he)
    · exact hj.neverCompacted' _ e hold
    · exact hj.neverCompacted _ e (hp.stored e (hnew e hin))
  · exact (hsource e ((hmem e).mp he)).imp_right fun hin => List.mem_map_of_mem (hsub hin)
  · refine (hsource e ((hmem e).mp he)).resolve_right fun hin => ?_
    rw [List.eq_nil_of_length_eq_zero hzero] at hin
    cases hin

/-! ### The nodes afterwards -/

omit [Crates] in
theorem nodeEventOf_congr {src src' : Entry → Prop} (h : ∀ e, src e ↔ src' e) (ev : Event) :
    NodeEventOf src id ev ↔ NodeEventOf src' id ev := by
  obtain rfl : src = src' := funext fun e => propext (h e)
  exact Iff.rfl

/-- **The graph.** Afterwards the node is the one that the entries held or sent decide. -/
theorem decided_pullFiltered (hj : Judgeable A B env nodeTypes) (hc : Concerns A B nodeTypes id) :
    ((B.pullFiltered A env nodeTypes).2.graph.slot id).Decided
      (NodeEventOf (fun e => B.Holds e ∨ A.Sent B env nodeTypes e ∧ e.hash ∉ B.oplog.entries) id) := by
  obtain ⟨full, all, n, hfull, -, hmem, hplain, hall, hheld, hzero, hgraph⟩ := pullFiltered_spec hj
  have horder := hj.inOrder id hc full all hfull
  dsimp only at horder
  replace horder := horder hall
  have hevents : ∀ ev, NodeEventOf (fun e => e ∈ all) id ev ↔ NodeEventOf (fun e => B.Holds e ∨
      A.Sent B env nodeTypes e ∧ e.hash ∉ B.oplog.entries) id ev := nodeEventOf_congr hmem
  rw [hgraph]
  split <;> rename_i hn
  · refine (hj.decided' id hc).congr fun ev => (nodeEventOf_congr (fun e => ?_) ev).trans (hevents ev)
    exact ⟨fun hB => (hmem e).mpr (.inl hB), hzero hn e⟩
  · split <;> rename_i hschema
    · rw [if_pos hschema] at horder
      obtain ⟨hnodes, hedges, -⟩ := entities_secondPass B.graph.baseOntology all
      have hempty : ((secondPass B.graph.baseOntology all).slot id).Decided fun _ => False := by
        refine ⟨fun nd hnd => ?_, fun _ _ hev => hev.elim⟩
        rw [slot, hnodes, Std.ExtTreeMap.getElem?_empty] at hnd
        cases hnd
      refine (decided_replay (materialize_step env.order) hplain hempty horder).congr fun ev => ?_
      rw [false_or]
      exact hevents ev
    · rw [if_neg hschema] at horder
      have hstep : ∀ (g : MaterializedGraph) (e : Entry),
          (∃ adopt, g.apply env.order e = g.applyInner env.order e .full adopt) ∨
            e.event = none ∧ g.apply env.order e = g := fun _ _ => .inl ⟨true, rfl⟩
      refine (decided_replay hstep (fun e he => hplain e (mem_listedOf.mp he).1) (hj.decided' id hc)
        horder).congr fun ev => Iff.trans ?_ (hevents ev)
      constructor
      · rintro (⟨⟨e, he, hev⟩, hnode⟩ | ⟨⟨e, he, hev⟩, hnode⟩)
        · exact ⟨⟨e, (hmem e).mpr (.inl he), hev⟩, hnode⟩
        · exact ⟨⟨e, (mem_listedOf.mp he).1, hev⟩, hnode⟩
      · rintro ⟨⟨e, he, hev⟩, hnode⟩
        obtain hB | hin := hheld e he
        · exact .inl ⟨⟨e, hB, hev⟩, hnode⟩
        · exact .inr ⟨⟨e, mem_listedOf.mpr ⟨he, hin⟩, hev⟩, hnode⟩

/-- Only stored entries are sent. -/
theorem holds_of_sent (hj : Judgeable A B env nodeTypes) {e : Entry} (he : A.Sent B env nodeTypes e) :
    A.Holds e := by
  obtain ⟨full, heads, hfull, hclosed, -⟩ := delta_spec hj.sender hj.recipient env nodeTypes
  obtain ⟨full', hfull', hin, -⟩ := he
  obtain rfl := Option.some.inj (hfull.symm.trans hfull')
  exact hclosed.stored e hin

/-- **When a filtered sync is faithful.** The merge goes through, and the nodes show the same
exactly if what was sent about them makes the same of them as everything there is. -/
theorem filtered_sync_faithful_iff (A B : PyGraphStore) (env : Env) (nodeTypes : List String)
    (hj : Judgeable A B env nodeTypes) :
    FilteredSyncFaithful A B env nodeTypes ↔ SendsEnough A B env nodeTypes := by
  have hagree : ∀ id, Concerns A B nodeTypes id →
      ((B.pullFiltered A env nodeTypes).2.graph.shownNode id = A.graph.shownNode id ↔
        SameNode (A.nodeEvents id) (NodeEventOf (fun e => B.Holds e ∨
          A.Sent B env nodeTypes e ∧ e.hash ∉ B.oplog.entries) id)) := by
    intro id hc
    refine (hj.decided id hc).shown_eq_iff (decided_pullFiltered hj hc) (hj.tieFree id hc)
      ((hj.tieFree id hc).mono ?_)
    rintro ev ⟨⟨e, he, hev⟩, hnode⟩
    refine ⟨⟨e, ?_, hev⟩, hnode⟩
    obtain hB | ⟨hsent, -⟩ := he
    · exact hc.covered e hB ⟨ev, hev, hnode⟩
    · exact holds_of_sent hj hsent
  obtain ⟨full, all, n, -, hok, -⟩ := pullFiltered_spec hj
  exact ⟨fun h id hc => (hagree id hc).mp (h.shows id hc),
    fun h => ⟨⟨n, hok⟩, fun id hc => (hagree id hc).mpr (h id hc)⟩⟩

/-! ### Where decided nodes come from -/

omit [Crates] in
/-- A store without nodes and without entries about nodes. -/
theorem decided_of_empty (hnode : (A.graph.slot id).node = none) (hno : ∀ e, A.Holds e → e.event = none) :
    (A.graph.slot id).Decided (A.nodeEvents id) := by
  refine ⟨fun nd hnd => ?_, fun _ ev hev => ?_⟩
  · rw [hnode] at hnd
    cases hnd
  · obtain ⟨⟨e, he, hev⟩, -⟩ := hev
    rw [hno e he] at hev
    cases hev

/-- **Local writes** that come in order keep a node decided. -/
theorem decided_append {op : GraphOp} (hs : A.oplog.WellFormed) (commits : env.txn 0 = .ok ())
    (hop : op.isCheckpoint = false) (fresh : (A.writtenEntry env op).hash ∉ A.oplog.entries)
    (h : (A.graph.slot id).Decided (A.nodeEvents id))
    (hfits : FitsAt id (A.nodeEvents id) A.graph (A.writtenEntry env op)) :
    ((A.append env op).2.graph.slot id).Decided ((A.append env op).2.nodeEvents id) := by
  obtain ⟨-, hlog, hgraph⟩ | ⟨-, hi, -, hgraph⟩ := append_outcome hs commits hop fresh
  · rw [hgraph]
    refine h.congr (nodeEventOf_congr fun e => ?_)
    rw [Holds, Holds, hlog]
  · rw [hgraph]
    have hplain : (A.writtenEntry env op).payload.isCheckpoint = false := by rw [writtenEntry_payload, hop]
    refine (decided_applyInner h hplain hfits env.order true).congr fun ev => ?_
    constructor
    · rintro (⟨⟨e, he, hev⟩, hnode⟩ | ⟨hev, hnode⟩)
      · exact ⟨⟨e, hi.within _ e he, hev⟩, hnode⟩
      · exact ⟨⟨_, hi.get_new List.mem_cons_self, hev⟩, hnode⟩
    · rintro ⟨⟨e, he, hev⟩, hnode⟩
      obtain hold | ⟨hin, -⟩ := hi.source he
      · exact .inl ⟨⟨e, hold, hev⟩, hnode⟩
      · exact .inr ⟨List.mem_singleton.mp hin ▸ hev, hnode⟩

/-- What the log holds after a filtered sync, it held before or the sender holds. -/
theorem all_pullFiltered {P : Hash → Entry → Prop} (hB : B.oplog.All P)
    (hA : A.oplog.All fun _ e => P e.hash e) : (B.pullFiltered A env nodeTypes).2.oplog.All P := by
  rw [pullFiltered]
  split
  · exact hB
  · split
    · exact hB
    · rename_i payload hpayload
      refine merge_all hB fun e he _ => ?_
      obtain ⟨full, hfull, rfl⟩ := Option.map_eq_some_iff.mp hpayload
      cases hall : A.oplog.entriesSince none with
      | none => simp [entriesMissing, hall] at hfull
      | some all =>
        have hin := (entriesMissing_sublist hall hfull).subset (List.mem_of_mem_filter he)
        obtain ⟨h, hget⟩ := stored_of_entriesSince hall hin
        exact hA h e hget

/-- A recipient that got everything it knows about nodes from the sender knows nothing the
sender does not. -/
theorem covered_of_pullFiltered {A' : PyGraphStore} (hA : A.oplog.All fun h e => e.hash = h)
    (hkeeps : Keeps A.oplog A'.oplog) (hB : B.oplog.All fun _ e => e.event = none) (e : Entry)
    (he : (B.pullFiltered A env nodeTypes).2.Holds e)
    (habout : ∃ ev, e.event = some (id, ev) ∧ ev.OfNode) : A'.Holds e := by
  have hall : (B.pullFiltered A env nodeTypes).2.oplog.All fun _ e => e.event = none ∨ A.Holds e := by
    refine all_pullFiltered (fun h x hx => .inl (hB h x hx)) fun h x hx => .inr ?_
    obtain rfl := hA h x hx
    exact hx
  obtain hno | hold := hall _ e he
  · obtain ⟨ev, hev, -⟩ := habout
    rw [hno] at hev
    cases hev
  · exact hkeeps _ e hold

theorem keeps_updateProperty (hA : Reachable A) (env : Env) (id k : String) (v : Value) :
    Keeps A.oplog (A.exec env (.updateProperty id k v)).2.oplog := by
  rw [exec, done_snd]
  exact (append_graph hA.nonempty env rfl).1

/-- A store with nothing but one added node, before it is sent to a store without nodes. -/
theorem judgeable_of_added {s : PyGraphStore} {x : Entry} (hs : s.oplog.WellFormed)
    (hi : Inserts s.oplog [x] A.oplog) (hgraph : A.graph = s.graph.apply env.order x)
    (plain : Plain A.oplog) (hB : B.oplog.Listable) (plain' : Plain B.oplog) (commits : env.txn 0 = .ok ())
    (trusts : B.TrustsPeer A) (empty : ∀ id, (s.graph.slot id).node = none)
    (empty' : ∀ id, (B.graph.slot id).node = none)
    (bare : s.oplog.All fun _ e => e.event = none ∧ e.Ordinary)
    (bare' : B.oplog.All fun _ e => e.event = none ∧ e.Ordinary)
    {nid ty lb : String} {ps : BTreeMap String Value} {st : Option String}
    (added : x.payload = .addNode nid ty st lb ps) (accepts : s.graph.accepts .full x.payload = true)
    (accepts' : B.graph.accepts .full x.payload = true) : Judgeable A B env nodeTypes := by
  have hevent : x.event = some (nid, .addNode ty st lb ps x.clock) := by rw [Entry.event, added]
  have hordinary : x.Ordinary := ⟨by rw [added]; rfl, by rw [added]; rfl⟩
  have hsource : ∀ e, A.Holds e → e.event = none ∧ e.Ordinary ∨ e = x := fun e he => by
    obtain hold | ⟨hin, -⟩ := hi.source he
    · exact .inl (bare _ e hold)
    · exact .inr (List.mem_singleton.mp hin)
  have hadd : ∀ e, (e.event = none ∧ e.Ordinary ∨ e = x) → ∀ id ev, e.event = some (id, ev) → e = x ∧
      ev = .addNode ty st lb ps x.clock := by
    rintro e (⟨hno, -⟩ | rfl) id ev hev
    · rw [hno] at hev
      cases hev
    · rw [hevent] at hev
      obtain ⟨-, rfl⟩ := Prod.mk.inj (Option.some.inj hev)
      exact ⟨rfl, rfl⟩
  have hlistable : A.oplog.Listable := ⟨hi.wellFormed hs, plain.refsStored, plain.nextNodup⟩
  refine ⟨hlistable, hB, plain.noRefs, plain.noCheckpoint, plain'.noCheckpoint, trusts, commits,
    fun id _ => ?_, fun id _ => ?_, fun id _ => ?_, fun id _ => ?_⟩
  · have hempty := decided_of_empty (A := s) (empty id) fun e he => (bare _ e he).1
    rw [hgraph]
    refine (decided_applyInner hempty hordinary.2 (fun ev hev hnode => ⟨accepts, ?_⟩) env.order true).congr
      fun ev => ?_
    · obtain ⟨-, rfl⟩ := hadd x (.inr rfl) id ev hev
      rintro r ⟨⟨e, he, hr⟩, -⟩
      rw [(bare _ e he).1] at hr
      cases hr
    · constructor
      · rintro (⟨⟨e, he, hev⟩, hnode⟩ | ⟨hev, hnode⟩)
        · exact ⟨⟨e, hi.within _ e he, hev⟩, hnode⟩
        · exact ⟨⟨x, hi.get_new List.mem_cons_self, hev⟩, hnode⟩
      · rintro ⟨⟨e, he, hev⟩, hnode⟩
        obtain ⟨rfl, -⟩ := hadd e (hsource e he) id ev hev
        exact .inr ⟨hev, hnode⟩
  · exact decided_of_empty (empty' id) fun e he => (bare' _ e he).1
  · rintro k v v' c ⟨ev, ⟨⟨e, he, hev⟩, -⟩, hv⟩ ⟨ev', ⟨⟨e', he', hev'⟩, -⟩, hv'⟩
    obtain ⟨-, rfl⟩ := hadd e (hsource e he) id ev hev
    obtain ⟨-, rfl⟩ := hadd e' (hsource e' he') id ev' hev'
    exact Option.some.inj (hv.1.symm.trans hv'.1)
  · intro full all hfull batch hall
    obtain ⟨full', heads, hfull', hclosed, -⟩ := delta_spec hlistable hB env nodeTypes
    obtain rfl := Option.some.inj (hfull'.symm.trans hfull)
    have hbatch : ∀ e ∈ batch, e.event = none ∧ e.Ordinary ∨ e = x := fun e he =>
      hsource e ((hclosed.filterTypes nodeTypes).stored e (List.mem_of_mem_filter he))
    have hmerged : ∀ e ∈ all, e.event = none ∧ e.Ordinary ∨ e = x := fun e he => by
      obtain ⟨h, hget⟩ := stored_of_entriesSince hall he
      rw [Backend.merge_oplog] at hget
      refine mergeBatch_all (P := fun _ e => e.event = none ∧ e.Ordinary ∨ e = x)
        (fun h e hold => .inl (bare' h e hold)) batch hbatch h e hget
    have hplain : ∀ e, (e.event = none ∧ e.Ordinary ∨ e = x) → e.Ordinary := by
      rintro e (h | rfl)
      · exact h.2
      · exact hordinary
    rw [if_neg]
    · refine inOrder_of_adds env.order (fun e he => hplain e (hmerged e (mem_listedOf.mp he).1))
        (fun e he ev hev _ => ?_) (fun e he ev hev _ => ?_) ?_
      · obtain ⟨-, rfl⟩ := hadd e (hmerged e (mem_listedOf.mp he).1) id ev hev
        exact ⟨_, _, _, _, _, rfl⟩
      · obtain ⟨rfl, -⟩ := hadd e (hmerged e (mem_listedOf.mp he).1) id ev hev
        exact accepts'
      · rintro r ⟨⟨e, he, hev⟩, -⟩
        rw [(bare' _ e he).1] at hev
        cases hev
    · rw [List.any_eq_true]
      rintro ⟨e, he, hschema⟩
      obtain ⟨hext, hchk⟩ := hplain e (hbatch e he)
      rw [isSchemaChange, hext, hchk] at hschema
      cases hschema

/-- An `add_node` that returned wrote its entry. -/
theorem added_of_ok {s : PyGraphStore} {nid ty lb : String} {ps : BTreeMap String Value} {st : Option String}
    (hs : s.oplog.WellFormed) (commits : env.txn 0 = .ok ())
    (fresh : (s.writtenEntry env (.addNode nid ty st lb ps)).hash ∉ s.oplog.entries)
    (ok : (s.exec env (.addNode nid ty lb ps st)).1.isOk = true) :
    Inserts s.oplog [s.writtenEntry env (.addNode nid ty st lb ps)]
        (s.exec env (.addNode nid ty lb ps st)).2.oplog ∧
      (s.exec env (.addNode nid ty lb ps st)).2.graph =
        s.graph.apply env.order (s.writtenEntry env (.addNode nid ty st lb ps)) := by
  rw [exec, done_snd]
  rw [exec, done] at ok
  obtain ⟨e, -, hrun⟩ | ⟨-, ⟨e, -, hrun⟩ | ⟨hex, hok, hrun⟩⟩ := s.addNode_cases env nid ty lb ps st
  · rw [hrun] at ok
    cases ok
  · rw [hrun] at ok
    cases ok
  · rw [hrun]
    obtain ⟨⟨err, herr⟩, -⟩ | ⟨-, hi, -, hgraph⟩ := append_outcome hs commits rfl fresh
    · rw [hok] at herr
      cases herr
    · exact ⟨hi, hgraph⟩

theorem reachable_pullFiltered (hB : Reachable B) : Reachable (B.pullFiltered A env nodeTypes).2 := by
  rw [pullFiltered]
  split
  · exact hB
  · split
    · exact hB
    · rename_i payload _
      exact hB.call env (.merge payload.entries)

end

/-! ### Instances -/

open Sample in
/-- A first sync: all there is about the node is sent. -/
theorem filtered_sync_faithful_first :
    let alice := ((freshStore "alice" guests).exec env (.addNode "ann" "person" "Ann" ∅ none)).2
    let bob := freshStore "bob" guests
    FilteredSyncFaithful alice bob env ["person"] ∧ SendsEnough alice bob env ["person"] := by
  intro alice bob
  let s := freshStore "alice" guests
  have hs : ∀ id, (freshStore id guests).oplog.WellFormed := fun id =>
    .new (Entry.verifyHash_new ..) rfl
  have hbare : ∀ id, (freshStore id guests).oplog.All fun _ e => e.event = none ∧ e.Ordinary := fun id =>
    .new ⟨rfl, rfl, rfl⟩
  have hfresh : (s.writtenEntry env (.addNode "ann" "person" none "Ann" ∅)).hash ∉ s.oplog.entries := by
    rw [← Std.ExtTreeMap.contains_iff_mem]
    decide +kernel
  have hok : (s.exec env (.addNode "ann" "person" "Ann" ∅ none)).1.isOk = true := by decide +kernel
  obtain ⟨hi, hgraph⟩ := added_of_ok (hs "alice") rfl hfresh hok
  have hplain : Plain alice.oplog := Plain.of_toList (by decide +kernel)
  have hplain' : Plain bob.oplog := Plain.of_toList (by decide +kernel)
  have htrusts : bob.TrustsPeer alice := by
    have hlist : ∀ kv ∈ alice.oplog.entries.toList, bob.trusts kv.2 = true := by decide +kernel
    exact fun h x hx _ => hlist (h, x) (HashMap.mem_toList.mpr hx)
  have hj : Judgeable alice bob env ["person"] :=
    judgeable_of_added (hs "alice") hi hgraph hplain ⟨hs "bob", hplain'.refsStored, hplain'.nextNodup⟩
      hplain' rfl htrusts (fun _ => rfl) (fun _ => rfl) (hbare "alice") (hbare "bob") rfl
      (by decide +kernel) (by decide +kernel)
  have hf : FilteredSyncFaithful alice bob env ["person"] := by
    obtain ⟨full, all, n, -, hn, -⟩ := pullFiltered_spec hj
    refine ⟨⟨n, hn⟩, fun id hc => ?_⟩
    -- the only node has no properties
    obtain ⟨⟨nd, hnd, -⟩, -⟩ := hc
    have hkeys : alice.graph.nodes.keys = ["ann"] := by decide +kernel
    have hid : id ∈ alice.graph.nodes.keys :=
      Std.ExtTreeMap.mem_keys.mpr (Std.ExtTreeMap.mem_iff_isSome_getElem?.mpr (by rw [hnd]; rfl))
    rw [hkeys, List.mem_singleton] at hid
    subst hid
    have hshown : ∀ g : MaterializedGraph, (g.shownNode "ann").map (fun ps => ps.isEmpty) = some true →
        g.shownNode "ann" = some ∅ := fun g hg => by
      obtain ⟨ps, hps, hempty⟩ := Option.map_eq_some_iff.mp hg
      rw [hps, Std.ExtTreeMap.isEmpty_iff.mp hempty]
    rw [hshown _ (by decide +kernel), hshown alice.graph (by decide +kernel)]
  exact ⟨hf, (filtered_sync_faithful_iff alice bob env ["person"] hj).mp hf⟩

open Sample in
/-- The sender updates a node that it has sent before. The recipient is not sent the update. -/
theorem filtered_sync_misses_update :
    let alice := ((freshStore "alice" machines).exec env (.addNode "m" "machine" "M" age none)).2
    let bob := ((freshStore "bob" machines).pullFiltered alice env ["machine"]).2
    let alice' := (alice.exec env (.updateProperty "m" "age" (.int 4))).2
    Reachable alice' ∧ Reachable bob ∧ ¬ FilteredSyncFaithful alice' bob env ["machine"] := by
  intro alice bob alice'
  have hreach : Reachable alice := .call (reachable_freshStore (by decide +kernel)) env _
  have hbob : Reachable bob := reachable_pullFiltered (reachable_freshStore (by decide +kernel))
  have hkeeps : Keeps alice.oplog alice'.oplog := keeps_updateProperty hreach env "m" "age" (.int 4)
  have hkeyed : alice.oplog.All fun h e => e.hash = h := by
    obtain ⟨g, hg⟩ := hreach.log
    exact hg.keyed (.new rfl)
  have hfresh : (freshStore "bob" machines).oplog.All fun _ e => e.event = none := .new rfl
  refine ⟨hreach.call env _, hbob, fun h => ?_⟩
  have htype : alice'.graph.nodes["m"]?.map Node.nodeType = some "machine" := by decide +kernel
  obtain ⟨nd, hnd, hty⟩ := Option.map_eq_some_iff.mp htype
  have hshown := congrArg (Option.map fun ps : BTreeMap String Value => ps["age"]?.bind valueAsF64)
    (h.shows "m" ⟨⟨nd, hnd, hty ▸ List.mem_singleton_self _⟩,
      covered_of_pullFiltered hkeyed hkeeps hfresh⟩)
  revert hshown
  decide +kernel

end PyGraphStore

end SilkGraph
