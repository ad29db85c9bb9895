import SilkGraph.GraphStore.Bootstrap
import SilkGraph.GraphStore.Peers

/-!
# Sync after a compaction

A compaction leaves a log that grows from its checkpoint. A peer with the old log refuses the
checkpoint, so that everything written on top of it stays unresolvable there
(`compaction_strands_peer`). A peer rebuilt from a snapshot of the compacted store holds the
checkpoint, and from then on the two converge, whatever they write and however often they
sync: `converges_after_compaction`.
-/

namespace SilkGraph

open OpLog MaterializedGraph

namespace PyGraphStore

section

variable [Crates] {base : OpLog} {W : Hash → Prop} {s a b a₀ b₀ : PyGraphStore} {env : Env}
  {ws : List Entry}

/-! ### The log after a compaction -/

omit [Crates] in
theorem replace_of_ok {b : Backend} {txn : TxnResult} {c : Entry}
    (h : (b.replaceWithCheckpoint txn c).1 = .ok ()) :
    (b.replaceWithCheckpoint txn c).2.oplog = OpLog.new c := by
  cases b with
  | memory L => rfl
  | persistent st =>
    cases txn with
    | error msg => cases h
    | ok _ => rfl

/-- Carrying entries over keeps a log well formed, and brings in what they are re-appended
as. -/
theorem carryOver_spec {P : Hash → Entry → Prop} {h : Hash} (es : List Entry)
    (hP : ∀ e ∈ es, P (s.createEntry e.payload [h] [] e.clock e.author).hash
      (s.createEntry e.payload [h] [] e.clock e.author)) (env : Env) (i : ℕ)
    (hs : s.oplog.WellFormed) (hall : s.oplog.All P) :
    (s.carryOver env h i es).2.oplog.WellFormed ∧ (s.carryOver env h i es).2.oplog.All P := by
  let I : PyGraphStore → Prop := fun t =>
    t.signingKey = s.signingKey ∧ t.oplog.WellFormed ∧ t.oplog.All P
  refine (carryOver_rule (I := I) s env ⟨rfl, hs, hall⟩ (fun t i e he ht => ?_) i).2
  obtain ⟨hkey, hwf, hall⟩ := ht
  have hcreate : t.createEntry e.payload [h] [] e.clock e.author =
      s.createEntry e.payload [h] [] e.clock e.author := by rw [createEntry, createEntry, hkey]
  have hlog := Backend.append_oplog t.backend env.order (env.txn i)
    (t.createEntry e.payload [h] [] e.clock e.author)
  refine ⟨hkey, ?_, ?_⟩ <;> rw [oplog, hlog]
  · exact hwf.append _
  · exact hall.append (hcreate ▸ hP e he)

/-- A store whose log may serve as a base: it can be listed, has one root, and the graph was
rebuilt from it. -/
structure Restarted (s : PyGraphStore) : Prop where
  grown : Grown s.oplog s.oplog
  root : ∀ (h h' : Hash) (e e' : Entry), s.oplog.entries[h]? = some e → s.oplog.entries[h']? = some e' →
    e.next = [] → e'.next = [] → h = h'
  rebuilt : ∃ g σ all, s.oplog.entriesSince none = some all ∧
    s.graph = MaterializedGraph.rebuild g σ all

/-- **A compaction** that succeeds leaves such a store. -/
theorem restarted_of_compact {cp : String} (run : s.compact env = (.ok cp, a)) : Restarted a := by
  obtain ⟨msg, -, hrun⟩ | ⟨hok, ⟨err, -, hrun⟩ | ⟨-, hsnd, hfst⟩⟩ := s.compact_cases env
  · rw [run] at hrun
    cases hrun
  · rw [run] at hrun
    cases hrun
  · set c := s.checkpointEntry env with hcdef
    let u : PyGraphStore := { s.ticked env with
      backend := (s.backend.replaceWithCheckpoint (env.txn 0) c).2 }
    set t := carryOver u env c.hash 1 (s.carried env) with ht
    have hvalid : c.verifyHash := verifyHash_createEntry ..
    have hroot : c.next = [] := createEntry_next ..
    have hstart : u.oplog = OpLog.new c := replace_of_ok hok
    let P : Hash → Entry → Prop := fun h e => e.next.Nodup ∧ e.refs = [] ∧ (e.next = [] → h = c.hash)
    have hwf₀ : u.oplog.WellFormed := hstart ▸ WellFormed.new hvalid hroot
    have hall₀ : u.oplog.All P := hstart ▸ All.new ⟨by simp [hroot], createEntry_refs .., fun _ => rfl⟩
    obtain ⟨hwf, hall⟩ := carryOver_spec (P := P) (h := c.hash) (s.carried env) (fun e _ => by
      simp [P, createEntry_next, createEntry_refs]) env 1 hwf₀ hall₀
    rw [← ht] at hwf hall
    have hlog : a.oplog = t.2.oplog := by
      rw [show a = _ from (congrArg Prod.snd run).symm.trans hsnd]
      exact revalidate_log t.2 env
    have hgrown : Grown t.2.oplog t.2.oplog :=
      ⟨hwf, fun h e he => (hall h e he).1, fun h e he => (hall h e he).2.1, fun h e he => he,
        fun h e he => .inl he⟩
    obtain ⟨all, hes, -⟩ := hgrown.listing
    refine ⟨hlog ▸ hgrown, fun h h' e e' he he' hn hn' => ?_, t.2.graph, env.order, all, hlog ▸ hes, ?_⟩
    · rw [hlog] at he he'
      rw [(hall h e he).2.2 hn, (hall h' e' he').2.2 hn']
    · rw [show a = _ from (congrArg Prod.snd run).symm.trans hsnd, PyGraphStore.revalidate, hes]

/-- **A copy** made from a snapshot of such a store has the same entries and was rebuilt from
them. -/
theorem restarted_of_snapshot (ha : Restarted a) {snapshot : List Entry} (snap : a.snapshot = some snapshot)
    {id : String} (boot : fromSnapshot env id snapshot = .ok b) : Restarted b ∧
      ∀ h : Hash, b.oplog.entries[h]? = a.oplog.entries[h]? := by
  obtain ⟨g, rest, ontology, n, L, all, rfl, -, hmerge, hall, rfl⟩ := from_snapshot boot
  have hL : (mergeBatch (OpLog.new g) rest).2 = L := by rw [← mergeEntries_snd, hmerge]
  have hlist := ha.grown.listable
  have hes : a.oplog.entriesSince none = some (g :: rest) := snap
  obtain ⟨hg, hroot, -⟩ := entriesSince_head hlist hes
  obtain ⟨es', hes', hnd, hmem, -⟩ := entriesSince_none_spec hlist.wellFormed hlist.nextNodup
    hlist.refsStored
  obtain rfl := Option.some.inj (hes.symm.trans hes')
  -- the only root is listed first, and nothing is listed twice
  have hroots : ∀ e ∈ rest, ¬ e.isRootCheckpoint := by
    intro e he hcp
    have hget := (hmem e).mp (List.mem_cons_of_mem _ he)
    have hnil : e.next = [] := by
      rw [Entry.isRootCheckpoint, Bool.and_eq_true, List.isEmpty_iff] at hcp
      exact hcp.1
    have heq := ha.root _ _ e g hget hg hnil hroot
    rw [List.map_cons, List.nodup_cons] at hnd
    exact hnd.1 (heq ▸ List.mem_map_of_mem he)
  obtain ⟨new, -, hwf, hsame⟩ := merge_listing hlist hes hroots
  rw [hL] at hwf hsame
  have hgrown : Grown L L := ⟨hwf, fun h e he => ha.grown.nextNodup h e (hsame h ▸ he),
    fun h e he => ha.grown.noRefs h e (hsame h ▸ he), fun h e he => he, fun h e he => .inl he⟩
  refine ⟨⟨hgrown, fun h h' e e' he he' => ?_, .new ontology, env.order, all, hall, rfl⟩, hsame⟩
  exact ha.root h h' e e' ((hsame h).symm.trans he) ((hsame h').symm.trans he')

/-- The graph of such a store reflects its log. Nothing in it is newer than the base. -/
theorem Restarted.reflects (hs : Restarted s) (hbase : ∀ h, h ∈ s.oplog.entries → h ∈ base.entries) :
    s.graph.Reflects (Source s.oplog) (Since base W s.oplog) := by
  obtain ⟨g, σ, all, hall, hgraph⟩ := hs.rebuilt
  obtain ⟨all', hall', hmem⟩ := hs.grown.listing
  obtain rfl := Option.some.inj (hall.symm.trans hall')
  have hd : Distinct (Source s.oplog) fun _ => False :=
    ⟨fun e ops opClocks lc ft hs hp i op hg => hs.op hp i hg, fun _ h => h.elim, fun _ h => h.elim⟩
  rw [hgraph]
  refine (Reflects.rebuild hd (fun _ h => h) g (fun e he => .stored ((hmem e).mp he))
    (finds_of_not (fun _ _ _ _ h => h.elim) _ all)).mono (fun _ => id) fun e he => ?_
  exact absurd (hbase _ (HashMap.mem_iff_getElem?.mpr ⟨e, he.held⟩)) he.fresh

/-! ### Runs of two peers -/

/-- The entry a local write leaves, if it returns. -/
def wrote (self : PyGraphStore) (env : Env) (c : Call) : List Entry :=
  match (self.exec env c).1, c.written with
  | .ok _, some op => [self.writtenEntry env op]
  | _, _ => []

/-- **Runs.** Two peers after any writes of either and any pulls in either direction, with
the entries written. Transactions commit, a written entry is new to the log, a peer's entries
pass the checks on clock and signature, and the updates to follow find their entities. -/
inductive Peers (W : Hash → Prop) (a₀ b₀ : PyGraphStore) :
    List Entry → PyGraphStore → PyGraphStore → Prop where
  | start : Peers W a₀ b₀ [] a₀ b₀
  | swap {ws : List Entry} {a b : PyGraphStore} (run : Peers W a₀ b₀ ws a b) : Peers W a₀ b₀ ws b a
  | write {ws : List Entry} {a b : PyGraphStore} (run : Peers W a₀ b₀ ws a b) (env : Env)
      (commits : ∀ i, env.txn i = .ok ()) (c : Call) {op : GraphOp} (written : c.written = some op)
      (fresh : (a.writtenEntry env op).hash ∉ a.oplog.entries) (finds : a.WriteFinds W env c) :
      Peers W a₀ b₀ (a.wrote env c ++ ws) (a.exec env c).2 b
  | pull {ws : List Entry} {a b : PyGraphStore} (run : Peers W a₀ b₀ ws a b) (env : Env)
      (commits : ∀ i, env.txn i = .ok ()) (trusts : a.TrustsPeer b) (finds : a.PullFinds b W env) :
      Peers W a₀ b₀ ws (a.pull b env).2 b

/-- What holds of two peers along such a run. -/
structure InSync (base : OpLog) (W : Hash → Prop) (ws : List Entry) (a b : PyGraphStore) : Prop where
  left : Grown base a.oplog
  right : Grown base b.oplog
  written : ∀ e ∈ ws, e.hash ∉ base.entries ∧
    (a.oplog.entries[e.hash]? = some e ∨ b.oplog.entries[e.hash]? = some e)
  reflects : NoCollision (SourceOf a.oplog b.oplog) →
    a.graph.Reflects (Source a.oplog) (Since base W a.oplog) ∧
      b.graph.Reflects (Source b.oplog) (Since base W b.oplog)

theorem InSync.swap (h : InSync base W ws a b) : InSync base W ws b a :=
  ⟨h.right, h.left, fun e he => ⟨(h.written e he).1, (h.written e he).2.symm⟩,
    fun hc => (h.reflects (hc.mono fun _ => Or.symm)).symm⟩

/-- **Step.** A write of the first. -/
theorem InSync.write (h : InSync base W ws a b) (commits : ∀ i, env.txn i = .ok ()) {c : Call}
    {op : GraphOp} (written : c.written = some op)
    (fresh : (a.writtenEntry env op).hash ∉ a.oplog.entries) (finds : a.WriteFinds W env c) :
    InSync base W (a.wrote env c ++ ws) (a.exec env c).2 b := by
  obtain ⟨hadv, hheld⟩ := Advances.write h.left commits written fresh finds
  refine ⟨hadv.grown, h.right, fun e he => ?_, fun hc => ?_⟩
  · obtain he | he := List.mem_append.mp he
    · rw [wrote, written] at he
      split at he
      · rename_i hok hop
        obtain rfl := Option.some.inj hop
        obtain rfl := List.mem_singleton.mp he
        exact ⟨fun hb => fresh (h.left.within.mem hb), .inl (hheld hok)⟩
      · cases he
    · exact ⟨(h.written e he).1, (h.written e he).2.imp_left (hadv.within _ _)⟩
  · obtain ⟨ha, hb⟩ := h.reflects (hc.within hadv.within)
    exact ⟨hadv.reflects (hc.mono fun x => .inl) ha, hb⟩

/-- **Step.** A pull of the first. -/
theorem InSync.pull (h : InSync base W ws a b) (commits : ∀ i, env.txn i = .ok ())
    (trusts : a.TrustsPeer b) (finds : a.PullFinds b W env) :
    InSync base W ws (a.pull b env).2 b := by
  obtain ⟨hgrown, hwithin, -⟩ := pull_grows h.left h.right env
  refine ⟨hgrown, h.right, fun e he => ⟨(h.written e he).1, ?_⟩, fun hc => ?_⟩
  · exact (h.written e he).2.imp_left (hwithin _ _)
  · have hc' := hc.within hwithin
    obtain ⟨ha, hb⟩ := h.reflects hc'
    exact ⟨(pull_goes_through h.left h.right hc' (commits 0) trusts).2.2 finds ha, hb⟩

/-- **Run.** From two stores that start with the base, the invariant holds. -/
theorem Peers.inSync {a₀ b₀ : PyGraphStore} (ha : Restarted a₀) (hb : Restarted b₀)
    (same : ∀ h : Hash, b₀.oplog.entries[h]? = a₀.oplog.entries[h]?)
    (run : Peers W a₀ b₀ ws a b) : InSync a₀.oplog W ws a b := by
  induction run with
  | start =>
    refine ⟨ha.grown, ⟨hb.grown.wellFormed, hb.grown.nextNodup, hb.grown.noRefs, ?_, ?_⟩, nofun,
      fun _ => ⟨ha.reflects fun _ => id, hb.reflects fun h => ?_⟩⟩
    · exact fun h e he => (same h).trans he
    · exact fun h e he => .inl ((same h).symm.trans he)
    · rw [HashMap.mem_iff_getElem?, HashMap.mem_iff_getElem?, same]
      exact id
  | swap _ ih => exact ih.swap
  | write _ env commits c written fresh finds ih => exact ih.write commits written fresh finds
  | pull _ env commits trusts finds ih => exact ih.pull commits trusts finds

/-! ### After a round -/

/-- The entry is in quarantine, or its event is visible up to later ones: the node or edge is
there and was not removed later, the property has a value written no earlier. -/
def Settled (self : PyGraphStore) (e : Entry) : Prop :=
  e.hash ∈ self.graph.quarantined ∨ ∀ id ev, e.event = some (id, ev) →
    (self.graph.slot id).Shows (EventOf (Source self.oplog) id) ev

omit [Crates] in
theorem event_congr {e x : Entry} (h : x.content = e.content) : x.event = e.event := by
  have hp : x.payload = e.payload := congrArg SignableContent.payload h
  have hc : x.clock = e.clock := congrArg SignableContent.clock h
  rw [Entry.event, Entry.event, hp, hc]

/-- An entry written in the run is settled in the first peer once its hash has arrived. -/
theorem InSync.settled (h : InSync base W ws a b) (hc : NoCollision (SourceOf a.oplog b.oplog))
    {e : Entry} (he : e ∈ ws) (hW : Followed W e) (hin : e.hash ∈ a.oplog.entries) : a.Settled e := by
  obtain ⟨hfresh, hheld⟩ := h.written e he
  obtain ⟨x, hx⟩ := HashMap.mem_iff_getElem?.mp hin
  obtain ⟨hxe, hxv⟩ := h.left.wellFormed.rep.keyed _ x hx
  have hev : e.verifyHash :=
    hheld.elim (fun hg => (h.left.wellFormed.rep.keyed _ e hg).2)
      fun hg => (h.right.wellFormed.rep.keyed _ e hg).2
  -- what arrived has the content of what was written
  have hcontent : x.content = e.content := by
    refine hc x e (.inl (.stored hx)) (hheld.imp .stored .stored) ?_
    rw [← Entry.verifyHash_iff.mp hxv, ← Entry.verifyHash_iff.mp hev, hxe]
  have hsince : Since base W a.oplog x := by
    refine ⟨hxe ▸ hx, hxe ▸ hfresh, fun id k v hp => ?_⟩
    rw [hxe]
    exact hW id k v ((congrArg SignableContent.payload hcontent).symm.trans hp)
  have hr := (h.reflects hc).1
  obtain hq | habs := hr.absorbed x hsince
  · exact .inl (hxe ▸ hq)
  · refine .inr fun id ev hev => (hr.sourced id).shows (habs id ev ?_)
    rw [event_congr hcontent, hev]

/-- **Sync after a compaction.** A store compacts, and a peer is rebuilt from its snapshot.
After any writes and pulls of both, a pull goes through. After one in each direction the two
logs are the same, and every entry written since is settled in both stores; of the property
updates those that always found their entity. -/
theorem converges_after_compaction (W : Hash → Prop) {cp id : String} {env₀ env₁ : Env}
    {snapshot : List Entry} (compacted : s.compact env₀ = (.ok cp, a₀))
    (snap : a₀.snapshot = some snapshot) (boot : fromSnapshot env₁ id snapshot = .ok b₀)
    (run : Peers W a₀ b₀ ws a b) (noCollision : NoCollision (SourceOf a.oplog b.oplog))
    (env env' : Env) (commits : ∀ i, env.txn i = .ok ()) (commits' : ∀ i, env'.txn i = .ok ())
    (trusts : a.TrustsPeer b) (trusts' : b.TrustsPeer a) (finds : a.PullFinds b W env)
    (finds' : b.PullFinds (a.pull b env).2 W env') :
    let a' := (a.pull b env).2
    let b' := (b.pull a' env').2
    (∃ n, (a.pull b env).1 = .ok n) ∧ (∃ n, (b.pull a' env').1 = .ok n) ∧
      (∀ h : Hash, a'.oplog.entries[h]?.map Entry.content = b'.oplog.entries[h]?.map Entry.content) ∧
      ∀ e ∈ ws, Followed W e → a'.Settled e ∧ b'.Settled e := by
  intro a' b'
  have ha := restarted_of_compact compacted
  obtain ⟨hb, same⟩ := restarted_of_snapshot ha snap boot
  have h : InSync a₀.oplog W ws a b := run.inSync ha hb same
  -- there
  obtain ⟨hok, hunion, -⟩ := pull_goes_through (W := W) h.left h.right noCollision (commits 0) trusts
  have h' : InSync a₀.oplog W ws b a' := (h.pull commits trusts finds).swap
  have hc' : NoCollision (SourceOf b.oplog a'.oplog) := noCollision.mono fun x hx =>
    hx.elim .inr fun hx => source_of_pull h.left h.right hx
  have htrusts : b.TrustsPeer a' := fun x e he hno =>
    ((pull_grows h.left h.right env).2.2 x e he).elim (fun hg => trusts' x e hg hno)
      fun hg => absurd (HashMap.mem_iff_getElem?.mpr ⟨e, hg⟩) hno
  -- and back
  obtain ⟨hok', hunion', -⟩ := pull_goes_through (W := W) h'.left h'.right hc' (commits' 0) htrusts
  have h'' : InSync a₀.oplog W ws b' a' := h'.pull commits' htrusts finds'
  have hc'' : NoCollision (SourceOf b'.oplog a'.oplog) := hc'.mono fun x hx =>
    hx.elim (fun hx => source_of_pull h'.left h'.right hx) .inr
  have hboth : ∀ x, x ∈ a'.oplog.entries ↔ x ∈ b'.oplog.entries := fun x => by
    rw [hunion', hunion]
    tauto
  have hag : Agree a'.oplog b'.oplog :=
    (hc''.agree h''.left.wellFormed.rep h''.right.wellFormed.rep).symm
  refine ⟨hok, hok', hag.contents_eq hboth, fun e he hW => ?_⟩
  have hin : e.hash ∈ a'.oplog.entries := by
    rw [hunion]
    exact (h.written e he).2.imp (fun hg => HashMap.mem_iff_getElem?.mpr ⟨e, hg⟩)
      fun hg => HashMap.mem_iff_getElem?.mpr ⟨e, hg⟩
  have hc₃ : NoCollision (SourceOf a'.oplog b'.oplog) := hc''.mono fun _ => Or.symm
  exact ⟨h''.swap.settled hc₃ he hW hin, h''.settled hc'' he hW ((hboth _).mp hin)⟩

end

end PyGraphStore

namespace Sample

/-- Bob's copy of a store, made from its snapshot. -/
def bobsCopy (s : PyGraphStore) : PyGraphStore :=
  ((s.snapshot.bind fun snapshot => (PyGraphStore.fromSnapshot env "bob" snapshot).toOption)).getD s

end Sample

namespace PyGraphStore

section

open Sample

/-- Where the snapshot loads, the copy is the store it loads to. -/
theorem bobsCopy_spec {s : PyGraphStore} (h : (s.snapshot.bind fun snapshot =>
    (fromSnapshot env "bob" snapshot).toOption).isSome = true) :
    ∃ snapshot, s.snapshot = some snapshot ∧ fromSnapshot env "bob" snapshot = .ok (bobsCopy s) := by
  obtain ⟨t, ht⟩ := Option.isSome_iff_exists.mp h
  obtain ⟨snapshot, hsnap, hboot⟩ := Option.bind_eq_some_iff.mp ht
  have hcopy : bobsCopy s = t := by rw [bobsCopy, ht, Option.getD_some]
  refine ⟨snapshot, hsnap, ?_⟩
  rw [hcopy]
  cases hr : fromSnapshot env "bob" snapshot with
  | error e => rw [hr] at hboot; cases hboot
  | ok u => rw [hr] at hboot; exact congrArg Except.ok (Option.some.inj hboot)

/-- Ann compacts, Bob copies her store, and she adds a machine. -/
theorem converges_after_compaction_machine :
    let ann := ((freshStore "ann" machines).compact env).2
    let bob := bobsCopy ann
    let e := ann.writtenEntry env (.addNode "m" "machine" none "M" age)
    let later := (ann.exec env (.addNode "m" "machine" "M" age none)).2
    let ann' := (later.pull bob env).2
    let bob' := (bob.pull ann' env).2
    (∃ n, (bob.pull ann' env).1 = .ok n) ∧ bob'.Settled e := by
  intro ann bob e later ann' bob'
  let W : Hash → Prop := fun _ => False
  let call : Call := .addNode "m" "machine" "M" age none
  obtain ⟨cp, hcp⟩ : ∃ cp, ((freshStore "ann" machines).compact env).1 = .ok cp :=
    exists_ok_of_isOk (by decide +kernel)
  have compacted : (freshStore "ann" machines).compact env = (.ok cp, ann) := Prod.ext hcp rfl
  obtain ⟨snapshot, snap, boot⟩ : ∃ snapshot, ann.snapshot = some snapshot ∧
      fromSnapshot env "bob" snapshot = .ok bob := bobsCopy_spec (by decide +kernel)
  have commits : ∀ i, env.txn i = .ok () := fun _ => rfl
  have hfresh : e.hash ∉ ann.oplog.entries := by
    rw [← Std.ExtTreeMap.contains_iff_mem]
    decide +kernel
  have hwrite : ann.WriteFinds W env call := ⟨fun _ _ h => h.elim, fun _ h => Call.noConfusion h⟩
  have run : Peers W ann bob (ann.wrote env call ++ []) later bob :=
    .write .start env commits call rfl hfresh hwrite
  -- what Bob holds Ann holds
  have ha := restarted_of_compact compacted
  obtain ⟨-, same⟩ := restarted_of_snapshot ha snap boot
  obtain ⟨hadv, -⟩ := Advances.write ha.grown commits (c := call) rfl hfresh hwrite
  have hwithin : Within bob.oplog later.oplog := fun h x hx => hadv.within h x ((same h).symm.trans hx)
  have noCollision : NoCollision (SourceOf later.oplog bob.oplog) := by
    have hall : NoCollision (Source later.oplog) := .of_list (fun x hx => hx.mem_sourcesOf
      (by decide +kernel)) (by decide +kernel)
    exact hall.mono fun x hx => hx.elim id fun hx => hx.mono hwithin
  have trusts : later.TrustsPeer bob := fun h x hx hno =>
    absurd (hwithin.mem (HashMap.mem_iff_getElem?.mpr ⟨x, hx⟩)) hno
  have trusts' : bob.TrustsPeer later := by
    have hlist : ∀ kv ∈ later.oplog.entries.toList, bob.trusts kv.2 = true := by decide +kernel
    exact fun h x hx _ => hlist (h, x) (HashMap.mem_toList.mpr hx)
  have finds : ∀ s t : PyGraphStore, s.PullFinds t W env := fun s t es _ n all _ _ => by
    split
    · exact finds_of_not (fun _ id k v hW hp => hW id k v hp) _ _
    · exact finds_of_not (fun _ id k v hW hp => hW id k v hp) _ _
  obtain ⟨-, hok, -, hsettled⟩ := converges_after_compaction W compacted snap boot run noCollision env
    env commits commits trusts trusts' (finds _ _) (finds _ _)
  have hwrote : e ∈ ann.wrote env call ++ [] := by
    obtain ⟨u, hu⟩ : ∃ u, (ann.exec env call).1 = .ok u := exists_ok_of_isOk (by decide +kernel)
    have hone : ann.wrote env call = [e] := by
      rw [wrote, hu]
      rfl
    rw [hone]
    exact List.mem_cons_self
  exact ⟨hok, (hsettled e hwrote fun id k v hp => by cases hp).2⟩

/-- Bob holds the log that Ann compacts. The machine she adds afterwards does not come through:
its parent is the checkpoint, which Bob refuses. -/
theorem compaction_strands_peer :
    let ann := ((freshStore "ann" machines).exec env (.addNode "m" "machine" "M" age none)).2
    let bob := bobsCopy ann
    let compacted := (ann.exec env .compact).2
    let later := (compacted.exec env (.addNode "n" "machine" "N" age none)).2
    Reachable ann ∧ Reachable bob ∧ bob.oplog.entries.keys = ann.oplog.entries.keys ∧
      (compacted.exec env (.addNode "n" "machine" "N" age none)).1 = .ok () ∧
      (bob.pull later env).1 = .error (.runtimeError "1 entries have unresolvable parents") ∧
      (bob.pull later env).2.graph.getNode "n" = none := by
  intro ann bob compacted later
  have hann : Reachable ann := .call (reachable_freshStore (by decide +kernel)) env _
  obtain ⟨snapshot, -, boot⟩ : ∃ snapshot, ann.snapshot = some snapshot ∧
      fromSnapshot env "bob" snapshot = .ok bob := bobsCopy_spec (by decide +kernel)
  refine ⟨hann, .fromSnapshot env "bob" snapshot boot, by decide +kernel, by decide +kernel,
    by decide +kernel, ?_⟩
  exact Option.isNone_iff_eq_none.mp (by decide +kernel)

/-- What is settled need not be visible. Bob, with a copy of the compacted store, adds a machine
while Ann has every machine require a site: the sync goes through, and both end with the
machine in quarantine. -/
theorem settled_in_quarantine :
    let site : BTreeMap String PropertyDef := (∅ : BTreeMap String PropertyDef).insert "site"
      ⟨.string, true, none, none⟩
    let ann := ((freshStore "ann" machines).compact env).2
    let updates : BTreeMap String NodeTypeUpdate := (∅ : BTreeMap String NodeTypeUpdate).insert
      "machine" { addProperties := site }
    let extended := (ann.exec env (.extendOntology { nodeTypeUpdates := updates })).2
    let bob := ((bobsCopy ann).exec env (.addNode "m" "machine" "M" age none)).2
    let e := (bobsCopy ann).writtenEntry env (.addNode "m" "machine" none "M" age)
    let ann' := (extended.pull bob env).2
    let bob' := (bob.pull ann' env).2
    (extended.pull bob env).1 = .ok 1 ∧ (bob.pull ann' env).1 = .ok 1 ∧
      e.hash ∈ ann'.graph.quarantined ∧ e.hash ∈ bob'.graph.quarantined := by
  intro site ann updates extended bob e ann' bob'
  refine ⟨by decide +kernel, by decide +kernel, ?_, ?_⟩ <;> rw [← Std.ExtTreeMap.contains_iff_mem]
  · decide +kernel
  · decide +kernel

end

end PyGraphStore

end SilkGraph
