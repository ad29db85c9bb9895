import SilkGraph.Graph.Resolved
import SilkGraph.GraphStore.Compaction

/-!
# Quarantine and the log

A compaction carries the quarantined entries over by looking their hashes up in the log, so
every quarantined hash has to be one of the log. Three things break that. A checkpoint whose
operations are refused, when it comes in or when it is replayed against a later ontology,
leaves the hashes of made-up entries in quarantine. A merge that replaces the log by a
checkpoint and fails afterwards leaves the graph of the old log behind, and so does a
compaction that fails after its checkpoint is written.

`Orderly` closes the constructors and the calls under the conditions that rule them out, and
along such a run quarantine and log agree (`quarantine_resolves`).
-/

namespace SilkGraph

open OpLog MaterializedGraph

/-- The operation held under a hash. -/
def OpLog.payloadAt (self : OpLog) (h : Hash) : Option GraphOp := self.entries[h]?.map Entry.payload

namespace PyGraphStore

/-- The calls that have the graph rebuilt from the log. -/
def rebuilds [Crates] (self : PyGraphStore) : Call → Bool
  | .merge entries => (entries.filter self.admits).any isSchemaChange
  | .extendOntology _ | .revalidate | .compact => true
  | _ => false

section

variable [Crates]

/-- The entries that a call brings to the log from outside the log: the admitted ones of a
merge, or the one that is written. -/
def brings (self : PyGraphStore) (env : Env) : Call → List Entry
  | .merge entries => entries.filter self.admits
  | c => match c.written with
    | some op => [self.writtenEntry env op]
    | none => []

/-- The entry a compaction carries a quarantined one over as. -/
def reRooted (self : PyGraphStore) (env : Env) (e : Entry) : Entry :=
  self.createEntry e.payload [(self.checkpointEntry env).hash] [] e.clock e.author

/-- Everything quarantined or held is in the log, what is held is quarantined, and every
compaction that returns carries all of it over. -/
structure QuarantineResolves (s : PyGraphStore) : Prop where
  quarantined : ∀ h ∈ s.graph.quarantined, h ∈ s.oplog.entries
  pending : ∀ h ∈ s.graph.pendingEdges, h ∈ s.oplog.entries
  held : ∀ h ∈ s.graph.pendingEdges, h ∈ s.graph.quarantined
  carried : ∀ env cp, (s.compact env).1 = .ok cp → ∀ h ∈ s.graph.quarantined,
    ∃ e, s.oplog.entries[h]? = some e ∧
      (s.reRooted env e).hash ∈ (s.compact env).2.oplog.entries

/-- No operation of a checkpoint is refused when the log is replayed over the given base. -/
def OpsAccepted (L : OpLog) (env : Env) (base : Ontology) : Prop :=
  ∀ all, L.entriesSince none = some all → smoothReplay env.order base all = true

/-- The conditions on a call: it returns or takes nothing from the log, a rebuild refuses no
operation of a checkpoint, and what it brings collides with nothing. -/
structure OrderlyCall (s : PyGraphStore) (env : Env) (c : Call) : Prop where
  keeps : (s.exec env c).1 = .ok () ∨ Keeps s.oplog (s.exec env c).2.oplog
  accepted : s.rebuilds c = true →
    OpsAccepted (s.exec env c).2.oplog env s.graph.baseOntology
  apart : ∀ x ∈ s.brings env c, x.verifyHash → ∀ e,
    (s.exec env c).2.oplog.entries[x.hash]? = some e → e.payload = x.payload

/-- **Runs** whose steps meet the conditions. -/
inductive Orderly : PyGraphStore → Prop where
  | memory {s : PyGraphStore} (env : Env) (instanceId : String) (ontology : Ontology)
      (run : new env instanceId ontology none = .ok s) : Orderly s
  | file {s : PyGraphStore} (env : Env) (instanceId : String) (ontology : Ontology) (db : Db)
      (run : new env instanceId ontology (some db) = .ok s)
      (accepted : OpsAccepted s.oplog env s.graph.baseOntology) : Orderly s
  | fromSnapshot {s : PyGraphStore} (env : Env) (instanceId : String) (snapshot : List Entry)
      (run : fromSnapshot env instanceId snapshot = .ok s)
      (accepted : OpsAccepted s.oplog env s.graph.baseOntology) : Orderly s
  | «open» {s : PyGraphStore} (env : Env) (db : Db) (run : «open» env db = .ok s)
      (accepted : OpsAccepted s.oplog env s.graph.baseOntology) : Orderly s
  | call {s : PyGraphStore} (h : Orderly s) (env : Env) (c : Call) (orderly : OrderlyCall s env c) :
      Orderly (s.exec env c).2

variable {s t : PyGraphStore} {env : Env} {es : List Entry} {L : OpLog}

/-! ### The log -/

omit [Crates] in
theorem payloadAt_mono {L L' : OpLog} (h : Keeps L L') (x : Hash) (op : GraphOp)
    (hx : L.payloadAt x = some op) : L'.payloadAt x = some op := by
  obtain ⟨e, he, rfl⟩ := Option.map_eq_some_iff.mp hx
  rw [payloadAt, h x e he, Option.map_some]

/-- A merge brings in admitted entries only. -/
theorem merge_all {P : Hash → Entry → Prop} (hs : s.oplog.All P)
    (hes : ∀ e ∈ es, s.admits e = true → P e.hash e) : (s.exec env (.merge es)).2.oplog.All P := by
  rw [exec, done_snd, mergeEntriesVec_log]
  exact mergeBatch_all hs _ fun e he => hes e (List.mem_of_mem_filter he) (List.of_mem_filter he)

/-- Only a parentless checkpoint takes anything from a log. -/
theorem keeps_append (hne : L.entries ≠ ∅) {e : Entry} (h : e.isRootCheckpoint = false) :
    Keeps L (L.append e).2 := by
  intro x a ha
  rcases OpLog.append_cases hne e with ⟨-, hrun⟩ | ⟨-, -, hrun⟩ | ⟨-, -, hc, -⟩ | ⟨-, -, -, p, -, -, hrun⟩ |
    ⟨-, hd, -, -, hrun⟩
  · rwa [hrun]
  · rwa [hrun]
  · rw [h] at hc
    cases hc
  · rwa [hrun]
  · rw [hrun, getElem?_insertEntry, if_neg, ha]
    rintro rfl
    exact hd (HashMap.mem_iff_getElem?.mpr ⟨a, ha⟩)

/-- An append that returns leaves the hash of its entry in the log. -/
theorem mem_of_append_ok (hne : L.entries ≠ ∅) {e : Entry} {b : Bool} (h : (L.append e).1 = .ok b) :
    e.hash ∈ (L.append e).2.entries := by
  rcases OpLog.append_cases hne e with ⟨-, hrun⟩ | ⟨-, hd, hrun⟩ | ⟨-, -, -, hrun⟩ |
    ⟨-, -, -, p, -, -, hrun⟩ | ⟨-, -, -, -, hrun⟩ <;> rw [hrun] at h ⊢
  · cases h
  · exact hd
  · exact HashMap.mem_insert.mpr (.inl rfl)
  · cases h
  · exact HashMap.mem_insert.mpr (.inl rfl)

theorem mem_of_backend_append {b : Backend} (hne : b.oplog.entries ≠ ∅) {σ : HashOrder}
    {txn : TxnResult} {e : Entry} {r : Bool} (h : (b.append σ txn e).1 = .ok r) :
    e.hash ∈ (b.append σ txn e).2.oplog.entries := by
  rw [Backend.append_oplog]
  obtain ⟨r', hr'⟩ : ∃ r', (b.oplog.append e).1 = .ok r' := by
    cases b with
    | memory L =>
      change (L.append e).1.mapError OpLogError.display = .ok r at h
      change ∃ r', (L.append e).1 = .ok r'
      cases hr : (L.append e).1 with
      | error err => rw [hr] at h; cases h
      | ok r' => exact ⟨r', rfl⟩
    | persistent st =>
      change (st.append σ txn e).1.mapError StoreError.display = .ok r at h
      change ∃ r', (st.oplog.append e).1 = .ok r'
      rw [Store.append] at h
      generalize st.oplog.append e = q at h
      obtain ⟨q, L'⟩ := q
      cases q with
      | error err => cases h
      | ok r' => exact ⟨r', rfl⟩
  exact mem_of_append_ok hne hr'

/-- Entries that are carried over are in the log afterwards, next to what was there. -/
theorem mem_of_carryOver (hne : s.oplog.entries ≠ ∅) {x : Hash} {i : ℕ} {es : List Entry}
    (ok : (s.carryOver env x i es).1 = .ok ()) :
    (∀ h ∈ s.oplog.entries, h ∈ (s.carryOver env x i es).2.oplog.entries) ∧ ∀ e ∈ es,
      (s.createEntry e.payload [x] [] e.clock e.author).hash ∈
        (s.carryOver env x i es).2.oplog.entries := by
  induction es generalizing s i with
  | nil => exact ⟨fun h hh => hh, nofun⟩
  | cons e es ih =>
    set w := s.createEntry e.payload [x] [] e.clock e.author with hw
    have hroot : w.isRootCheckpoint = false := by
      rw [Entry.isRootCheckpoint, hw, createEntry_next]
      rfl
    have hlog := Backend.append_oplog s.backend env.order (env.txn i) w
    have hkeep : ∀ h ∈ s.oplog.entries,
        h ∈ (s.backend.append env.order (env.txn i) w).2.oplog.entries := fun h hh => by
      obtain ⟨a, ha⟩ := HashMap.mem_iff_getElem?.mp hh
      rw [hlog]
      exact HashMap.mem_iff_getElem?.mpr ⟨a, keeps_append hne hroot h a ha⟩
    have hin := @mem_of_backend_append _ s.backend hne env.order (env.txn i) w
    have hne' : (s.backend.append env.order (env.txn i) w).2.oplog.entries ≠ ∅ := by
      rw [hlog]
      exact entries_append_ne_empty hne w
    rw [carryOver, ← hw] at ok ⊢
    generalize s.backend.append env.order (env.txn i) w = r at hkeep hin hne' ok
    obtain ⟨_ | b, backend⟩ := r
    · cases ok
    · obtain ⟨h₁, h₂⟩ := @ih { s with backend } hne' (i + 1) ok
      refine ⟨fun h hh => h₁ h (hkeep h hh), fun a ha => ?_⟩
      obtain rfl | ha := List.mem_cons.mp ha
      · exact h₁ _ (hin rfl)
      · exact h₂ a ha

/-! ### What a call does to the graph -/

/-- The graph of a store after a call: as it was, and if the call returns the log has lost
nothing; rebuilt from the new log; or brought up to date by the entry that was written or by
the listed entries of a payload without a schema change. -/
inductive GraphAfter (s : PyGraphStore) (env : Env) (c : Call) : Prop where
  | same (graph : (s.exec env c).2.graph = s.graph)
      (keeps : (s.exec env c).1 = .ok () → Keeps s.oplog (s.exec env c).2.oplog) : GraphAfter s env c
  | rebuilt (rebuilds : s.rebuilds c = true) {all : List Entry}
      (listed : (s.exec env c).2.oplog.entriesSince none = some all)
      (graph : (s.exec env c).2.graph = s.graph.rebuild env.order all) : GraphAfter s env c
  | written {op : GraphOp} (write : c.written = some op) (plain : op.isCheckpoint = false)
      (keeps : Keeps s.oplog (s.exec env c).2.oplog)
      (held : (s.writtenEntry env op).hash ∈ (s.exec env c).2.oplog.entries)
      (graph : (s.exec env c).2.graph = s.graph.apply env.order (s.writtenEntry env op)) :
      GraphAfter s env c
  | merged {es all : List Entry} (merge : c = .merge es)
      (plain : (es.filter s.admits).any isSchemaChange = false)
      (valid : ∀ x ∈ es.filter s.admits, x.verifyHash)
      (keeps : Keeps s.oplog (s.exec env c).2.oplog)
      (listed : (s.exec env c).2.oplog.entriesSince none = some all)
      (graph : (s.exec env c).2.graph =
        s.graph.applyAll env.order (listedOf all (es.filter s.admits))) : GraphAfter s env c

theorem writtenEntry_not_root {op : GraphOp} (hop : op.isCheckpoint = false) :
    (s.writtenEntry env op).isRootCheckpoint = false := by
  rw [Entry.isRootCheckpoint, writtenEntry_payload, hop, Bool.and_false]

/-- An append leaves the graph alone or applies its entry, and the log loses nothing. -/
theorem append_graph (hne : s.oplog.entries ≠ ∅) (env : Env) {op : GraphOp} (hop : op.isCheckpoint = false) :
    Keeps s.oplog (s.append env op).2.oplog ∧ (((s.append env op).2.graph = s.graph ∧
        ∃ err, (s.append env op).1 = .error err) ∨
      (s.writtenEntry env op).hash ∈ (s.append env op).2.oplog.entries ∧
        (s.append env op).2.graph = s.graph.apply env.order (s.writtenEntry env op)) := by
  have hkeeps : Keeps s.oplog
      (s.backend.append env.order (env.txn 0) (s.writtenEntry env op)).2.oplog := by
    rw [Backend.append_oplog]
    exact keeps_append hne (writtenEntry_not_root hop)
  rcases s.append_cases env op with ⟨_, -, hrun⟩ | ⟨-, _, -, hrun⟩ | ⟨-, _, hb, hrun⟩ <;> rw [hrun]
  · exact ⟨fun x e he => he, .inl ⟨rfl, _, rfl⟩⟩
  · exact ⟨hkeeps, .inl ⟨rfl, _, rfl⟩⟩
  · exact ⟨hkeeps, .inr ⟨mem_of_backend_append hne hb, rfl⟩⟩

/-- Re-materializing rebuilds the graph, or panics and leaves the store alone. -/
theorem revalidate_cases (s : PyGraphStore) (env : Env) :
    ((s.revalidate env).1 = .error .panic ∧ (s.revalidate env).2 = s) ∨
      ∃ all n, (s.revalidate env).1 = .ok n ∧ (s.revalidate env).2.oplog.entriesSince none = some all ∧
        (s.revalidate env).2.graph = s.graph.rebuild env.order all := by
  rw [revalidate_log]
  cases hall : s.oplog.entriesSince none with
  | none =>
    refine .inl ?_
    simp [PyGraphStore.revalidate, hall]
  | some all =>
    refine .inr ⟨all, ?_⟩
    simp [PyGraphStore.revalidate, hall]

/-- A payload without a schema change holds no checkpoint that could replace the log. -/
theorem noReplace_of_plain (h : es.any isSchemaChange = false) : NoReplace L es := by
  intro e he _ hroot
  rw [List.any_eq_false] at h
  rw [Entry.isRootCheckpoint, Bool.and_eq_true] at hroot
  refine absurd ?_ (h e he)
  rw [isSchemaChange, hroot.2, Bool.or_true]

theorem merge_graph (hne : s.oplog.entries ≠ ∅) (env : Env) (es : List Entry) :
    GraphAfter s env (.merge es) := by
  have hlog : (s.mergeEntriesVec env es).2.oplog =
      (s.backend.merge env.order (env.txn 0) (es.filter s.admits)).2.oplog := by
    rw [Backend.merge_oplog]
    exact mergeEntriesVec_log s env es
  have hexec : (s.exec env (.merge es)).2 = (s.mergeEntriesVec env es).2 := rfl
  rcases s.mergeEntriesVec_cases env es with ⟨msg, -, hrun⟩ | ⟨hzero, hrun⟩ | ⟨n, -, -, hrun⟩ |
    ⟨n, all, hok, hall, hrun⟩
  · refine .same (by rw [hexec, hrun]) fun hok => ?_
    rw [exec, done, hrun] at hok
    cases hok
  · refine .same (by rw [hexec, hrun]) fun _ => ?_
    rw [hexec, hlog, oplog_of_merge_zero hzero]
    exact fun x e he => he
  · refine .same (by rw [hexec, hrun]) fun hok => ?_
    rw [exec, done, hrun] at hok
    cases hok
  · obtain ⟨-, hgraph⟩ := mergeEntriesVec_of_ok s env _ (Prod.ext hok rfl) hall
    rw [if_neg (Nat.succ_ne_zero n)] at hgraph
    cases hschema : (es.filter s.admits).any isSchemaChange with
    | true =>
      refine .rebuilt hschema (by rw [hexec, hlog]; exact hall) ?_
      rw [hexec, hgraph, if_pos hschema]
    | false =>
      have hn : NoReplace s.oplog (es.filter s.admits) := noReplace_of_plain hschema
      obtain ⟨new, hnew, -⟩ := mergeBatch_of_backend hok
      refine .merged rfl hschema (fun x hx => ((mergeBatch_ok hne hn hnew).2.2 x hx).1) ?_
        (by rw [hexec, hlog]; exact hall) ?_
      · rw [hexec, mergeEntriesVec_log]
        exact mergeBatch_keeps hne (hn.mono (.nil _) (List.takeWhile_subset _))
      · rw [hexec, hgraph, if_neg (by rw [hschema]; exact Bool.false_ne_true)]

/-- A call that comes to an append. -/
theorem graphAfter_of_append (hne : s.oplog.entries ≠ ∅) {env : Env} {c : Call} {op : GraphOp}
    (hop : op.isCheckpoint = false) (hwritten : c.written = some op)
    (hgraph : (s.exec env c).2.graph = (s.append env op).2.graph)
    (hlog : (s.exec env c).2.oplog = (s.append env op).2.oplog) : GraphAfter s env c := by
  obtain ⟨hkeeps, ⟨hsame, -⟩ | ⟨hheld, happly⟩⟩ := append_graph hne env hop
  · exact .same (hgraph.trans hsame) fun _ => hlog ▸ hkeeps
  · exact .written hwritten hop (hlog ▸ hkeeps) (hlog ▸ hheld) (hgraph.trans happly)

theorem extendOntology_graph (hne : s.oplog.entries ≠ ∅) (env : Env) (extension : OntologyExtension) :
    GraphAfter s env (.extendOntology extension) := by
  rcases s.extendOntology_cases env extension with
    ⟨_, heq⟩ | ⟨-, -, ⟨_, -, heq⟩ | ⟨hex, hok, heq, -⟩⟩
  · refine .same ?_ fun _ => ?_ <;> rw [exec, done_snd, heq]
    exact fun x e he => he
  · refine graphAfter_of_append hne rfl rfl ?_ ?_ <;> rw [exec, done_snd, heq]
  · have hexec : (s.exec env (.extendOntology extension)).2 = _ := heq
    rcases revalidate_cases _ env with ⟨-, hstay⟩ | ⟨all, n, -, hall, hgraph⟩
    · rw [hstay] at hexec
      exact graphAfter_of_append hne rfl rfl (by rw [hexec]) (by rw [hexec]; rfl)
    · refine .rebuilt rfl (by rw [hexec]; exact hall) ?_
      rw [hexec, hgraph]
      -- a rebuild starts from the base, which an append leaves alone
      have hbase : (s.append env (.extendOntology extension)).2.graph.baseOntology =
          s.graph.baseOntology := by
        obtain ⟨-, ⟨hsame, -⟩ | ⟨-, happly⟩⟩ :=
          @append_graph _ s hne env (.extendOntology extension) rfl
        · rw [hsame]
        · rw [happly]
          exact (applyInner_schema s.graph env.order _ .full true).2
      rw [MaterializedGraph.rebuild, MaterializedGraph.rebuild, hbase]

theorem compact_graph (env : Env) : GraphAfter s env .compact := by
  have hexec : (s.exec env .compact).2 = (s.compact env).2 := rfl
  rcases s.compact_cases env with ⟨msg, -, hrun⟩ | ⟨-, ⟨err, hq, hrun⟩ | ⟨-, hsnd, hfst⟩⟩
  · refine .same (by rw [hexec, hrun]; rfl) fun hok => ?_
    rw [exec, done, hrun] at hok
    cases hok
  · obtain ⟨b, hb⟩ := carryOver_frame { s.ticked env with
      backend := (s.backend.replaceWithCheckpoint (env.txn 0) (s.checkpointEntry env)).2 } env
      (s.checkpointEntry env).hash 1 (s.carried env)
    refine .same (by rw [hexec, hrun, hb]; rfl) fun hok => ?_
    rw [exec, done, hrun] at hok
    cases hok
  · obtain ⟨b, hb⟩ := carryOver_frame { s.ticked env with
      backend := (s.backend.replaceWithCheckpoint (env.txn 0) (s.checkpointEntry env)).2 } env
      (s.checkpointEntry env).hash 1 (s.carried env)
    rw [hb] at hsnd hfst
    rcases revalidate_cases _ env with ⟨herr, hstay⟩ | ⟨all, n, -, hall, hgraph⟩
    · refine .same (by rw [hexec, hsnd, hstay]; rfl) fun hok => ?_
      rw [exec, done, hfst, herr] at hok
      cases hok
    · exact .rebuilt rfl (by rw [hexec, hsnd]; exact hall) (by rw [hexec, hsnd]; exact hgraph)

/-- **Step.** What any call does to the graph. -/
theorem exec_graph (hne : s.oplog.entries ≠ ∅) (env : Env) (c : Call) : GraphAfter s env c := by
  have hself : Keeps s.oplog s.oplog := fun x e he => he
  cases c with
  | addNode nodeId nodeType label properties subtype =>
    rcases s.addNode_cases env nodeId nodeType label properties subtype with
      ⟨_, -, heq⟩ | ⟨-, ⟨_, -, heq⟩ | ⟨_, -, heq⟩⟩
    · refine .same ?_ fun _ => ?_ <;> rw [exec, done_snd, heq]
      exact hself
    · refine graphAfter_of_append hne rfl rfl ?_ ?_ <;> rw [exec, done_snd, heq]
    · refine graphAfter_of_append hne rfl rfl ?_ ?_ <;> rw [exec, done_snd, heq]
      rfl
  | addEdge edgeId edgeType sourceId targetId properties =>
    rcases s.addEdge_cases env edgeId edgeType sourceId targetId properties with
      ⟨_, heq⟩ | ⟨_, _, -, -, -, heq⟩
    · refine .same ?_ fun _ => ?_ <;> rw [exec, done_snd, heq]
      exact hself
    · refine graphAfter_of_append hne rfl rfl ?_ ?_ <;> rw [exec, done_snd, heq]
  | updateProperty entityId key value => exact graphAfter_of_append hne rfl rfl rfl rfl
  | removeNode nodeId =>
    obtain ⟨hkeeps, ⟨hsame, -⟩ | ⟨hheld, happly⟩⟩ :=
      @append_graph _ { s with nodeTypes := s.nodeTypes.erase nodeId } hne env (.removeNode nodeId) rfl
    · exact .same hsame fun _ => hkeeps
    · exact .written rfl rfl hkeeps hheld happly
  | removeEdge edgeId => exact graphAfter_of_append hne rfl rfl rfl rfl
  | drain op =>
    rcases s.drainOp_cases env op with ⟨_, heq⟩ | ⟨hop, ⟨_, -, heq⟩ | ⟨_, -, heq⟩⟩
    · refine .same ?_ fun _ => ?_ <;> rw [exec, done_snd, heq]
      exact hself
    all_goals
      have hplain : op.isCheckpoint = false := by
        rw [Bool.or_eq_false_iff] at hop
        exact hop.2
    · refine graphAfter_of_append hne hplain rfl ?_ ?_ <;> rw [exec, done_snd, heq]
    · refine graphAfter_of_append hne hplain rfl ?_ ?_ <;> rw [exec, done_snd, heq]
      rfl
  | extendOntology extension => exact extendOntology_graph hne env extension
  | merge entries => exact merge_graph hne env entries
  | revalidate =>
    have hexec : (s.exec env .revalidate).2 = (s.revalidate env).2 := rfl
    rcases revalidate_cases s env with ⟨-, hstay⟩ | ⟨all, n, -, hall, hgraph⟩
    · exact .same (by rw [hexec, hstay]) fun _ => by rw [hexec, hstay]; exact hself
    · exact .rebuilt rfl (hexec ▸ hall) (hexec ▸ hgraph)
  | compact => exact compact_graph env
  | setFlushMode mode =>
    obtain ⟨b, hrun, hlog⟩ := s.setFlushMode_frame mode
    have hexec : (s.exec env (.setFlushMode mode)).2 = { s with backend := b } := hrun
    refine .same ?_ fun _ => ?_ <;> rw [hexec]
    exact fun x e he => by rwa [PyGraphStore.oplog, hlog]
  | flush =>
    obtain ⟨b, hrun, hlog⟩ := s.flush_frame env
    have hexec : (s.exec env .flush).2 = { s with backend := b } := hrun
    refine .same ?_ fun _ => ?_ <;> rw [hexec]
    exact fun x e he => by rwa [PyGraphStore.oplog, hlog]
  | setSigningKey key => exact .same rfl fun _ => hself
  | registerTrustedAuthor authorId key => exact .same rfl fun _ => hself
  | setRequireSignatures enabled => exact .same rfl fun _ => hself

/-- **Rule for reachable stores.** An invariant of graphs holds of theirs. -/
theorem Reachable.invariant {I : MaterializedGraph → Prop} (hI : Invariant I) (h : Reachable s) :
    I s.graph := by
  induction h with
  | memory env instanceId ontology run =>
    obtain ⟨-, rfl⟩ := new_memory run
    exact hI.start ontology ontology ∅
  | file env instanceId ontology run =>
    obtain ⟨store, all, -, -, rfl⟩ := new_file run
    exact hI.rebuild _ _ _
  | fromSnapshot env instanceId snapshot run =>
    obtain ⟨g, rest, ontology, n, log, all, -, -, -, -, rfl⟩ := from_snapshot run
    exact hI.rebuild _ _ _
  | reopen _ _ env run =>
    obtain ⟨store, g, rest, ontology, -, -, -, rfl⟩ := open_file run
    exact hI.rebuild _ _ _
  | reopenNew _ _ env instanceId ontology run =>
    obtain ⟨store, all, -, -, rfl⟩ := new_file run
    exact hI.rebuild _ _ _
  | call h env c ih =>
    obtain ⟨hgraph, -⟩ | ⟨-, -, hgraph⟩ | ⟨-, -, -, -, hgraph⟩ | ⟨-, -, -, -, -, hgraph⟩ :=
      exec_graph h.nonempty env c <;> rw [hgraph]
    · exact ih
    · exact hI.rebuild _ _ _
    · exact hI.applyAny ih env.order _ true
    · exact hI.applyAll ih env.order _

/-- Whatever happens, a held edge of a reachable store lacks an endpoint. -/
theorem Reachable.settled (h : Reachable s) : s.graph.Settled := h.invariant settled_invariant

/-! ### The invariant -/

/-- The log is keyed by the hashes of its entries, and what the graph has in quarantine is in
the log. -/
structure Tracked (s : PyGraphStore) : Prop where
  keyed : s.oplog.All fun h e => e.hash = h
  nonempty : s.oplog.entries ≠ ∅
  resolves : s.graph.Resolves s.oplog.payloadAt

omit [Crates] in
theorem payloadAt_of_get {h : Hash} {e : Entry} (he : L.entries[h]? = some e) :
    L.payloadAt h = some e.payload := by
  rw [payloadAt, he, Option.map_some]

theorem LogStep.keyed {L L' : OpLog} (h : LogStep L L') (hL : L.All fun h e => e.hash = h) :
    L'.All fun h e => e.hash = h := by
  cases h with
  | append e => exact hL.append rfl
  | replace _ _ => exact .new rfl

theorem LogSteps.keyed {L L' : OpLog} (h : LogSteps L L') (hL : L.All fun h e => e.hash = h) :
    L'.All fun h e => e.hash = h := by
  induction h with
  | refl => exact hL
  | tail _ hstep ih => exact hstep.keyed ih

omit [Crates] in
/-- Listed entries are known. -/
theorem payloadAt_of_listed (hL : L.All fun h e => e.hash = h) {all : List Entry}
    (hall : L.entriesSince none = some all) : ∀ e ∈ all, L.payloadAt e.hash = some e.payload := by
  intro e he
  obtain ⟨h, hget⟩ := stored_of_entriesSince hall he
  exact hL h e hget ▸ payloadAt_of_get hget

/-- **Step.** A call under the conditions. -/
theorem Tracked.exec (hs : s.Tracked) (env : Env) (c : Call) (orderly : OrderlyCall s env c) :
    (s.exec env c).2.Tracked := by
  have hkeyed := (exec_log s env c).keyed hs.keyed
  have hne := (exec_log s env c).nonempty hs.nonempty
  have hgrown : Keeps s.oplog (s.exec env c).2.oplog →
      s.graph.Resolves (s.exec env c).2.oplog.payloadAt :=
    fun hkeeps => hs.resolves.mono (payloadAt_mono hkeeps)
  refine ⟨hkeyed, hne, ?_⟩
  obtain ⟨hgraph, hkeeps⟩ | ⟨hrebuilds, hall, hgraph⟩ | ⟨hwrite, hplain, hkeeps, hheld, hgraph⟩ |
    ⟨rfl, hplain, hvalid, hkeeps, hall, hgraph⟩ := exec_graph hs.nonempty env c
  · rw [hgraph]
    exact hgrown (orderly.keeps.elim hkeeps id)
  · rw [hgraph]
    exact resolves_rebuild s.graph env.order (payloadAt_of_listed hkeyed hall)
      (orderly.accepted hrebuilds _ hall)
  · rename_i op
    rw [hgraph]
    obtain ⟨x, hx⟩ := HashMap.mem_iff_getElem?.mp hheld
    have hbrought : s.writtenEntry env op ∈ s.brings env c := by
      unfold brings
      split
      · cases hwrite
      · rw [hwrite]
        exact List.mem_singleton.mpr rfl
    have hsame := orderly.apart _ hbrought (verifyHash_createEntry ..) x hx
    refine (hgrown hkeeps).apply env.order ?_ ?_
    · rw [payloadAt_of_get hx, hsame]
    · rw [writtenEntry_payload]
      exact hplain
  · rename_i es all
    rw [hgraph]
    refine (hgrown hkeeps).applyAll env.order fun e he => ?_
    obtain ⟨hin, hhash⟩ := mem_listedOf.mp he
    have hk := payloadAt_of_listed hkeyed hall e hin
    refine ⟨hk, ?_⟩
    -- the listed entry is the one of the payload
    obtain ⟨x, hx, hxe⟩ := List.mem_map.mp hhash
    obtain ⟨h, hget⟩ := stored_of_entriesSince hall hin
    have hpay : e.payload = x.payload :=
      orderly.apart x hx (hvalid x hx) e (by rw [hxe, hkeyed h e hget]; exact hget)
    rw [List.any_eq_false] at hplain
    have hx' := hplain x hx
    rw [isSchemaChange, Bool.or_eq_true, not_or, Bool.not_eq_true, Bool.not_eq_true] at hx'
    rw [hpay]
    exact hx'.2

theorem Tracked.of_rebuild {base : Ontology} {all : List Entry}
    (hlog : ∃ g, LogSteps (OpLog.new g) s.oplog) (hall : s.oplog.entriesSince none = some all)
    (hgraph : s.graph = (MaterializedGraph.new base).rebuild env.order all)
    (accepted : OpsAccepted s.oplog env s.graph.baseOntology) : s.Tracked := by
  obtain ⟨g, hlog⟩ := hlog
  have hkeyed := hlog.keyed (All.new rfl)
  refine ⟨hkeyed, hlog.nonempty (entries_new_ne_empty g), ?_⟩
  have hbase : s.graph.baseOntology = base := by
    rw [hgraph]
    exact (rebuild_schema _ _ _).2
  rw [hgraph]
  exact resolves_rebuild _ env.order (payloadAt_of_listed hkeyed hall) (hbase ▸ accepted all hall)

/-- **Run.** -/
theorem Orderly.tracked (h : Orderly s) : s.Tracked := by
  induction h with
  | memory env instanceId ontology run =>
    obtain ⟨g, hlog⟩ := new_log run
    obtain ⟨-, rfl⟩ := new_memory run
    exact ⟨hlog.keyed (All.new rfl), hlog.nonempty (entries_new_ne_empty g), .new ontology⟩
  | file env instanceId ontology db run accepted =>
    have hlog := new_log run
    obtain ⟨store, all, -, hall, rfl⟩ := new_file run
    exact .of_rebuild hlog hall rfl accepted
  | fromSnapshot env instanceId snapshot run accepted =>
    have hlog := fromSnapshot_log run
    obtain ⟨g, rest, ontology, n, log, all, -, -, -, hall, rfl⟩ := from_snapshot run
    exact .of_rebuild hlog hall rfl accepted
  | «open» env db run accepted =>
    have hlog := open_log run
    obtain ⟨store, g, rest, ontology, -, hall, -, rfl⟩ := open_file run
    exact .of_rebuild hlog hall rfl accepted
  | call h env c orderly ih => exact ih.exec env c orderly

/-- A compaction that returns has carried over every quarantined entry that is in the log. -/
theorem reRooted_mem_of_compact {cp : String} (ok : (s.compact env).1 = .ok cp) {h : Hash}
    (hh : h ∈ s.graph.quarantined) {e : Entry} (he : s.oplog.entries[h]? = some e) :
    (s.reRooted env e).hash ∈ (s.compact env).2.oplog.entries := by
  obtain ⟨msg, -, hrun⟩ | ⟨hok, ⟨err, -, hrun⟩ | ⟨hq, hsnd, -⟩⟩ := s.compact_cases env
  · rw [hrun] at ok
    cases ok
  · rw [hrun] at ok
    cases ok
  · rw [hsnd, revalidate_log]
    have hin : e ∈ s.carried env := by
      refine List.mem_filterMap.mpr ⟨h, ?_, he⟩
      rw [HashOrder.mem_walk]
      exact Std.ExtTreeMap.mem_keys.mpr hh
    have hlog := replace_of_ok hok
    refine (mem_of_carryOver ?_ hq).2 e hin
    change (Backend.replaceWithCheckpoint _ _ _).2.oplog.entries ≠ ∅
    rw [hlog]
    exact entries_new_ne_empty _

theorem Tracked.quarantineResolves (h : s.Tracked) : s.QuarantineResolves := by
  have hin : ∀ x op, s.oplog.payloadAt x = some op → ∃ e, s.oplog.entries[x]? = some e := fun x op hx => by
    obtain ⟨e, he, -⟩ := Option.map_eq_some_iff.mp hx
    exact ⟨e, he⟩
  have hquarantined : ∀ x ∈ s.graph.quarantined, ∃ e, s.oplog.entries[x]? = some e := fun x hx => by
    obtain ⟨op, hop⟩ := Option.isSome_iff_exists.mp (h.resolves.quarantined x hx)
    exact hin x op hop
  have hpending : ∀ x ∈ s.graph.pendingEdges, x ∈ s.graph.quarantined := fun x hx => by
    obtain ⟨p, hp⟩ := HashMap.mem_iff_getElem?.mp hx
    exact (h.resolves.pending x p hp).1
  refine ⟨fun x hx => HashMap.mem_iff_getElem?.mpr (hquarantined x hx),
    fun x hx => HashMap.mem_iff_getElem?.mpr (hquarantined x (hpending x hx)), hpending,
    fun env cp ok x hx => ?_⟩
  obtain ⟨e, he⟩ := hquarantined x hx
  exact ⟨e, he, reRooted_mem_of_compact ok hx he⟩

/-- **Quarantine resolves.** In every store of every run that meets the conditions, the
quarantined and the held hashes are hashes of the log, the held ones are quarantined, and a
compaction carries all of them over. -/
theorem quarantine_resolves (h : Orderly s) : s.QuarantineResolves := h.tracked.quarantineResolves

end

open Sample in
/-- A new store that has merged a node of an unknown type: its hash is quarantined, and it is
in the log. -/
theorem quarantine_resolves_unknown_type :
    let peer := Entry.new (.addNode "g" "ghost" none "G" ∅) [(genesis env "ann" machines).hash] []
      ⟨"bob", 1, 1⟩ "bob"
    let s := ((freshStore "ann" machines).exec env (.merge [peer])).2
    Orderly s ∧ peer.hash ∈ s.graph.quarantined ∧ s.QuarantineResolves := by
  intro peer s
  have hvalid : machines.validateSelf = .ok () := by decide +kernel
  have hnew : (genesis env "ann" machines).hash ≠ peer.hash := by decide +kernel
  have hall : s.oplog.All fun h e => h = peer.hash → e = peer :=
    merge_all (.new fun h => absurd h hnew) fun e he _ _ => List.mem_singleton.mp he
  have hs : Orderly s := by
    refine .call (.memory env "ann" machines (by rw [new, hvalid]; rfl)) env (.merge [peer])
      ⟨.inl ?_, fun h => absurd h ?_, fun x hx _ e he => ?_⟩
    · decide +kernel
    · decide +kernel
    · rw [brings] at hx
      obtain rfl := List.mem_singleton.mp (List.mem_of_mem_filter hx)
      rw [hall _ e he rfl]
  have hq : s.graph.quarantined.contains peer.hash = true := by decide +kernel
  exact ⟨hs, Std.ExtTreeMap.contains_iff_mem.mp hq, quarantine_resolves hs⟩

open Sample in
/-- A new store that has merged a checkpoint of a stranger with a node of an unknown type: the
quarantined hash is not in the log, and a compaction leaves the node behind. -/
theorem quarantine_dangles :
    let ghost : GraphOp := .addNode "g" "ghost" none "G" ∅
    let checkpoint := Entry.new (.checkpoint [ghost] [(1, 0)] 1 0) [] [] ⟨"eve", 1, 0⟩ "eve"
    let s := ((freshStore "ann" machines).exec env (.merge [checkpoint])).2
    Reachable s ∧ ¬ s.QuarantineResolves ∧ s.graph.quarantined.size = 1 ∧ s.carried env = [] := by
  intro ghost checkpoint s
  refine ⟨.call (reachable_freshStore (by decide +kernel)) env _, fun h => ?_, by decide +kernel, ?_⟩
  · have hdangles : (s.graph.quarantined.keys.all fun x => s.oplog.entries.contains x) = false := by
      decide +kernel
    refine absurd hdangles ?_
    rw [Bool.not_eq_false, List.all_eq_true]
    intro x hx
    exact Std.ExtTreeMap.contains_iff_mem.mpr (h.quarantined x (Std.ExtTreeMap.mem_keys.mp hx))
  · have hnone : (s.carried env).isEmpty = true := by decide +kernel
    exact List.isEmpty_iff.mp hnone

end PyGraphStore

end SilkGraph
