import SilkGraph.Graph.Clocks
import SilkGraph.GraphStore.Conformance
import SilkGraph.GraphStore.Newest

/-!
# How far a peer can push the clock

A merge refuses entries whose clock is more than `maxClockDrift` ahead of the store's. The
check looks at one clock of one kind of entry: a `DefineOntology` is exempt, the times that
a checkpoint records for its operations are not looked at, and a store that was opened from
a file checks against the clock of the first entry while its log may hold later ones.

`Timed` closes the constructors and the calls under the conditions that rule the three out.
Along such a run every clock in the log and in the graph stays within the drift of the
store's clock or of the latest reading of the wall clock (`Timed.within`), and so a merge
moves neither the clock nor the graph further than that (`merge_drift_bounded`).
-/

namespace SilkGraph

open OpLog MaterializedGraph

/-- The clock's physical time is at most the bound. -/
abbrev AtMost (bound : ℕ) (c : HybridClock) : Prop := c.physicalMs ≤ bound

theorem GraphOp.opTimes_of_not_checkpoint {op : GraphOp} (h : op.isCheckpoint = false) :
    op.opTimes = [] := by
  cases op with
  | checkpoint => cases h
  | _ => rfl

namespace HybridClock

theorem physicalMs_tick (c : HybridClock) (wall : ℕ) :
    (c.tick wall).physicalMs = max c.physicalMs wall := by
  rw [tick]
  split <;> dsimp only <;> omega

theorem physicalMs_merge (c remote : HybridClock) (wall : ℕ) :
    (c.merge remote wall).physicalMs = max (max c.physicalMs remote.physicalMs) wall := rfl

end HybridClock

open HybridClock

namespace PyGraphStore

/-- What the bound of a store is, given the latest reading of the wall clock. -/
def horizon (self : PyGraphStore) (now : ℕ) : ℕ := max self.clock.physicalMs now + maxClockDrift

/-- Every clock in the graph and in the log is at most the bound. -/
structure Below (bound : ℕ) (s : PyGraphStore) : Prop where
  graph : s.graph.ClocksIn (AtMost bound)
  log : s.oplog.All fun _ e => ∀ c ∈ e.clocks, AtMost bound c

section

variable [Crates]

/-- The condition on a payload: what the drift filter does not look at is within the drift,
the clock of a `DefineOntology` and the times recorded in a checkpoint. -/
def TimelyPayload (self : PyGraphStore) (now : ℕ) (entries : List Entry) : Prop :=
  ∀ e ∈ entries, self.admits e = true →
    (e.payload.isDefineOntology = true → e.clock.physicalMs ≤ self.horizon now) ∧
      ∀ t ∈ e.payload.opTimes, t.1 ≤ self.horizon now

/-- After the merge neither the clock nor the graph is further ahead than the drift, of the
clock before, the wall clock and the clocks of the graph before. -/
def DriftBounded (self : PyGraphStore) (env : Env) (now : ℕ) (entries : List Entry) : Prop :=
  ∀ latest, (∀ c, self.graph.HoldsClock c → c.physicalMs ≤ latest) →
    let s' := (self.mergeEntriesVec env entries).2
    let bound := max (max self.clock.physicalMs now) latest + maxClockDrift
    s'.clock.physicalMs ≤ bound ∧ ∀ c, s'.graph.HoldsClock c → c.physicalMs ≤ bound

/-- **Runs**: a store, with the latest reading of the wall clock, which does not go back. A
store opened from a file or a snapshot finds no clock beyond its horizon, and every merge has
a timely payload. -/
inductive Timed : PyGraphStore → ℕ → Prop where
  | memory {s : PyGraphStore} {now : ℕ} (env : Env) (instanceId : String) (ontology : Ontology)
      (run : new env instanceId ontology none = .ok s) : Timed s now
  | file {s : PyGraphStore} {now : ℕ} (env : Env) (instanceId : String) (ontology : Ontology)
      (db : Db) (run : new env instanceId ontology (some db) = .ok s)
      (found : s.oplog.All fun _ e => ∀ c ∈ e.clocks, AtMost (s.horizon now) c) : Timed s now
  | fromSnapshot {s : PyGraphStore} {now : ℕ} (env : Env) (instanceId : String)
      (snapshot : List Entry) (run : fromSnapshot env instanceId snapshot = .ok s)
      (found : s.oplog.All fun _ e => ∀ c ∈ e.clocks, AtMost (s.horizon now) c) : Timed s now
  | «open» {s : PyGraphStore} {now : ℕ} (env : Env) (db : Db) (run : «open» env db = .ok s)
      (found : s.oplog.All fun _ e => ∀ c ∈ e.clocks, AtMost (s.horizon now) c) : Timed s now
  | call {s : PyGraphStore} {past now : ℕ} (h : Timed s past) (later : past ≤ now) (env : Env)
      (wall : ∀ i, env.wall i ≤ now) (c : Call)
      (timely : ∀ entries, c = .merge entries → s.TimelyPayload now entries) :
      Timed (s.exec env c).2 now

variable {s t : PyGraphStore} {env : Env} {bound bound' now past : ℕ} {es : List Entry}

/-! ### What the calls keep -/

namespace Below

omit [Crates] in
theorem mono (h : s.Below bound) (hle : bound ≤ bound') : s.Below bound' :=
  ⟨h.graph.mono fun _ hc => le_trans hc hle, h.log.mono fun _ _ he c hc => (he c hc).trans hle⟩

omit [Crates] in
theorem congr (h : s.Below bound) (graph : t.graph = s.graph) (log : t.oplog = s.oplog) :
    t.Below bound := ⟨graph ▸ h.graph, log ▸ h.log⟩

/-- The entry that a local write makes carries the ticked clock and nothing else. -/
theorem writtenEntry {op : GraphOp} (hop : op.opTimes = []) (hclock : s.clock.physicalMs ≤ bound)
    (hwall : env.wall 0 ≤ bound) : ∀ c ∈ (s.writtenEntry env op).clocks, AtMost bound c := by
  intro c hc
  rw [Entry.clocks, writtenEntry_payload, hop, List.map_nil, List.mem_singleton] at hc
  rw [hc, writtenEntry_clock, AtMost, physicalMs_tick]
  omega

theorem append (h : s.Below bound) {op : GraphOp} (hop : op.opTimes = [])
    (hclock : s.clock.physicalMs ≤ bound) (hwall : env.wall 0 ≤ bound) :
    (s.append env op).2.Below bound := by
  have hentry : ∀ c ∈ (s.writtenEntry env op).clocks, AtMost bound c :=
    writtenEntry hop hclock hwall
  have hlog : (s.backend.append env.order (env.txn 0) (s.writtenEntry env op)).2.oplog.All
      fun _ e => ∀ c ∈ e.clocks, AtMost bound c := by
    rw [Backend.append_oplog]
    exact h.log.append hentry
  rcases s.append_cases env op with ⟨_, -, hrun⟩ | ⟨-, _, -, hrun⟩ | ⟨-, _, -, hrun⟩ <;> rw [hrun]
  · exact h.congr rfl rfl
  · exact ⟨h.graph, hlog⟩
  · exact ⟨h.graph.apply hentry env.order, hlog⟩

theorem revalidate (h : s.Below bound) : (s.revalidate env).2.Below bound := by
  rw [PyGraphStore.revalidate]
  cases hall : s.oplog.entriesSince none with
  | none => exact h
  | some all =>
    refine ⟨clocksIn_rebuild _ _ fun e he => ?_, h.log⟩
    obtain ⟨x, hget⟩ := stored_of_entriesSince hall he
    exact h.log x e hget

omit [Crates] in
/-- The operations of a checkpoint are recorded at clocks of the graph, or the store's. -/
theorem buildCheckpointOps (h : s.Below bound) (hclock : s.clock.physicalMs ≤ bound) (σ : HashOrder) :
    ∀ oc ∈ s.buildCheckpointOps σ, oc.1.opTimes = [] ∧ oc.2.physicalMs ≤ bound := by
  have hprops : ∀ (id : String) (t : PropertyTable) (last : HybridClock), t.ClocksIn (AtMost bound) →
      AtMost bound last → ∀ oc ∈ propertyOps id t last, oc.1.opTimes = [] ∧ oc.2.physicalMs ≤ bound := by
    intro id t last ht hlast oc hoc
    obtain ⟨kv, -, rfl⟩ := List.mem_map.mp hoc
    refine ⟨GraphOp.opTimes_of_not_checkpoint rfl, ?_⟩
    cases hk : t.clocks[kv.1]? with
    | none => simpa [hk] using hlast
    | some c => simpa [hk] using ht kv.1 c hk
  intro oc hoc
  rw [PyGraphStore.buildCheckpointOps, List.mem_cons, List.mem_append, List.mem_flatMap,
    List.mem_flatMap] at hoc
  obtain rfl | ⟨nd, hnd, hoc⟩ | ⟨ed, hed, hoc⟩ := hoc
  · exact ⟨GraphOp.opTimes_of_not_checkpoint rfl, hclock⟩
  · obtain ⟨⟨id, nd'⟩, hmem, rfl⟩ := List.mem_map.mp (List.mem_of_mem_filter hnd)
    have hclocks := h.graph.nodes id nd' (HashMap.mem_toList.mp ((σ.mem_walk).mp hmem))
    obtain rfl | hoc := List.mem_cons.mp hoc
    · exact ⟨GraphOp.opTimes_of_not_checkpoint rfl, hclocks.lastAdd⟩
    · exact hprops _ _ _ hclocks.table hclocks.last oc hoc
  · obtain ⟨⟨id, ed'⟩, hmem, rfl⟩ := List.mem_map.mp (List.mem_of_mem_filter hed)
    have hclocks := h.graph.edges id ed' (HashMap.mem_toList.mp ((σ.mem_walk).mp hmem))
    obtain rfl | hoc := List.mem_cons.mp hoc
    · exact ⟨GraphOp.opTimes_of_not_checkpoint rfl, hclocks.lastAdd⟩
    · exact hprops _ _ _ hclocks.table hclocks.last oc hoc

theorem checkpointEntry (h : s.Below bound) (hclock : s.clock.physicalMs ≤ bound)
    (hwall : env.wall 0 ≤ bound) : ∀ c ∈ (s.checkpointEntry env).clocks, AtMost bound c := by
  have hops := h.buildCheckpointOps hclock env.order
  intro c hc
  rw [Entry.clocks, PyGraphStore.checkpointEntry, createEntry_clock, createEntry_payload,
    GraphOp.opTimes, List.mem_cons, List.mem_map] at hc
  obtain rfl | ⟨t, ht, rfl⟩ := hc
  · rw [AtMost, physicalMs_tick]
    omega
  · obtain ht | ht := List.mem_append.mp ht
    · obtain ⟨oc, hoc, rfl⟩ := List.mem_map.mp ht
      exact (hops oc hoc).2
    · obtain ⟨op, hop, ht⟩ := GraphOp.mem_opTimesAll.mp ht
      obtain ⟨oc, hoc, rfl⟩ := List.mem_map.mp hop
      rw [(hops oc hoc).1] at ht
      cases ht

theorem compact (h : s.Below bound) (hclock : s.clock.physicalMs ≤ bound)
    (hwall : env.wall 0 ≤ bound) : (s.compact env).2.Below bound := by
  refine compact_rule s env (I := Below bound) ⟨h.graph, ?_⟩ (fun t i e he ht => ⟨ht.graph, ?_⟩)
    fun t ht => ht.revalidate
  · change (Backend.replaceWithCheckpoint _ _ _).2.oplog.All _
    obtain hlog | hlog := Backend.replace_oplog s.backend (env.txn 0) (s.checkpointEntry env) <;>
      rw [hlog]
    · exact h.log
    · rw [replaceWithCheckpoint_eq_new]
      exact All.new (h.checkpointEntry hclock hwall)
  · change (Backend.append _ _ _ _).2.oplog.All _
    rw [Backend.append_oplog]
    refine ht.log.append ?_
    -- what is carried over keeps its clocks
    have hsame : (t.createEntry e.payload [(s.checkpointEntry env).hash] [] e.clock e.author).clocks =
        e.clocks := by
      rw [Entry.clocks, createEntry_clock, createEntry_payload, createEntry_author]
      rfl
    obtain ⟨x, -, hget⟩ := List.mem_filterMap.mp he
    exact hsame ▸ h.log x e hget

/-- **Step.** A call that is not a merge. -/
theorem exec (h : s.Below bound) (hclock : s.clock.physicalMs ≤ bound) (hwall : env.wall 0 ≤ bound)
    {c : Call} (noMerge : c.isMerge = false) : (s.exec env c).2.Below bound := by
  refine exec_rule s env (I := Below bound) h (fun op _ hop => ?_) (fun t nodeTypes ht => ht.congr rfl rfl)
    (fun t ontology ht => ?_) (fun b hlog => h.congr rfl hlog) (fun es hes => ?_)
    (fun _ => h.compact hclock hwall) fun hc => ?_
  · exact h.append (GraphOp.opTimes_of_not_checkpoint hop) hclock hwall
  · have ht' : ({ t with ontology } : PyGraphStore).Below bound := ht.congr rfl rfl
    exact ht'.revalidate
  · rw [hes] at noMerge
    cases noMerge
  · cases c <;> first | exact h.congr rfl rfl | cases hc

theorem foldl_applyMerged (h : s.Below bound) (hes : ∀ e ∈ es, ∀ c ∈ e.clocks, AtMost bound c) :
    (es.foldl (applyMerged env) s).Below bound := by
  induction es generalizing s with
  | nil => exact h
  | cons e es ih =>
    refine ih ?_ fun a ha => hes a (List.mem_cons_of_mem e ha)
    rw [applyMerged_eq]
    exact ⟨h.graph.apply (hes e List.mem_cons_self) env.order, h.log⟩

/-- **Step.** A merge whose admitted entries are within the bound. -/
theorem merge (h : s.Below bound) (hes : ∀ e ∈ es, s.admits e = true → ∀ c ∈ e.clocks, AtMost bound c) :
    (s.mergeEntriesVec env es).2.Below bound := by
  have hlog : (s.backend.merge env.order (env.txn 0) (es.filter s.admits)).2.oplog.All
      fun _ e => ∀ c ∈ e.clocks, AtMost bound c := by
    rw [Backend.merge_oplog]
    refine mergeBatch_all h.log _ fun e he => ?_
    exact hes e (List.mem_of_mem_filter he) (List.of_mem_filter he)
  have hbackend : ({ s with backend := (s.backend.merge env.order (env.txn 0)
      (es.filter s.admits)).2 } : PyGraphStore).Below bound := ⟨h.graph, hlog⟩
  rcases s.mergeEntriesVec_cases env es with ⟨msg, -, hrun⟩ | ⟨-, hrun⟩ | ⟨n, -, -, hrun⟩ |
    ⟨n, all, -, hall, hrun⟩ <;> rw [hrun]
  · exact hbackend
  · exact hbackend
  · exact hbackend
  · -- the graph follows, by a rebuild or entry by entry
    have hint : PyGraphStore.Below bound (integrated { s with backend := (s.backend.merge env.order
        (env.txn 0) (es.filter s.admits)).2 } env all (es.filter s.admits)) := by
      rw [integrated]
      split
      · exact hbackend.revalidate
      · refine hbackend.foldl_applyMerged fun e he => ?_
        obtain ⟨x, hget⟩ := stored_of_entriesSince hall (mem_listedOf.mp he).1
        exact hlog x e hget
    exact hint.congr rfl rfl

end Below

/-! ### The clock -/

omit [Crates] in
/-- Folding clocks goes up to the latest of them. -/
theorem mergeClocks_physicalMs (bound : ℕ) (wall : ℕ → ℕ) (i : ℕ) (clock : HybridClock) (es : List Entry) :
    clock.physicalMs ≤ (mergeClocks wall i clock es).physicalMs ∧
      (clock.physicalMs ≤ bound → (∀ j, wall j ≤ bound) → (∀ e ∈ es, e.clock.physicalMs ≤ bound) →
        (mergeClocks wall i clock es).physicalMs ≤ bound) := by
  induction es generalizing i clock with
  | nil => exact ⟨le_rfl, fun h _ _ => h⟩
  | cons e es ih =>
    obtain ⟨h₁, h₂⟩ := ih (i + 1) (clock.merge e.clock (wall i))
    rw [physicalMs_merge] at h₁ h₂
    rw [mergeClocks]
    refine ⟨by omega, fun hc hw hes => h₂ ?_ hw fun a ha => hes a (List.mem_cons_of_mem e ha)⟩
    have he := hes e List.mem_cons_self
    have hwi := hw i
    omega

/-- A merge never sets the clock back, and within a bound of everything that is listed it
does not go past it. -/
theorem merge_physicalMs (bound : ℕ) (s : PyGraphStore) (env : Env) (es : List Entry) :
    s.clock.physicalMs ≤ (s.mergeEntriesVec env es).2.clock.physicalMs ∧
      (s.clock.physicalMs ≤ bound → (∀ i, env.wall i ≤ bound) →
        (s.mergeEntriesVec env es).2.Below bound →
        (s.mergeEntriesVec env es).2.clock.physicalMs ≤ bound) := by
  rcases s.mergeEntriesVec_cases env es with ⟨msg, -, hrun⟩ | ⟨-, hrun⟩ | ⟨n, -, -, hrun⟩ |
    ⟨n, all, -, hall, hrun⟩
  · exact hrun ▸ ⟨le_rfl, fun h _ _ => h⟩
  · exact hrun ▸ ⟨le_rfl, fun h _ _ => h⟩
  · exact hrun ▸ ⟨le_rfl, fun h _ _ => h⟩
  · obtain ⟨h₁, h₂⟩ := mergeClocks_physicalMs bound env.wall 0 s.clock
      (listedOf all (es.filter s.admits))
    have hlog : (s.mergeEntriesVec env es).2.oplog =
        (s.backend.merge env.order (env.txn 0) (es.filter s.admits)).2.oplog := by
      rw [Backend.merge_oplog]
      exact mergeEntriesVec_log s env es
    have hclock : (s.mergeEntriesVec env es).2.clock =
        mergeClocks env.wall 0 s.clock (listedOf all (es.filter s.admits)) := by rw [hrun]
    rw [hclock]
    refine ⟨h₁, fun hc hw hb => h₂ hc hw fun e he => ?_⟩
    obtain ⟨x, hget⟩ := stored_of_entriesSince hall (mem_listedOf.mp he).1
    exact hb.log x e (hlog ▸ hget) e.clock List.mem_cons_self

/-- No call sets the clock back. -/
theorem physicalMs_le_exec (s : PyGraphStore) (env : Env) (c : Call) :
    s.clock.physicalMs ≤ (s.exec env c).2.clock.physicalMs := by
  cases hc : c.isMerge with
  | true =>
    obtain ⟨es, rfl⟩ : ∃ es, c = .merge es := by
      cases c <;> first | exact ⟨_, rfl⟩ | cases hc
    exact (merge_physicalMs 0 s env es).1
  | false =>
    obtain h | ⟨wall, h⟩ := (exec_paced s env c hc).clock <;> rw [h]
    rw [physicalMs_tick]
    omega

/-! ### Runs -/

/-- What the filter lets through of a timely payload is within the horizon. -/
theorem TimelyPayload.clocks (h : s.TimelyPayload now es) :
    ∀ e ∈ es, s.admits e = true → ∀ c ∈ e.clocks, AtMost (s.horizon now) c := by
  intro e he ha c hc
  obtain ⟨hdef, htimes⟩ := h e he ha
  rw [Entry.clocks, List.mem_cons, List.mem_map] at hc
  obtain rfl | ⟨t, ht, rfl⟩ := hc
  · cases hd : e.payload.isDefineOntology with
    | true => exact hdef hd
    | false =>
      -- the drift filter has looked at this clock
      have hclose : ¬ u64SaturatingAdd s.clock.physicalMs maxClockDrift < e.clock.physicalMs := by
        intro hfar
        simp [admits, hd, hfar] at ha
      rw [u64SaturatingAdd] at hclose
      rw [AtMost, horizon]
      omega
  · exact htimes t ht

/-- **Run.** Along such a run every clock in the graph and in the log is within the
horizon. -/
theorem Timed.within (h : Timed s now) : s.Below (s.horizon now) := by
  induction h with
  | memory env instanceId ontology run =>
    obtain ⟨-, rfl⟩ := new_memory run
    refine ⟨.new ontology, All.new fun c hc => ?_⟩
    obtain rfl : c = (genesis env instanceId ontology).clock := by
      rw [Entry.clocks, genesis, Entry.new, GraphOp.opTimes_of_not_checkpoint rfl] at hc
      exact List.mem_singleton.mp hc
    rw [AtMost, horizon]
    dsimp only
    omega
  | file env instanceId ontology db run found =>
    obtain ⟨store, all, -, hall, rfl⟩ := new_file run
    refine ⟨clocksIn_rebuild _ _ fun e he => ?_, found⟩
    obtain ⟨x, hget⟩ := stored_of_entriesSince hall he
    exact found x e hget
  | fromSnapshot env instanceId snapshot run found =>
    obtain ⟨g, rest, ontology, n, log, all, -, -, -, hall, rfl⟩ := from_snapshot run
    refine ⟨clocksIn_rebuild _ _ fun e he => ?_, found⟩
    obtain ⟨x, hget⟩ := stored_of_entriesSince hall he
    exact found x e hget
  | «open» env db run found =>
    obtain ⟨store, g, rest, ontology, -, hall, -, rfl⟩ := open_file run
    refine ⟨clocksIn_rebuild _ _ fun e he => ?_, found⟩
    obtain ⟨x, hget⟩ := stored_of_entriesSince hall he
    exact found x e hget
  | @call s past now h later env wall c timely ih =>
    have hmono := physicalMs_le_exec s env c
    have hle : s.horizon now ≤ (s.exec env c).2.horizon now := by
      rw [horizon, horizon]
      omega
    have hs : s.Below (s.horizon now) := ih.mono (by rw [horizon, horizon]; omega)
    cases hc : c.isMerge with
    | true =>
      obtain ⟨es, rfl⟩ : ∃ es, c = .merge es := by
        cases c <;> first | exact ⟨_, rfl⟩ | cases hc
      exact (hs.merge (timely es rfl).clocks).mono hle
    | false =>
      have hwall := wall 0
      refine (hs.exec ?_ ?_ hc).mono hle <;> rw [horizon] <;> omega

/-- **The drift is bounded.** In every run that meets the conditions and at every merge of a
timely payload, neither the clock nor the graph gets further ahead of the clock before, the
wall clock and the graph before than the drift. -/
theorem merge_drift_bounded (h : Timed s past) (later : past ≤ now) (env : Env)
    (wall : ∀ i, env.wall i ≤ now) (entries : List Entry) (timely : s.TimelyPayload now entries) :
    s.DriftBounded env now entries := by
  intro latest _ s' bound
  have hle : s.horizon past ≤ s.horizon now := by
    rw [horizon, horizon]
    omega
  have hbound : s.horizon now ≤ bound := by
    rw [horizon]
    omega
  have hbelow : s'.Below (s.horizon now) := (h.within.mono hle).merge timely.clocks
  refine ⟨?_, fun c hc => (hbelow.graph.holds c hc).trans hbound⟩
  refine ((merge_physicalMs _ s env entries).2 ?_ (fun i => ?_) hbelow).trans hbound
  · rw [horizon]
    omega
  · have hi := wall i
    rw [horizon]
    omega

end

open Sample in
/-- A new store and an entry of a peer that is ahead, but not too far. -/
theorem merge_drift_bounded_ahead :
    let s := freshStore "ann" machines
    let e := Entry.new (.removeEdge "x") [(genesis env "ann" machines).hash] [] ⟨"bob", 900000, 0⟩ "bob"
    Timed s 1 ∧ s.DriftBounded env 1 [e] ∧
      (s.mergeEntriesVec env [e]).2.clock.physicalMs = 900000 := by
  intro s e
  have hvalid : machines.validateSelf = .ok () := by decide +kernel
  have hs : Timed s 1 := .memory env "ann" machines (by rw [new, hvalid]; rfl)
  refine ⟨hs, merge_drift_bounded hs (le_refl 1) env (fun _ => le_refl 1) [e] ?_, ?_⟩
  · intro e' he' _
    obtain rfl := List.mem_singleton.mp he'
    refine ⟨fun h => ?_, fun c hc => ?_⟩
    · cases h
    · rw [GraphOp.opTimes_of_not_checkpoint rfl] at hc
      cases hc
  · decide +kernel

open Sample in
/-- A genesis entry carries the clock of a new store as far as it likes, and a checkpoint the
clocks of its graph. -/
theorem hostile_clock_unbounded :
    let s := freshStore "ann" machines
    let root := Entry.new (.defineOntology machines) [] [] ⟨"eve", 10 ^ 15, 0⟩ "eve"
    let checkpoint := Entry.new (.checkpoint [.addNode "m" "machine" none "M" ∅] [(10 ^ 15, 0)] 1 0)
      [] [] ⟨"eve", 1, 0⟩ "eve"
    Reachable s ∧ root.verifyHash ∧ checkpoint.verifyHash ∧ ¬ s.DriftBounded env 1 [root] ∧
      ¬ s.DriftBounded env 1 [checkpoint] := by
  intro s root checkpoint
  have hnone : ∀ c, ¬ s.graph.HoldsClock c := by
    rintro c (⟨id, nd, h, -⟩ | ⟨id, ed, h, -⟩)
    all_goals
      simp only [s, freshStore, MaterializedGraph.new, Std.ExtTreeMap.getElem?_empty] at h
      cases h
  have hclock : s.clock.physicalMs = 1 := by decide +kernel
  have hbound : max (max s.clock.physicalMs 1) 0 + maxClockDrift = 1000001 := by
    rw [hclock]
    rfl
  refine ⟨reachable_freshStore (by decide +kernel), Entry.verifyHash_new .., Entry.verifyHash_new ..,
    fun h => ?_, fun h => ?_⟩
  · have hfar : 1000001 < (s.mergeEntriesVec env [root]).2.clock.physicalMs := by decide +kernel
    have hle := (h 0 fun c hc => absurd hc (hnone c)).1
    omega
  · have hfar : ((s.mergeEntriesVec env [checkpoint]).2.graph.nodes["m"]?.any fun nd =>
        1000001 < nd.lastClock.physicalMs) = true := by decide +kernel
    obtain ⟨nd, hnd, hlt⟩ := (Option.any_eq_true _ _).mp hfar
    have hle := (h 0 fun c hc => absurd hc (hnone c)).2 nd.lastClock
      (.inl ⟨"m", nd, hnd, .inl rfl⟩)
    have hlt := of_decide_eq_true hlt
    omega

end PyGraphStore

end SilkGraph
