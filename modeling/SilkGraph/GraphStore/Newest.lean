import SilkGraph.Data.ClockOrder
import SilkGraph.GraphStore.Calls

/-!
# Local writes and the clock

A local write is newer than everything its store holds as long as the store's clock is not
behind its log. Most calls keep it so. Four things do not: `open` takes the clock of the
first entry and leaves the others unread, a merge that fails after it has inserted entries
does not fold their clocks, neither does one whose entries the log cannot list, and a
counter at `u32::MAX` stays where it is when the clock ticks.

`InStep` closes the constructors and the calls under the conditions that rule the first
three out; `HasRoom` is the exact condition for the fourth. A store that has fallen behind
catches up with the first write whose wall-clock reading is past every entry.
-/

namespace SilkGraph

open OpLog HybridClock

/-- The log lists every entry it holds. -/
def OpLog.ListsAll (self : OpLog) : Prop :=
  ∀ all, self.entriesSince none = some all → self.All fun _ e => e ∈ all

/-- The counters of all entries fit their type. -/
def OpLog.CountersFit (self : OpLog) : Prop := self.All fun _ e => e.clock.Fits

/-- Some entry of the log carries the clock. -/
def OpLog.HasClock (self : OpLog) (clock : HybridClock) : Prop :=
  ∃ (h : Hash) (e : Entry), self.entries[h]? = some e ∧ e.clock = clock

/-- A wall-clock reading is past every entry of the log. -/
def OpLog.AllBefore (self : OpLog) (wall : ℕ) : Prop := self.All fun _ e => e.clock.physicalMs < wall

/-- Every entry of the log loses to the given one by `cmp_order`. -/
def OpLog.AllLoseTo (self : OpLog) (new : Entry) : Prop :=
  self.All fun _ e => clockWins new.clock e.clock = true

namespace PyGraphStore

/-- The next tick makes a clock that beats the store's own: time moves on, the counter is not
at its maximum, or no entry with this very time stamp has a smaller or equal author. -/
def HasRoom (self : PyGraphStore) (wall : ℕ) : Prop :=
  self.clock.physicalMs < wall ∨ self.clock.logical < 2 ^ 32 - 1 ∨
    self.oplog.All fun _ e => e.clock.stamp = self.clock.stamp → self.clock.id < e.clock.id

/-- The calls that write an entry of their own. -/
def Call.isWrite : Call → Bool
  | .addNode .. | .addEdge .. | .updateProperty .. | .removeNode _ | .removeEdge _ | .drain _
  | .extendOntology _ => true
  | _ => false

/-- The call is a merge. -/
def Call.isMerge : Call → Bool
  | .merge _ => true
  | _ => false

/-- The clock is not behind the log. -/
structure Stamped (s : PyGraphStore) : Prop where
  fits : s.clock.Fits
  countersFit : s.oplog.CountersFit
  covers : s.oplog.All fun _ e => e.clock.stamp ≤ s.clock.stamp

section

variable [Crates]

/-- Every entry that a merge brings into the log is folded into the clock, or is no later:
the call succeeds and the log it leaves lists the entry. -/
def Folds (self : PyGraphStore) (env : Env) (entries : List Entry) : Prop :=
  (mergeBatch self.oplog (entries.filter self.admits)).2.All fun h e =>
    self.oplog.entries[h]? = some e ∨ e.clock.stamp ≤ self.clock.stamp ∨
      (∃ n, (self.mergeEntriesVec env entries).1 = .ok (n + 1)) ∧
      ∃ all, (mergeBatch self.oplog (entries.filter self.admits)).2.entriesSince none = some all ∧
        e ∈ all

/-- **Runs that keep the clock in step with the log**: the constructors and calls, each under
the condition that it reads the clocks of what it brings in. -/
inductive InStep : PyGraphStore → Prop where
  | memory {s : PyGraphStore} (env : Env) (instanceId : String) (ontology : Ontology)
      (run : new env instanceId ontology none = .ok s) : InStep s
  | file {s : PyGraphStore} (env : Env) (instanceId : String) (ontology : Ontology) (db : Db)
      (run : new env instanceId ontology (some db) = .ok s) (fits : s.oplog.CountersFit)
      (listed : s.oplog.ListsAll) : InStep s
  | fromSnapshot {s : PyGraphStore} (env : Env) (instanceId : String) (snapshot : List Entry)
      (run : fromSnapshot env instanceId snapshot = .ok s) (fits : s.oplog.CountersFit)
      (listed : s.oplog.ListsAll) : InStep s
  /-- No entry of the file is later than the first. -/
  | «open» {s : PyGraphStore} (env : Env) (db : Db) (run : «open» env db = .ok s)
      (fits : s.oplog.CountersFit)
      (first : ∀ genesis rest, s.oplog.entriesSince none = some (genesis :: rest) →
        s.oplog.All fun _ e => e.clock.stamp ≤ genesis.clock.stamp) : InStep s
  | call {s : PyGraphStore} (h : InStep s) (env : Env) (c : Call) (noMerge : c.isMerge = false) :
      InStep (s.exec env c).2
  | merge {s : PyGraphStore} (h : InStep s) (env : Env) (entries : List Entry)
      (fits : ∀ e ∈ entries, e.clock.Fits) (folds : s.Folds env entries) :
      InStep (s.exec env (.merge entries)).2
  /-- From any store, however far behind: the wall clock is past every entry. -/
  | catchUp {s : PyGraphStore} (env : Env) (c : Call) (write : c.isWrite = true)
      (ok : (s.exec env c).1 = .ok ()) (clockFits : s.clock.Fits) (fits : s.oplog.CountersFit)
      (past : s.oplog.AllBefore (env.wall 0)) : InStep (s.exec env c).2

/-! ### What the calls do to clock and log -/

/-- The clock stays or ticks, and what is new in the log has the new clock, or the clock of
an entry that was there (a compaction re-writes quarantined entries). -/
structure Paced (s s' : PyGraphStore) : Prop where
  clock : s'.clock = s.clock ∨ ∃ wall, s'.clock = s.clock.tick wall
  log : s'.oplog.All fun _ e => e.clock = s'.clock ∨ s.oplog.HasClock e.clock

variable {s s' t : PyGraphStore} {env : Env}

omit [Crates] in
theorem Paced.of_eq (clock : s'.clock = s.clock) (log : s'.oplog = s.oplog) : Paced s s' :=
  ⟨.inl clock, fun h e he => .inr ⟨h, e, log ▸ he, rfl⟩⟩

omit [Crates] in
/-- Only the clock and the log matter. -/
theorem Paced.congr (h : Paced s s') (clock : t.clock = s'.clock) (log : t.oplog = s'.oplog) :
    Paced s t := by
  obtain ⟨h₁, h₂⟩ := h
  constructor
  · rw [clock]
    exact h₁
  · rw [log, clock]
    exact h₂

omit [Crates] in
theorem Paced.stamped (h : Paced s s') (hs : s.Stamped) : s'.Stamped := by
  have hle : s.clock.stamp ≤ s'.clock.stamp ∧ s'.clock.Fits := by
    obtain hc | ⟨wall, hc⟩ := h.clock <;> rw [hc]
    · exact ⟨le_refl _, hs.fits⟩
    · exact ⟨stamp_le_tick hs.fits wall, hs.fits.tick wall⟩
  refine ⟨hle.2, h.log.mono fun _ e he => ?_, h.log.mono fun _ e he => ?_⟩
  · obtain he | ⟨h₀, e₀, hin, he⟩ := he
    · rw [he]
      exact hle.2
    · rw [← he]
      exact hs.countersFit h₀ e₀ hin
  · obtain he | ⟨h₀, e₀, hin, he⟩ := he
    · rw [he]
    · rw [← he]
      exact (hs.covers h₀ e₀ hin).trans hle.1

theorem append_paced (s : PyGraphStore) (env : Env) (op : GraphOp) : Paced s (s.append env op).2 := by
  have htick : Paced s (s.ticked env) :=
    ⟨.inr ⟨env.wall 0, rfl⟩, fun h e he => .inr ⟨h, e, he, rfl⟩⟩
  have hlog : ∀ b : Backend,
      b = (s.backend.append env.order (env.txn 0) (s.writtenEntry env op)).2 →
      Paced s { s.ticked env with backend := b } := by
    rintro b rfl
    refine ⟨.inr ⟨env.wall 0, rfl⟩, ?_⟩
    change (Backend.append _ _ _ _).2.oplog.All _
    rw [Backend.append_oplog]
    exact All.append (fun h e he => .inr ⟨h, e, he, rfl⟩) (.inl (writtenEntry_clock s env op))
  rcases s.append_cases env op with ⟨_, -, h⟩ | ⟨-, _, -, h⟩ | ⟨-, _, -, h⟩ <;> rw [h]
  · exact htick
  · exact hlog _ rfl
  · exact (hlog _ rfl).congr rfl rfl

theorem compact_paced (s : PyGraphStore) (env : Env) : Paced s (s.compact env).2 := by
  refine compact_rule s env (I := Paced s) ⟨.inr ⟨env.wall 0, rfl⟩, ?_⟩ (fun t i e he ht => ⟨ht.clock, ?_⟩)
    fun t ht => ht.congr (revalidate_clock t env) (revalidate_log t env)
  · change (Backend.replaceWithCheckpoint _ _ _).2.oplog.All _
    obtain hlog | hlog := Backend.replace_oplog s.backend (env.txn 0) (s.checkpointEntry env) <;>
      rw [hlog]
    · exact fun h e he => .inr ⟨h, e, he, rfl⟩
    · rw [replaceWithCheckpoint_eq_new]
      exact All.new (.inl (createEntry_clock ..))
  · change (Backend.append _ _ _ _).2.oplog.All _
    rw [Backend.append_oplog]
    refine All.append ht.log (.inr ?_)
    -- what is carried over keeps its clock
    obtain ⟨h, -, hget⟩ := List.mem_filterMap.mp he
    rw [createEntry_clock]
    exact ⟨h, e, hget, rfl⟩

/-- **Step.** A call that is not a merge. -/
theorem exec_paced (s : PyGraphStore) (env : Env) (c : Call) (noMerge : c.isMerge = false) :
    Paced s (s.exec env c).2 := by
  have hrefl : Paced s s := .of_eq rfl rfl
  refine exec_rule s env (I := Paced s) hrefl (fun op _ _ => append_paced s env op)
    (fun t nodeTypes ht => ht.congr rfl rfl) (fun t ontology ht => ?_) (fun b hlog => .of_eq rfl hlog)
    (fun es hes => ?_) (fun _ => compact_paced s env) fun hc => ?_
  · exact ht.congr (revalidate_clock _ env) (revalidate_log _ env)
  · rw [hes] at noMerge
    cases noMerge
  · cases c <;> first | exact hrefl.congr rfl rfl | cases hc

/-! ### What the merge and the constructors do to clock and log -/

omit [Crates] in
/-- Folding clocks never goes back and passes every one of them. -/
theorem mergeClocks_spec (wall : ℕ → ℕ) (i : ℕ) (clock : HybridClock) (es : List Entry)
    (hc : clock.Fits) (hes : ∀ e ∈ es, e.clock.Fits) :
    (mergeClocks wall i clock es).Fits ∧ clock.stamp ≤ (mergeClocks wall i clock es).stamp ∧
      ∀ e ∈ es, e.clock.stamp ≤ (mergeClocks wall i clock es).stamp := by
  induction es generalizing i clock with
  | nil => exact ⟨hc, le_refl _, by simp⟩
  | cons e es ih =>
    obtain ⟨h₁, h₂⟩ := stamp_le_merge hc (hes e List.mem_cons_self) (wall i)
    obtain ⟨i₁, i₂, i₃⟩ := ih (i + 1) (clock.merge e.clock (wall i)) (.merge (wall i))
      fun x hx => hes x (List.mem_cons_of_mem _ hx)
    rw [mergeClocks]
    refine ⟨i₁, h₁.trans i₂, fun x hx => ?_⟩
    obtain rfl | hx := List.mem_cons.mp hx
    · exact h₂.trans i₂
    · exact i₃ x hx

/-- **Step.** A merge that folds what it brings in. -/
theorem Stamped.merge (hs : s.Stamped) (env : Env) (es : List Entry)
    (fits : ∀ e ∈ es, e.clock.Fits) (folds : s.Folds env es) :
    (s.mergeEntriesVec env es).2.Stamped := by
  let log := (mergeBatch s.oplog (es.filter s.admits)).2
  have hsrc : log.All fun h e => s.oplog.entries[h]? = some e ∨ e ∈ es ∧
      e.hash ∈ (es.filter s.admits).map Entry.hash :=
    mergeBatch_all (fun h e he => .inl he) _ fun e he =>
      .inr ⟨List.mem_of_mem_filter he, List.mem_map_of_mem he⟩
  have hfits : log.CountersFit := hsrc.mono fun h e he =>
    he.elim (hs.countersFit h e) fun he => fits e he.1
  -- only the listed candidates can be later than the clock before
  have hkeep : (∀ n, (s.mergeEntriesVec env es).1 ≠ .ok (n + 1)) → log.All fun h e =>
      s.oplog.entries[h]? = some e ∨ e.clock.stamp ≤ s.clock.stamp := fun hno =>
    folds.mono fun h e he => he.imp_right fun he => he.resolve_right fun ⟨⟨n, hn⟩, _⟩ => hno n hn
  have hclock : ∃ c : HybridClock, (s.mergeEntriesVec env es).2.clock = c ∧ c.Fits ∧
      s.clock.stamp ≤ c.stamp ∧ log.All fun h e => s.oplog.entries[h]? = some e ∨
        e.clock.stamp ≤ c.stamp := by
    rcases s.mergeEntriesVec_cases env es with ⟨msg, -, hrun⟩ | ⟨-, hrun⟩ | ⟨n, -, -, hrun⟩ |
      ⟨n, all, -, hall, hrun⟩
    · exact ⟨s.clock, by rw [hrun], hs.fits, le_refl _, hkeep fun n => by simp [hrun]⟩
    · exact ⟨s.clock, by rw [hrun], hs.fits, le_refl _, hkeep fun n => by simp [hrun]⟩
    · exact ⟨s.clock, by rw [hrun], hs.fits, le_refl _, hkeep fun n => by simp [hrun]⟩
    · rw [Backend.merge_oplog] at hall
      have hin : ∀ e ∈ listedOf all (es.filter s.admits), e.clock.Fits := fun e he => by
        obtain ⟨h, hget⟩ := stored_of_entriesSince hall (mem_listedOf.mp he).1
        exact hfits h e hget
      obtain ⟨h₁, h₂, h₃⟩ := mergeClocks_spec env.wall 0 s.clock _ hs.fits hin
      refine ⟨_, by rw [hrun], h₁, h₂, fun h e he => ?_⟩
      obtain hold | hle | ⟨-, all', hall', hlist⟩ := folds h e he
      · exact .inl hold
      · exact .inr (hle.trans h₂)
      · obtain rfl := Option.some.inj (hall.symm.trans hall')
        refine (hsrc h e he).imp_right fun hes => ?_
        exact h₃ e (mem_listedOf.mpr ⟨hlist, hes.2⟩)
  obtain ⟨c, rfl, h₁, h₂, h₃⟩ := hclock
  have hlog : (s.mergeEntriesVec env es).2.oplog = log := mergeEntriesVec_log s env es
  refine ⟨h₁, hlog ▸ hfits, hlog ▸ h₃.mono fun h e he => ?_⟩
  exact he.elim (fun he => (hs.covers h e he).trans h₂) id

omit [Crates] in
theorem le_maxOf {l : List ℕ} {n : ℕ} (hn : n ∈ l) : n ≤ maxOf l := by
  have hfold : ∀ (l : List ℕ) (m : ℕ), m ≤ l.foldl max m ∧ ∀ n ∈ l, n ≤ l.foldl max m := by
    intro l
    induction l with
    | nil => simp
    | cons a l ih =>
      intro m
      obtain ⟨h₁, h₂⟩ := ih (max m a)
      refine ⟨by rw [List.foldl_cons]; omega, fun n hn => ?_⟩
      rw [List.foldl_cons]
      obtain rfl | hn := List.mem_cons.mp hn
      · omega
      · exact h₂ n hn
  exact (hfold l 0).2 n hn

omit [Crates] in
theorem maxOf_lt {l : List ℕ} {b : ℕ} (hb : 0 < b) (hl : ∀ n ∈ l, n < b) : maxOf l < b := by
  rw [maxOf]
  generalize 0 = m at hb
  induction l generalizing m with
  | nil => exact hb
  | cons a l ih =>
    have ha := hl a List.mem_cons_self
    exact ih (fun n hn => hl n (List.mem_cons_of_mem _ hn)) (max m a) (by omega)

theorem genesis_fits (env : Env) (instanceId : String) (ontology : Ontology) :
    (genesis env instanceId ontology).clock.Fits := by
  refine Fits.tick ?_ (env.wall 1)
  exact Nat.two_pow_pos 32

/-- A store made by `new` over a file, or from a snapshot, has read the clocks of all entries
its log lists. -/
theorem Stamped.new_file {instanceId : String} {ontology : Ontology} {db : Db}
    (run : new env instanceId ontology (some db) = .ok s) (fits : s.oplog.CountersFit)
    (listed : s.oplog.ListsAll) : s.Stamped := by
  obtain ⟨store, all, -, hall, rfl⟩ := PyGraphStore.new_file run
  have hin : ∀ e ∈ all, e.clock.Fits := fun e he => by
    obtain ⟨h, hget⟩ := stored_of_entriesSince hall he
    exact fits h e hget
  obtain ⟨h₁, -, h₃⟩ := mergeClocks_spec env.wall 2 _ all (genesis_fits env instanceId ontology) hin
  exact ⟨h₁, fits, fun h e he => h₃ e (listed all hall h e he)⟩

theorem Stamped.fromSnapshot {instanceId : String} {snapshot : List Entry}
    (run : fromSnapshot env instanceId snapshot = .ok s) (fits : s.oplog.CountersFit)
    (listed : s.oplog.ListsAll) : s.Stamped := by
  obtain ⟨g, rest, ontology, n, log, all, -, -, -, hall, rfl⟩ := from_snapshot run
  have hin : ∀ e ∈ all, e.clock.Fits := fun e he => by
    obtain ⟨h, hget⟩ := stored_of_entriesSince hall he
    exact fits h e hget
  refine ⟨?_, fits, fun h e he => ?_⟩
  · refine maxOf_lt (Nat.two_pow_pos 32) fun n hn => ?_
    obtain ⟨e, he, rfl⟩ := List.mem_map.mp hn
    exact hin e (List.mem_of_mem_filter he)
  · have hmem := listed all hall h e he
    have hp : e.clock.physicalMs ≤ maxOf (all.map fun e => e.clock.physicalMs) :=
      le_maxOf (List.mem_map_of_mem hmem)
    refine stamp_le_iff.mpr ?_
    obtain hp | hp := hp.lt_or_eq
    · exact .inl hp
    · refine .inr ⟨hp, le_maxOf (List.mem_map.mpr ⟨e, List.mem_filter.mpr ⟨hmem, ?_⟩, rfl⟩)⟩
      exact decide_eq_true hp

theorem Stamped.open_file {db : Db} (run : «open» env db = .ok s) (fits : s.oplog.CountersFit)
    (first : ∀ genesis rest, s.oplog.entriesSince none = some (genesis :: rest) →
      s.oplog.All fun _ e => e.clock.stamp ≤ genesis.clock.stamp) : s.Stamped := by
  obtain ⟨store, g, rest, ontology, -, hall, -, rfl⟩ := PyGraphStore.open_file run
  obtain ⟨h, hget⟩ := stored_of_entriesSince hall List.mem_cons_self
  exact ⟨fits h g hget, fits, first g rest hall⟩

/-- A local write that returns has ticked the clock. -/
theorem exec_clock_of_write {c : Call} (write : c.isWrite = true) (ok : (s.exec env c).1 = .ok ()) :
    (s.exec env c).2.clock = s.clock.tick (env.wall 0) := by
  cases c with
  | addNode nodeId nodeType label properties subtype =>
    have h := append_clock s env (.addNode nodeId nodeType subtype label properties)
    rw [exec, done] at ok ⊢
    rcases s.addNode_cases env nodeId nodeType label properties subtype with
      ⟨_, -, hrun⟩ | ⟨-, ⟨_, -, hrun⟩ | ⟨_, -, hrun⟩⟩ <;> rw [hrun] at ok ⊢
    · cases ok
    · cases ok
    · exact h
  | addEdge edgeId edgeType sourceId targetId properties =>
    rw [exec, done] at ok ⊢
    rcases s.addEdge_cases env edgeId edgeType sourceId targetId properties with
      ⟨_, hrun⟩ | ⟨_, _, -, -, -, hrun⟩ <;> rw [hrun] at ok ⊢
    · cases ok
    · exact append_clock s env _
  | updateProperty entityId key value => exact append_clock s env _
  | removeNode nodeId => exact append_clock { s with nodeTypes := s.nodeTypes.erase nodeId } env _
  | removeEdge edgeId => exact append_clock s env _
  | drain op =>
    have h := append_clock s env op
    rw [exec, done] at ok ⊢
    rcases s.drainOp_cases env op with ⟨_, hrun⟩ | ⟨-, ⟨_, -, hrun⟩ | ⟨_, -, hrun⟩⟩ <;>
      rw [hrun] at ok ⊢
    · cases ok
    · cases ok
    · exact h
  | extendOntology extension =>
    have h := append_clock s env (.extendOntology extension)
    rw [exec, done] at ok ⊢
    rcases s.extendOntology_cases env extension with
      ⟨_, hrun⟩ | ⟨-, -, ⟨_, -, hrun⟩ | ⟨_, -, hrun, -⟩⟩
    · rw [hrun] at ok
      cases ok
    · rw [hrun] at ok
      cases ok
    · rw [hrun]
      exact (revalidate_clock _ env).trans h
  | _ => cases write

/-- **Run.** The clock of a store in step is not behind its log. -/
theorem InStep.stamped (hs : InStep s) : s.Stamped := by
  induction hs with
  | memory env instanceId ontology run =>
    obtain ⟨-, rfl⟩ := new_memory run
    have hfits := genesis_fits env instanceId ontology
    exact ⟨hfits, All.new hfits, All.new (le_refl _)⟩
  | file env instanceId ontology db run fits listed => exact .new_file run fits listed
  | fromSnapshot env instanceId snapshot run fits listed => exact .fromSnapshot run fits listed
  | «open» env db run fits first => exact .open_file run fits first
  | call _ env c noMerge ih => exact (exec_paced _ env c noMerge).stamped ih
  | merge _ env entries fits folds ih => exact ih.merge env entries fits folds
  | @catchUp s env c write ok clockFits fits past =>
    have noMerge : c.isMerge = false := by cases c <;> first | rfl | cases write
    have hpaced := exec_paced s env c noMerge
    have hclock := exec_clock_of_write write ok
    -- the reading is past every old entry, and the new clock is not before the reading
    have hwall : env.wall 0 ≤ (s.exec env c).2.clock.physicalMs := by
      rw [hclock, HybridClock.tick]
      split
      · exact le_refl _
      · dsimp only
        omega
    refine ⟨by rw [hclock]; exact clockFits.tick _, hpaced.log.mono fun _ e he => ?_,
      hpaced.log.mono fun _ e he => ?_⟩
    · obtain he | ⟨h₀, e₀, hin, he⟩ := he
      · rw [he, hclock]
        exact clockFits.tick _
      · rw [← he]
        exact fits h₀ e₀ hin
    · obtain he | ⟨h₀, e₀, hin, he⟩ := he
      · rw [he]
      · rw [← he]
        have hbefore := past h₀ e₀ hin
        exact stamp_le_iff.mpr (.inl (by omega))

/-- **A local write is the newest.** For every store reached by a run that keeps its clock in
step, every reading of the wall clock and every operation: the entry that `append` makes
beats every entry of the log exactly if the clock has room. In any store at all it does if
the reading is past every entry. -/
theorem local_write_newest (s : PyGraphStore) (env : Env) (op : GraphOp) :
    (InStep s → (s.oplog.AllLoseTo (s.writtenEntry env op) ↔ s.HasRoom (env.wall 0))) ∧
      (s.oplog.AllBefore (env.wall 0) → s.oplog.AllLoseTo (s.writtenEntry env op)) := by
  simp only [AllLoseTo, clockWins_iff, writtenEntry_clock]
  constructor
  · intro hs
    obtain ⟨hfits, -, hcovers⟩ := hs.stamped
    unfold Fits at hfits
    unfold HasRoom
    constructor
    · -- without room the clock stands still, so only the author can decide
      intro hall
      by_contra hno
      push Not at hno
      obtain ⟨hwall, hmax, hauthor⟩ := hno
      refine hauthor fun h e he hstamp => ?_
      have hstill : s.clock.tick (env.wall 0) = s.clock := by
        have hsat : saturatingSucc s.clock.logical = s.clock.logical := by
          unfold saturatingSucc
          omega
        rw [HybridClock.tick, if_neg (by omega), hsat]
      have hlt := hall h e he
      rw [hstill, lt_iff] at hlt
      obtain ⟨hp, hl⟩ := Prod.mk.inj (toLex_inj.mp hstamp)
      obtain hlt | ⟨-, hlt | ⟨-, hlt⟩⟩ := hlt
      · omega
      · omega
      · exact hlt
    · intro hroom h e he
      have hle := stamp_le_iff.mp (hcovers h e he)
      obtain hroom | hroom | hauthor := hroom
      · refine lt_of_stamp_lt (stamp_lt_iff.mpr (.inl ?_))
        rw [HybridClock.tick, if_pos hroom]
        dsimp only
        omega
      · refine lt_of_stamp_lt (stamp_lt_iff.mpr ?_)
        rw [HybridClock.tick]
        split
        · dsimp only
          omega
        · have hsat : saturatingSucc s.clock.logical = s.clock.logical + 1 := by
            unfold saturatingSucc
            omega
          dsimp only
          omega
      · have htick := stamp_le_tick (c := s.clock) hfits (env.wall 0)
        obtain hlt | heq := (hcovers h e he).lt_or_eq
        · exact lt_of_stamp_lt (hlt.trans_le htick)
        · obtain hlt | htick := htick.lt_or_eq
          · exact lt_of_stamp_lt (heq ▸ hlt)
          · -- the very same stamp: the smaller author wins
            obtain ⟨hp, hl⟩ := Prod.mk.inj (toLex_inj.mp (heq.trans htick))
            refine (lt_iff _ _).mpr (.inr ⟨hp, .inr ⟨hl, ?_⟩⟩)
            rw [tick_id]
            exact hauthor h e he heq
  · intro hpast h e he
    have hbefore := hpast h e he
    refine lt_of_stamp_lt (stamp_lt_iff.mpr (.inl ?_))
    rw [HybridClock.tick]
    split <;> dsimp only <;> omega

end

open Sample in
/-- A new store that has written once: the next write is newer than both entries. -/
theorem local_write_newest_fresh :
    let s := ((freshStore "ann" ⟨∅, ∅⟩).exec env (.removeEdge "x")).2
    s.oplog.AllLoseTo (s.writtenEntry env (.removeEdge "y")) := by
  intro s
  have hs : InStep s := by
    refine .call (.memory env "ann" ⟨∅, ∅⟩ ?_) env (.removeEdge "x") rfl
    rfl
  refine ((local_write_newest s env (.removeEdge "y")).1 hs).mpr (.inr (.inl ?_))
  decide +kernel

open Sample in
/-- A store that has written once and is reopened starts again from the clock of its genesis:
with the wall clock standing still, its second write repeats the clock of the first. -/
theorem reopened_store_repeats_clock :
    let reopened := do
      let s ← new env "ann" ⟨∅, ∅⟩ (some Db.empty)
      match (s.exec env (.removeEdge "x")).2.backend with
      | .persistent store => «open» env store.db
      | .memory _ => .error .panic
    ∃ s, reopened = .ok s ∧ Reachable s ∧
      let t := (s.exec env (.removeEdge "y")).2
      (t.oplog.entries.toList.any fun kv => kv.2.author == t.instanceId &&
        kv.2.clock == (t.writtenEntry env (.removeEdge "z")).clock) ∧
      ¬ t.oplog.AllLoseTo (t.writtenEntry env (.removeEdge "z")) := by
  intro reopened
  have hrun : (match reopened with
      | .ok s =>
        let t := (s.exec env (.removeEdge "y")).2
        t.oplog.entries.toList.any fun kv => kv.2.author == t.instanceId &&
          kv.2.clock == (t.writtenEntry env (.removeEdge "z")).clock
      | .error _ => false) = true := by decide +kernel
  have hreach : ∀ s, reopened = .ok s → Reachable s := by
    intro s hs
    simp only [reopened, bind, Except.bind] at hs
    split at hs
    · cases hs
    · rename_i s₀ hnew
      split at hs
      · rename_i store hb
        exact .reopen (.call (.file env "ann" ⟨∅, ∅⟩ hnew) env (.removeEdge "x")) hb env hs
      · cases hs
  cases hs : reopened with
  | error e => rw [hs] at hrun; cases hrun
  | ok s =>
    rw [hs] at hrun
    refine ⟨s, rfl, hreach s hs, hrun, fun hall => ?_⟩
    obtain ⟨⟨h, e⟩, hmem, hsame⟩ := List.any_eq_true.mp hrun
    have hwins := clockWins_iff.mp (hall h e (HashMap.mem_toList.mp hmem))
    rw [Bool.and_eq_true, beq_iff_eq, beq_iff_eq] at hsame
    exact absurd hsame.2 hwins.ne

end PyGraphStore

end SilkGraph
