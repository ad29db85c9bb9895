import SilkGraph.GraphStore.Basic
import SilkGraph.Store.Reopen

/-!
# Reachable graph stores

A store is made by `new`, `open` or `from_snapshot`, and then goes through calls, of any
kind, with any arguments and in any surroundings, whether they succeed or fail. `Call` lists
them, `exec` runs one, and `Reachable` closes the constructors under them; a persistent
store may be dropped between two calls and its file opened again.

Whatever happens, the log only changes by `LogStep`s (`exec_log`), so what these preserve
holds of every reachable store.
-/

namespace SilkGraph

namespace PyGraphStore

/-- The calls that change a store. -/
inductive Call where
  | addNode (nodeId nodeType label : String) (properties : BTreeMap String Value)
      (subtype : Option String)
  | addEdge (edgeId edgeType sourceId targetId : String) (properties : BTreeMap String Value)
  | updateProperty (entityId key : String) (value : Value)
  | removeNode (nodeId : String)
  | removeEdge (edgeId : String)
  | drain (op : GraphOp)
  | extendOntology (extension : OntologyExtension)
  | merge (entries : List Entry)
  | revalidate
  | compact
  | setFlushMode (mode : FlushMode)
  | flush
  | setSigningKey (key : List UInt8)
  | registerTrustedAuthor (authorId : String) (key : VerifyingKey)
  | setRequireSignatures (enabled : Bool)

/-- Forget what a call returns, but not whether it failed. -/
def done {α : Type} (r : Except PyErr α × PyGraphStore) : Except PyErr Unit × PyGraphStore :=
  (r.1.map fun _ => (), r.2)

@[simp]
theorem done_snd {α : Type} (r : Except PyErr α × PyGraphStore) : (done r).2 = r.2 := rfl

variable [Crates]

/-- Run a call. -/
def exec (self : PyGraphStore) (env : Env) : Call → Except PyErr Unit × PyGraphStore
  | .addNode nodeId nodeType label properties subtype =>
    done (self.addNode env nodeId nodeType label properties subtype)
  | .addEdge edgeId edgeType sourceId targetId properties =>
    done (self.addEdge env edgeId edgeType sourceId targetId properties)
  | .updateProperty entityId key value => done (self.updateProperty env entityId key value)
  | .removeNode nodeId => done (self.removeNode env nodeId)
  | .removeEdge edgeId => done (self.removeEdge env edgeId)
  | .drain op => done (self.drainOp env op)
  | .extendOntology extension => done (self.extendOntology env extension)
  | .merge entries => done (self.mergeEntriesVec env entries)
  | .revalidate => done (self.revalidate env)
  | .compact => done (self.compact env)
  | .setFlushMode mode => (.ok (), self.setFlushMode mode)
  | .flush => done (self.flush env)
  | .setSigningKey key => (.ok (), self.setSigningKey key)
  | .registerTrustedAuthor authorId key => (.ok (), self.registerTrustedAuthor authorId key)
  | .setRequireSignatures enabled => (.ok (), self.setRequireSignatures enabled)

/-- The stores there can be. -/
inductive Reachable : PyGraphStore → Prop where
  | memory {s : PyGraphStore} (env : Env) (instanceId : String) (ontology : Ontology)
      (run : new env instanceId ontology none = .ok s) : Reachable s
  | file {s : PyGraphStore} (env : Env) (instanceId : String) (ontology : Ontology)
      (run : new env instanceId ontology (some Db.empty) = .ok s) : Reachable s
  | fromSnapshot {s : PyGraphStore} (env : Env) (instanceId : String) (snapshot : List Entry)
      (run : fromSnapshot env instanceId snapshot = .ok s) : Reachable s
  | reopen {s s' : PyGraphStore} {store : Store} (h : Reachable s)
      (onFile : s.backend = .persistent store) (env : Env)
      (run : «open» env store.db = .ok s') : Reachable s'
  | reopenNew {s s' : PyGraphStore} {store : Store} (h : Reachable s)
      (onFile : s.backend = .persistent store) (env : Env) (instanceId : String)
      (ontology : Ontology) (run : new env instanceId ontology (some store.db) = .ok s') :
      Reachable s'
  | call {s : PyGraphStore} (h : Reachable s) (env : Env) (c : Call) : Reachable (s.exec env c).2

/-! ### What happens to the log -/

/-- One change of a log: an append or the replacement by a checkpoint. -/
inductive LogStep : OpLog → OpLog → Prop where
  | append (L : OpLog) (e : Entry) : LogStep L (L.append e).2
  | replace (L : OpLog) {c : Entry} (valid : c.verifyHash) (root : c.next = []) :
      LogStep L (L.replaceWithCheckpoint c)

/-- Any number of changes of a log. -/
abbrev LogSteps : OpLog → OpLog → Prop := Relation.ReflTransGen LogStep

theorem mergePass_log (L : OpLog) (es : List Entry) : LogSteps L (mergePass L es).2 := by
  induction es generalizing L with
  | nil => exact .refl
  | cons e es ih =>
    have hstep : LogSteps L (L.append e).2 := .single (.append L e)
    rw [mergePass]
    split <;> rename_i happ <;> rw [happ] at hstep
    · exact hstep.trans (ih _)
    · exact hstep.trans (ih _)
    · exact hstep.trans (ih _)
    · exact hstep

/-- A merge is a sequence of appends. -/
theorem mergeBatch_log (L : OpLog) (es : List Entry) : LogSteps L (mergeBatch L es).2 := by
  rw [mergeBatch]
  generalize es.length + 1 = fuel, [] = inserted
  induction fuel generalizing L es inserted with
  | zero => exact .refl
  | succ fuel ih =>
    cases es with
    | nil => exact .refl
    | cons e es =>
      have hpass := mergePass_log L (e :: es)
      rw [mergeLoop]
      · split <;> rename_i hrun <;> rw [hrun] at hpass
        · exact hpass
        · split
          · exact hpass
          · exact hpass.trans (ih _ _ _)
      · simp

theorem appendAll_log (L : OpLog) (es : List Entry) : LogSteps L (L.appendAll es) := by
  induction es generalizing L with
  | nil => exact .refl
  | cons e es ih => exact .head (.append L e) (ih (L.append e).2)

theorem Store.reconstructLoop_log {byHash : HashMap Hash Entry}
    {childrenOf : HashMap Hash (List Hash)} (fuel : ℕ) {ready : List Hash}
    {pp pp' : HashMap Hash (HashSet Hash)} {L L' : OpLog}
    (hrun : Store.reconstructLoop byHash childrenOf fuel ready pp L = .ok (L', pp')) :
    LogSteps L L' := by
  induction fuel generalizing ready pp L with
  | zero =>
    cases hrun
    exact .refl
  | succ fuel ih =>
    cases ready with
    | nil =>
      cases hrun
      exact .refl
    | cons x ready =>
      rw [Store.reconstructLoop] at hrun
      split at hrun
      · exact ih hrun
      · split at hrun
        · cases hrun
        · rename_i e _ _ _ L₁ happ
          have hstep : LogSteps L (L.append e).2 := .single (.append L e)
          rw [happ] at hstep
          exact hstep.trans (ih hrun)

/-- An opened log starts from one entry and grows by appends. -/
theorem Store.openDb_log {σ : HashOrder} {txn : TxnResult} {db : Db} {genesis : Option Entry}
    {store : Store} (hrun : Store.openDb σ txn db genesis = .ok store) :
    ∃ g, LogSteps (OpLog.new g) store.oplog := by
  by_cases hl : Store.loadEntries db = []
  · unfold Store.openDb at hrun
    rw [hl] at hrun
    cases genesis with
    | none => cases hrun
    | some g =>
      cases txn with
      | error msg => cases hrun
      | ok =>
        cases hrun
        exact ⟨g, .refl⟩
  · rw [Store.openDb_of_rows hl] at hrun
    cases hrec : Store.reconstructOplog σ (Store.loadEntries db) with
    | error err => rw [hrec] at hrun; cases hrun
    | ok L =>
      rw [hrec] at hrun
      cases hrun
      rw [Store.reconstructOplog] at hrec
      split at hrec
      · cases hrec
      · split at hrec
        · cases hrec
        · rename_i g others _
          refine ⟨g, (appendAll_log (OpLog.new g) others).trans ?_⟩
          unfold Store.reconstructFrom at hrec
          dsimp only at hrec
          split at hrec
          · cases hrec
          · rename_i hloop
            split at hrec
            · cases hrec
              exact Store.reconstructLoop_log _ hloop
            · cases hrec

theorem Store.append_oplog (s : Store) (σ : HashOrder) (txn : TxnResult) (e : Entry) :
    (s.append σ txn e).2.oplog = (s.oplog.append e).2 := by
  rw [Store.append_snd, Store.settle]
  split
  · rfl
  · cases s.flushMode
    · cases txn <;> rfl
    · rfl

theorem Store.merge_oplog (s : Store) (σ : HashOrder) (txn : TxnResult) (es : List Entry) :
    (s.merge σ txn es).2.oplog = (mergeBatch s.oplog es).2 := by
  rw [Store.merge_snd, Store.settle]
  split
  · rfl
  · cases s.flushMode
    · cases txn <;> rfl
    · rfl

theorem mergeEntries_snd (L : OpLog) (es : List Entry) :
    (mergeEntries L es).2 = (mergeBatch L es).2 := rfl

theorem Backend.append_oplog (b : Backend) (σ : HashOrder) (txn : TxnResult) (e : Entry) :
    (b.append σ txn e).2.oplog = (b.oplog.append e).2 := by
  cases b with
  | memory oplog => rfl
  | persistent store => exact Store.append_oplog store σ txn e

theorem Backend.append_log (b : Backend) (σ : HashOrder) (txn : TxnResult) (e : Entry) :
    LogSteps b.oplog (b.append σ txn e).2.oplog := by
  rw [Backend.append_oplog]
  exact .single (.append _ _)

theorem Backend.merge_oplog (b : Backend) (σ : HashOrder) (txn : TxnResult) (es : List Entry) :
    (b.merge σ txn es).2.oplog = (mergeBatch b.oplog es).2 := by
  cases b with
  | memory oplog => rfl
  | persistent store => exact Store.merge_oplog store σ txn es

omit [Crates] in
theorem Backend.replace_oplog (b : Backend) (txn : TxnResult) (c : Entry) :
    (b.replaceWithCheckpoint txn c).2.oplog = b.oplog ∨
      (b.replaceWithCheckpoint txn c).2.oplog = b.oplog.replaceWithCheckpoint c := by
  cases b with
  | memory oplog => exact .inr rfl
  | persistent store =>
    cases txn with
    | error msg => exact .inl rfl
    | ok => exact .inr rfl

variable {s : PyGraphStore}

@[simp]
theorem verifyHash_createEntry (s : PyGraphStore) (payload : GraphOp) (next refs : List Hash)
    (clock : HybridClock) (author : String) :
    (s.createEntry payload next refs clock author).verifyHash := by
  rw [createEntry]
  split <;> simp

theorem append_log (s : PyGraphStore) (env : Env) (op : GraphOp) :
    LogSteps s.oplog (s.append env op).2.oplog := by
  rw [append]
  generalize hs : ({ s with clock := s.clock.tick (env.wall 0) } : PyGraphStore) = t
  have ht : t.oplog = s.oplog := by rw [← hs]; rfl
  rw [← ht]
  have hlog := Backend.append_log t.backend env.order (env.txn 0)
    (t.createEntry op (env.order.walk t.oplog.heads.toList) [] t.clock t.instanceId)
  split
  · exact .refl
  · split <;> rename_i hb <;> rw [hb] at hlog <;> exact hlog

theorem revalidate_log (s : PyGraphStore) (env : Env) : (s.revalidate env).2.oplog = s.oplog := by
  rw [revalidate]
  split <;> rfl

theorem foldl_applyMerged_backend (env : Env) (es : List Entry) (s : PyGraphStore) :
    (es.foldl (applyMerged env) s).backend = s.backend := by
  induction es generalizing s with
  | nil => rfl
  | cons e es ih => rw [List.foldl_cons, ih]; rfl

theorem integrate_log (s : PyGraphStore) (env : Env) (es : List Entry) :
    (s.integrate env es).2.oplog = s.oplog := by
  rw [integrate]
  cases hall : s.oplog.entriesSince none with
  | none => rfl
  | some all =>
    change Backend.oplog (ite _ _ _ : PyGraphStore).backend = _
    split
    · exact revalidate_log s env
    · rw [foldl_applyMerged_backend]; rfl

theorem mergeEntriesVec_log (s : PyGraphStore) (env : Env) (es : List Entry) :
    (s.mergeEntriesVec env es).2.oplog = (mergeBatch s.oplog (es.filter s.admits)).2 := by
  have hlog := Backend.merge_oplog s.backend env.order (env.txn 0) (es.filter s.admits)
  rw [mergeEntriesVec]
  split <;> rename_i hb <;> rw [hb] at hlog
  · exact hlog
  · exact hlog
  · rename_i b _
    have hint := integrate_log { s with backend := b } env (es.filter s.admits)
    split <;> rename_i hi <;> rw [hi] at hint <;> exact hint.trans hlog

theorem carryOver_log (s : PyGraphStore) (env : Env) (h : Hash) (i : ℕ) (es : List Entry) :
    LogSteps s.oplog (s.carryOver env h i es).2.oplog := by
  induction es generalizing s i with
  | nil => exact .refl
  | cons e es ih =>
    have hlog := Backend.append_log s.backend env.order (env.txn i)
      (s.createEntry e.payload [h] [] e.clock e.author)
    rw [carryOver]
    split <;> rename_i hb <;> rw [hb] at hlog
    · exact hlog
    · rename_i b
      exact hlog.trans (ih { s with backend := b } (i + 1))

theorem compact_log (s : PyGraphStore) (env : Env) : LogSteps s.oplog (s.compact env).2.oplog := by
  have hvalid : (s.checkpointEntry env).verifyHash := verifyHash_createEntry ..
  have hroot : (s.checkpointEntry env).next = [] := by
    rw [checkpointEntry, createEntry]
    cases s.signingKey <;> rfl
  have hstep : LogSteps s.oplog
      (s.backend.replaceWithCheckpoint (env.txn 0) (s.checkpointEntry env)).2.oplog := by
    rcases Backend.replace_oplog s.backend (env.txn 0) (s.checkpointEntry env) with hlog | hlog <;>
      rw [hlog]
    · exact .refl
    · exact .single (.replace _ hvalid hroot)
  rw [compact]
  split <;> rename_i hb <;> rw [hb] at hstep
  · exact hstep
  · rename_i b
    have hcarry := carryOver_log { s with clock := s.clock.tick (env.wall 0), backend := b } env
      (s.checkpointEntry env).hash 1 (s.carried env)
    split <;> rename_i hc <;> rw [hc] at hcarry
    · exact hstep.trans hcarry
    · rename_i t
      have hre := revalidate_log t env
      split <;> rename_i hr <;> rw [hr] at hre <;> exact hstep.trans (hre ▸ hcarry)

omit [Crates] in
/-- The flush mode is a matter of the backend. -/
theorem setFlushMode_frame (s : PyGraphStore) (mode : FlushMode) :
    ∃ b, s.setFlushMode mode = { s with backend := b } ∧ b.oplog = s.oplog := by
  rw [setFlushMode]
  split
  · exact ⟨s.backend, rfl, rfl⟩
  · rename_i store hb
    refine ⟨.persistent (store.setFlushMode mode), rfl, ?_⟩
    rw [oplog, hb]
    rfl

omit [Crates] in
/-- So is a flush, which leaves the log. -/
theorem flush_frame (s : PyGraphStore) (env : Env) : ∃ b, (s.flush env).2 = { s with backend := b } ∧ b.oplog = s.oplog := by
  rw [flush]
  split
  · exact ⟨s.backend, rfl, rfl⟩
  · rename_i store hb
    have hflush : (store.flush env.order (env.txn 0)).2.oplog = s.oplog := by
      have hs : s.oplog = store.oplog := by rw [oplog, hb]; rfl
      rw [hs, Store.flush]
      split
      · rfl
      · cases env.txn 0 <;> rfl
    split <;> rename_i hf <;> rw [hf] at hflush <;> exact ⟨_, rfl, hflush⟩

/-- Whatever a call does, its log comes about by appends, merges and replacements. -/
theorem exec_log (s : PyGraphStore) (env : Env) (c : Call) :
    LogSteps s.oplog (s.exec env c).2.oplog := by
  cases c with
  | addNode nodeId nodeType label properties subtype =>
    simp only [exec, done_snd, addNode]
    split
    · exact .refl
    · have h := append_log s env (.addNode nodeId nodeType subtype label properties)
      split <;> rename_i ha <;> rw [ha] at h <;> exact h
  | addEdge edgeId edgeType sourceId targetId properties =>
    simp only [exec, done_snd, addEdge]
    repeat' split
    · exact .refl
    · exact .refl
    · exact .refl
    · exact append_log s env _
  | updateProperty entityId key value => exact append_log s env _
  | removeNode nodeId => exact append_log { s with nodeTypes := s.nodeTypes.erase nodeId } env _
  | removeEdge edgeId => exact append_log s env _
  | drain op =>
    simp only [exec, done_snd, drainOp]
    split
    · exact .refl
    · have h := append_log s env op
      split <;> rename_i ha <;> rw [ha] at h <;> exact h
  | extendOntology extension =>
    simp only [exec, done_snd, extendOntology]
    split
    · exact .refl
    · split
      · exact .refl
      · have h := append_log s env (.extendOntology extension)
        split <;> rename_i ha <;> rw [ha] at h
        · exact h
        · rename_i t
          have hre := revalidate_log
            { t with ontology := (t.ontology.mergeExtension extension).2 } env
          split <;> rename_i hr <;> rw [hr] at hre <;> exact hre ▸ h
  | merge entries =>
    simp only [exec, done_snd, mergeEntriesVec_log]
    exact mergeBatch_log _ _
  | revalidate =>
    simp only [exec, done_snd, revalidate_log]
    exact .refl
  | compact => exact compact_log s env
  | setFlushMode mode =>
    obtain ⟨b, hrun, hlog⟩ := s.setFlushMode_frame mode
    rw [exec, hrun, ← hlog]
    exact .refl
  | flush =>
    obtain ⟨b, hrun, hlog⟩ := s.flush_frame env
    rw [exec, done_snd, hrun, ← hlog]
    exact .refl
  | setSigningKey key => exact .refl
  | registerTrustedAuthor authorId key => exact .refl
  | setRequireSignatures enabled => exact .refl

/-! ### Every log holds something -/

theorem LogStep.nonempty {L L' : OpLog} (h : LogStep L L') (hL : L.entries ≠ ∅) :
    L'.entries ≠ ∅ := by
  cases h with
  | append e => exact OpLog.entries_append_ne_empty hL e
  | replace _ _ => exact OpLog.entries_new_ne_empty _

theorem LogSteps.nonempty {L L' : OpLog} (h : LogSteps L L') (hL : L.entries ≠ ∅) :
    L'.entries ≠ ∅ := by
  induction h with
  | refl => exact hL
  | tail _ hstep ih => exact hstep.nonempty ih

/-- The log of a store that has just been made starts from one entry and grows by appends. -/
theorem new_log {env : Env} {instanceId : String} {ontology : Ontology} {path : Option Db}
    {s : PyGraphStore} (run : new env instanceId ontology path = .ok s) :
    ∃ g, LogSteps (OpLog.new g) s.oplog := by
  unfold new at run
  split at run
  · cases run
  · dsimp only at run
    split at run
    · cases run
      exact ⟨_, .refl⟩
    · split at run
      · cases run
      · rename_i hopen
        split at run
        · cases run
        · cases run
          exact Store.openDb_log hopen

theorem open_log {env : Env} {db : Db} {s : PyGraphStore} (run : «open» env db = .ok s) :
    ∃ g, LogSteps (OpLog.new g) s.oplog := by
  unfold «open» at run
  split at run
  · cases run
  · rename_i hopen
    split at run
    · cases run
    · cases run
    · split at run
      · cases run
      · cases run
        exact Store.openDb_log hopen

theorem fromSnapshot_log {env : Env} {instanceId : String} {snapshot : List Entry}
    {s : PyGraphStore} (run : fromSnapshot env instanceId snapshot = .ok s) :
    ∃ g, LogSteps (OpLog.new g) s.oplog := by
  unfold fromSnapshot at run
  split at run
  · cases run
  · rename_i g rest
    split at run
    · cases run
    · split at run
      · cases run
      · rename_i hmerge
        split at run
        · cases run
        · cases run
          have hlog := mergeBatch_log (OpLog.new g) rest
          rw [← mergeEntries_snd, hmerge] at hlog
          exact ⟨g, hlog⟩

/-- **Run.** Every reachable log starts from one entry and goes on by appends and
replacements. -/
theorem Reachable.log {s : PyGraphStore} (hs : Reachable s) :
    ∃ g, LogSteps (OpLog.new g) s.oplog := by
  induction hs with
  | memory env instanceId ontology run => exact new_log run
  | file env instanceId ontology run => exact new_log run
  | fromSnapshot env instanceId snapshot run => exact fromSnapshot_log run
  | reopen _ _ env run _ => exact open_log run
  | reopenNew _ _ env instanceId ontology run _ => exact new_log run
  | call _ env c ih =>
    obtain ⟨g, hg⟩ := ih
    exact ⟨g, hg.trans (exec_log _ env c)⟩

theorem Reachable.nonempty {s : PyGraphStore} (hs : Reachable s) : s.oplog.entries ≠ ∅ := by
  obtain ⟨g, hg⟩ := hs.log
  exact hg.nonempty (OpLog.entries_new_ne_empty g)

end PyGraphStore

namespace Sample

/-- Surroundings for the worked instances: key order, a clock that stands still,
transactions that commit. -/
def env : Env := ⟨.keyOrder, fun _ => 1, fun _ => .ok ()⟩

/-- A new in-memory store. -/
def freshStore (instanceId : String) (ontology : Ontology) : PyGraphStore where
  backend := .memory (OpLog.new (PyGraphStore.genesis env instanceId ontology))
  graph := .new ontology
  nodeTypes := ∅
  instanceId := instanceId
  clock := (PyGraphStore.genesis env instanceId ontology).clock
  ontology := ontology

theorem reachable_freshStore {instanceId : String} {ontology : Ontology}
    (valid : ontology.validateSelf = .ok ()) :
    PyGraphStore.Reachable (freshStore instanceId ontology) := by
  refine .memory env instanceId ontology ?_
  simp only [PyGraphStore.new, valid]
  rfl

end Sample

end SilkGraph
