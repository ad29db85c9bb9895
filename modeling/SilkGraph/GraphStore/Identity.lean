import SilkGraph.Graph.Schema
import SilkGraph.GraphStore.Calls
import SilkGraph.OpLog.Order
import SilkGraph.Store.Durability

/-!
# Identity and schema of a reopened store

`open` takes author and base ontology from the first entry of the listing, which is the
parentless entry that sorts first by time and hash (`entriesSince_head`): the store's own
genesis, unless a peer's genesis is earlier. `reopens_as_created_iff` says that this is all
that matters, in every run whose merges go through as a whole. The ontology in force comes
back because the listing keeps its order as the log grows (`entriesSince_stable`).
-/

namespace SilkGraph

open OpLog MaterializedGraph

section

variable [Crates] {L A B : OpLog} {e : Entry} {new batch : List Entry} {σ : HashOrder}

/-- The links of a batch can be listed: no parent twice, every reference held or carried. -/
structure WellLinked (L : OpLog) (batch : List Entry) : Prop where
  nextNodup : ∀ e ∈ batch, e.next.Nodup
  refsStored : ∀ e ∈ batch, ∀ r ∈ e.refs, r ∈ L.entries ∨ r ∈ batch.map Entry.hash

/-! ### Growing logs and the ontology in force -/

theorem Inserts.within (hi : Inserts A new B) : Within A B := fun _ _ => hi.grows

theorem Inserts.listable (hi : Inserts A new B) (hA : A.Listable)
    (hnext : ∀ e ∈ new, e.next.Nodup) (hrefs : ∀ e ∈ new, ∀ r ∈ e.refs, r ∈ B.entries) :
    B.Listable := by
  refine ⟨hi.wellFormed hA.wellFormed, fun h e he r hr => ?_, fun h e he => ?_⟩
  · obtain he | ⟨he, -⟩ := hi.source he
    · exact hi.mem_mono (hA.refsStored h e he r hr)
    · exact hrefs e he r hr
  · obtain he | ⟨he, -⟩ := hi.source he
    · exact hA.nextNodup h e he
    · exact hnext e he

/-- The ontology is the one the listed log leads to. -/
def InForce (base : Ontology) (L : OpLog) (ontology : Ontology) : Prop :=
  ∀ all, L.entriesSince none = some all → ontology = effectiveOntology base all

/-- New entries without schema do not change the ontology in force, wherever they are
listed. -/
theorem InForce.grow {base ontology : Ontology} (h : InForce base A ontology)
    (hA : A.Listable) (hB : B.Listable) (hsub : Within A B)
    (hplain : B.All fun h e => A.entries[h]? = some e ∨ e.isSchema = false) :
    InForce base B ontology := by
  intro esB hesB
  obtain ⟨esA, hesA, -⟩ := entriesSince_none_spec hA.wellFormed hA.nextNodup hA.refsStored
  have hgetB := (entriesSince_eq_some hB.wellFormed hesB).2
  have hold : ∀ e ∈ esB.filter Entry.isSchema, A.entries.contains e.hash = true := by
    intro e he
    obtain ⟨he, hschema⟩ := List.mem_filter.mp he
    obtain hin | hno := hplain _ e (hgetB e he)
    · exact Std.ExtTreeMap.contains_iff_mem.mpr (HashMap.mem_iff_getElem?.mpr ⟨e, hin⟩)
    · rw [hschema] at hno
      cases hno
  calc ontology
      = effectiveOntology base (esA.filter Entry.isSchema) := by
        rw [effectiveOntology_filter, h esA hesA]
    _ = effectiveOntology base ((esB.filter Entry.isSchema).filter
          fun e => A.entries.contains e.hash) := by
        rw [← entriesSince_stable hsub hA hB hesA hesB, List.filter_filter, List.filter_filter]
        simp only [Bool.and_comm]
    _ = effectiveOntology base esB := by
        rw [List.filter_eq_self.mpr hold, effectiveOntology_filter]

/-! ### The file -/

omit [Crates] in
/-- The store behind a backend that is on a file. -/
def Backend.store : Backend → Option Store
  | memory _ => none
  | persistent store => some store

/-- A store that writes everything through, whose log can be listed and holds no parentless
checkpoint. -/
structure Store.FileKept (st : Store) : Prop where
  durable : st.DurableInv
  immediate : st.flushMode = .immediate
  drained : st.pending = []
  noRootCheckpoint : st.oplog.All fun _ e => ¬ e.isRootCheckpoint
  listable : st.oplog.Listable

variable {st : Store}

/-- Recording insertions that bring no parentless checkpoint keeps the file. -/
theorem Store.FileKept.settle (hs : st.FileKept) (σ : HashOrder) (hi : Inserts st.oplog new L)
    (hnew : ∀ e ∈ new, ¬ e.isRootCheckpoint ∧ e.next.Nodup ∧ ∀ r ∈ e.refs, r ∈ L.entries) :
    (st.settle σ (.ok ()) L new).FileKept ∧ (st.settle σ (.ok ()) L new).oplog = L := by
  have hdisk : ∀ p ∈ st.oplog.entries, p ∈ st.db.entries := fun p hp => by
    obtain ⟨e, he⟩ := HashMap.mem_iff_getElem?.mp hp
    obtain he | ⟨he, -⟩ := (hs.durable.covers p e).mp he
    · exact HashMap.mem_iff_getElem?.mpr ⟨e, he⟩
    · rw [hs.drained] at he
      cases he
  have hlog : (st.settle σ (.ok ()) L new).oplog = L := by
    rw [Store.settle, hs.immediate]
    split <;> rfl
  refine ⟨⟨hs.durable.settle σ hi (fun e he => (hnew e he).1)
    ⟨fun _ e _ _ p _ => hdisk p, fun e _ _ _ h c hc hroot =>
      absurd hroot (hs.noRootCheckpoint h c hc)⟩, ?_, ?_, ?_, ?_⟩, hlog⟩
  · rw [Store.settle, hs.immediate]
    split <;> rfl
  · rw [Store.settle, hs.immediate]
    split <;> exact hs.drained
  · rw [hlog]
    intro h e he
    obtain he | ⟨he, -⟩ := hi.source he
    · exact hs.noRootCheckpoint h e he
    · exact (hnew e he).1
  · rw [hlog]
    exact hi.listable hs.listable (fun e he => (hnew e he).2.1) fun e he => (hnew e he).2.2

/-- An append of an entry without references inserts it or nothing. -/
theorem Store.FileKept.append (hs : st.FileKept) (σ : HashOrder) (hroot : ¬ e.isRootCheckpoint)
    (hnext : e.next.Nodup) (hrefs : e.refs = []) : (st.append σ (.ok ()) e).2.FileKept ∧
      ∃ new, (∀ x ∈ new, x = e) ∧ Inserts st.oplog new (st.append σ (.ok ()) e).2.oplog := by
  have hone : ∀ x ∈ [e], ¬ x.isRootCheckpoint ∧ x.next.Nodup ∧
      ∀ r ∈ x.refs, r ∈ (st.oplog.insertEntry e).entries := fun x hx => by
    obtain rfl := List.mem_singleton.mp hx
    exact ⟨hroot, hnext, by simp [hrefs]⟩
  have hsame := hs.settle σ (.nil _) (by simp)
  rw [Store.append_snd]
  rcases OpLog.append_cases hs.listable.wellFormed.nonempty e with ⟨-, happ⟩ | ⟨-, -, happ⟩ |
    ⟨-, -, hc, -⟩ | ⟨-, -, -, p, -, -, happ⟩ | ⟨hv, hd, -, hp, happ⟩
  · rw [happ]
    exact ⟨hsame.1, [], by simp, hsame.2 ▸ .nil _⟩
  · rw [happ]
    exact ⟨hsame.1, [], by simp, hsame.2 ▸ .nil _⟩
  · exact absurd hc hroot
  · rw [happ]
    exact ⟨hsame.1, [], by simp, hsame.2 ▸ .nil _⟩
  · rw [happ]
    obtain ⟨h₁, h₂⟩ := hs.settle σ (.single hv hd hp) hone
    refine ⟨h₁, [e], by simp, ?_⟩
    rw [show (st.settle σ (.ok ()) (st.oplog.insertEntry e) (Store.appended e (.ok true))).oplog =
      st.oplog.insertEntry e from h₂]
    exact .single hv hd hp

/-- A merge that goes through inserts entries of the batch; one that inserts nothing leaves
everything. -/
theorem Store.FileKept.merge (hs : st.FileKept) (batch : List Entry) (σ : HashOrder)
    (hok : InsertsNothing st.oplog batch ∨ GoesThrough st.oplog batch ∧ WellLinked st.oplog batch) :
    (st.merge σ (.ok ()) batch).2.FileKept ∧
      ∃ new, new ⊆ batch ∧ Inserts st.oplog new (st.merge σ (.ok ()) batch).2.oplog ∧
        ((mergeBatch st.oplog batch).1 = .ok new ∨ new = []) := by
  have hne := hs.listable.wellFormed.nonempty
  have hsame := hs.settle σ (.nil _) (by simp)
  rw [Store.merge_snd]
  obtain hnothing | ⟨hthrough, hlinks⟩ := hok
  · obtain ⟨hlog, hnew⟩ := mergeBatch_insertsNothing hne hnothing
    have hmerged : Store.merged (mergeBatch st.oplog batch).1 = [] := by
      cases hres : (mergeBatch st.oplog batch).1 with
      | error err => rfl
      | ok new => exact hnew new hres
    rw [hlog, hmerged]
    exact ⟨hsame.1, [], by simp, hsame.2 ▸ .nil _, .inr rfl⟩
  · obtain ⟨new, hres⟩ := (mergeBatch_ok_iff hne hthrough.1).mpr hthrough.2
    obtain ⟨hi, hsub, hheld⟩ := mergeBatch_ok hne hthrough.1 hres
    rw [hres]
    obtain ⟨h₁, h₂⟩ := hs.settle σ hi fun e he => by
      refine ⟨fun hroot => ?_, hlinks.nextNodup e (hsub he), fun r hr => ?_⟩
      · exact hi.fresh.1 e he (hthrough.1 e (hsub he) (hi.valid e he) hroot)
      · obtain hr | hr := hlinks.refsStored e (hsub he) r hr
        · exact hi.mem_mono hr
        · obtain ⟨x, hx, rfl⟩ := List.mem_map.mp hr
          exact (hheld x hx).2
    refine ⟨h₁, new, hsub, ?_, .inl rfl⟩
    rw [show (st.settle σ (.ok ()) (mergeBatch st.oplog batch).2 (Store.merged (.ok new))).oplog =
      (mergeBatch st.oplog batch).2 from h₂]
    exact hi

end

namespace PyGraphStore

/-- The calls of a run: all but a merge, a compaction and a change of the flush mode. -/
def Call.isPlain : Call → Bool
  | .merge _ | .compact | .setFlushMode _ => false
  | _ => true

section

variable [Crates] {s : PyGraphStore} {env : Env} {id : String} {ontology : Ontology}

/-- The condition on a merge: what it admits goes through as a whole (so no checkpoint replaces
the log) and can be listed, or nothing is inserted. -/
def MergeKeeps (self : PyGraphStore) (entries : List Entry) : Prop :=
  InsertsNothing self.oplog (entries.filter self.admits) ∨
    GoesThrough self.oplog (entries.filter self.admits) ∧
      WellLinked self.oplog (entries.filter self.admits)

/-- **Runs on a file**: a store created over an empty file, and calls whose transactions
commit and whose merges meet their condition. -/
inductive KeptOnFile (id : String) (ontology : Ontology) : PyGraphStore → Prop where
  | create {s : PyGraphStore} (env : Env) (run : new env id ontology (some Db.empty) = .ok s) :
      KeptOnFile id ontology s
  | call {s : PyGraphStore} (h : KeptOnFile id ontology s) (env : Env)
      (commits : ∀ i, env.txn i = .ok ()) (c : Call) (plain : c.isPlain = true) :
      KeptOnFile id ontology (s.exec env c).2
  | merge {s : PyGraphStore} (h : KeptOnFile id ontology s) (env : Env)
      (commits : ∀ i, env.txn i = .ok ()) (entries : List Entry) (keeps : s.MergeKeeps entries) :
      KeptOnFile id ontology (s.exec env (.merge entries)).2

/-- The invariant of such a run, but for the ontology in force. -/
structure Filed (base : Ontology) (s : PyGraphStore) : Prop where
  file : ∃ st, s.backend = .persistent st ∧ st.FileKept
  base : s.graph.baseOntology = base

/-- What one call does to such a store: it stays one, and its log gains entries with a
payload of the given kind. -/
structure FiledStep (base : Ontology) (kind : GraphOp → Prop) (s t : PyGraphStore) : Prop where
  filed : Filed base t
  ontology : t.ontology = s.ontology
  within : Within s.oplog t.oplog
  payloads : t.oplog.All fun h e => s.oplog.entries[h]? = some e ∨ kind e.payload

theorem Filed.listable (hs : Filed ontology s) : s.oplog.Listable := by
  obtain ⟨st, hb, hst⟩ := hs.file
  rw [oplog, hb]
  exact hst.listable

/-- A store over what an insertion leaves, with the ontologies that were there. -/
theorem Filed.insert {kind : GraphOp → Prop} (hs : Filed ontology s) {st st' : Store}
    {new : List Entry} (hlog : s.oplog = st.oplog) (hfile : st'.FileKept)
    (hi : Inserts st.oplog new st'.oplog) (hnew : ∀ e ∈ new, kind e.payload) {t : PyGraphStore}
    (ht : t.backend = .persistent st') (hbase : t.graph.baseOntology = s.graph.baseOntology)
    (hont : t.ontology = s.ontology) : FiledStep ontology kind s t := by
  have htlog : t.oplog = st'.oplog := by
    rw [oplog, ht]
    rfl
  refine ⟨⟨⟨st', ht, hfile⟩, hbase.trans hs.base⟩, hont, ?_, ?_⟩
  · rw [hlog, htlog]
    exact hi.within
  · rw [hlog, htlog]
    intro h e he
    exact (hi.source he).imp_right fun hin => hnew e hin.1

theorem FiledStep.refl {kind : GraphOp → Prop} (hs : Filed ontology s) :
    FiledStep ontology kind s s := ⟨hs, rfl, fun _ _ he => he, fun _ _ he => .inl he⟩

/-- Only backend, base and ontology matter. -/
theorem FiledStep.congr {kind : GraphOp → Prop} {t u : PyGraphStore} (h : FiledStep ontology kind s t)
    (backend : u.backend = t.backend) (base : u.graph.baseOntology = t.graph.baseOntology)
    (same : u.ontology = t.ontology) : FiledStep ontology kind s u := by
  have hlog : u.oplog = t.oplog := by rw [oplog, oplog, backend]
  obtain ⟨⟨h₁, h₂⟩, h₃, h₄, h₅⟩ := h
  exact ⟨⟨backend ▸ h₁, base.trans h₂⟩, same.trans h₃, hlog ▸ h₄, hlog ▸ h₅⟩

@[simp]
theorem writtenEntry_refs (s : PyGraphStore) (env : Env) (op : GraphOp) :
    (s.writtenEntry env op).refs = [] := createEntry_refs ..

/-- **Step.** A local write of anything but a checkpoint. -/
theorem Filed.append (hs : Filed ontology s) (commits : env.txn 0 = .ok ()) (op : GraphOp)
    (hop : op.isCheckpoint = false) : FiledStep ontology (· = op) s (s.append env op).2 := by
  have hrefl : FiledStep ontology (· = op) s s := .refl hs
  obtain ⟨st, hb, hst⟩ := hs.file
  have hlog : s.oplog = st.oplog := by rw [oplog, hb]; rfl
  obtain ⟨hfile, new, hnew, hi⟩ := hst.append (e := s.writtenEntry env op) env.order
    (by simp [Entry.isRootCheckpoint, hop])
    (by
      rw [writtenEntry, createEntry_next, (env.order.perm _).nodup_iff]
      exact HashSet.nodup_toList)
    (writtenEntry_refs s env op)
  have hback : (s.backend.append env.order (env.txn 0) (s.writtenEntry env op)).2 =
      .persistent (st.append env.order (.ok ()) (s.writtenEntry env op)).2 := by
    rw [hb, commits]
    rfl
  have hop' : ∀ e ∈ new, e.payload = op := fun e he => by
    rw [hnew e he]
    exact writtenEntry_payload s env op
  rcases s.append_cases env op with ⟨_, -, h⟩ | ⟨-, _, -, h⟩ | ⟨-, _, -, h⟩ <;> rw [h]
  · exact hrefl.congr rfl rfl rfl
  · exact hs.insert hlog hfile hi hop' hback rfl rfl
  · exact hs.insert hlog hfile hi hop' hback (applyInner_schema ..).2 rfl

/-- The invariant of such a run. -/
structure Kept (created : Ontology) (s : PyGraphStore) : Prop extends Filed created s where
  inForce : InForce created s.oplog s.ontology

/-- Entries without schema leave the ontology in force. -/
theorem Kept.step {kind : GraphOp → Prop} {t : PyGraphStore} (hs : Kept ontology s)
    (h : FiledStep ontology kind s t)
    (hkind : ∀ op, kind op → (op.isExtendOntology || op.isCheckpoint) = false) :
    Kept ontology t := by
  refine ⟨h.filed, h.ontology ▸ hs.inForce.grow hs.toFiled.listable h.filed.listable h.within ?_⟩
  exact h.payloads.mono fun _ e he => he.imp_right (hkind e.payload)

theorem Kept.congr {t : PyGraphStore} (hs : Kept ontology s) (backend : t.backend = s.backend)
    (base : t.graph.baseOntology = s.graph.baseOntology) (same : t.ontology = s.ontology) :
    Kept ontology t := by
  have h : FiledStep ontology (fun _ => False) s t :=
    (FiledStep.refl hs.toFiled).congr backend base same
  exact hs.step h fun _ hno => hno.elim

/-- An append that reports an error has left the log alone. -/
theorem Filed.append_error (hs : Filed ontology s) (commits : env.txn 0 = .ok ()) {op : GraphOp}
    {err : PyErr} (herr : (s.append env op).1 = .error err) :
    (s.append env op).2.oplog = s.oplog := by
  obtain ⟨st, hb, hst⟩ := hs.file
  rcases s.append_cases env op with ⟨_, -, h⟩ | ⟨-, msg, hback, h⟩ | ⟨-, _, -, h⟩
  · rw [h]
    rfl
  · rw [hb, commits] at hback
    have hsame : ((st.append env.order (.ok ()) (s.writtenEntry env op)).2).oplog = st.oplog := by
      have hlog := OpLog.append_unchanged st.oplog (s.writtenEntry env op)
      rw [Backend.append, Store.append] at hback
      rw [Store.append]
      generalize st.oplog.append (s.writtenEntry env op) = r at hlog hback
      obtain ⟨_ | _ | _, L⟩ := r
      · exact hlog (by simp)
      · exact hlog (by simp)
      · rw [hst.immediate] at hback
        cases hback
    rw [h, hb, commits, oplog, oplog, hb]
    exact hsame
  · rw [h] at herr
    cases herr

/-- A rebuild puts the ontology of the listed log in force. -/
theorem Filed.revalidate (hs : Filed ontology s) (env : Env) : Kept ontology (s.revalidate env).2 := by
  obtain ⟨all, hall, -⟩ := entriesSince_none_spec hs.listable.wellFormed hs.listable.nextNodup
    hs.listable.refsStored
  obtain ⟨h₁, h₂⟩ := rebuild_schema s.graph env.order all
  have hrun : (s.revalidate env).2 = { s with
      graph := s.graph.rebuild env.order all
      nodeTypes := liveNodeTypes env.order (s.graph.rebuild env.order all)
      ontology := (s.graph.rebuild env.order all).ontology } := by
    rw [PyGraphStore.revalidate, hall]
  rw [hrun]
  refine ⟨⟨hs.file, h₂.trans hs.base⟩, fun all' hall' => ?_⟩
  obtain rfl := Option.some.inj (hall.symm.trans hall')
  rw [← hs.base]
  exact h₁

/-- **Step.** A call other than a merge. -/
theorem Kept.exec (hs : Kept ontology s) (commits : ∀ i, env.txn i = .ok ()) {c : Call}
    (plain : c.isPlain = true) : Kept ontology (s.exec env c).2 := by
  have happend : ∀ op : GraphOp, (op.isExtendOntology || op.isCheckpoint) = false →
      FiledStep ontology (· = op) s (s.append env op).2 ∧ Kept ontology (s.append env op).2 := by
    intro op hop
    have hcp : op.isCheckpoint = false := (Bool.or_eq_false_iff.mp hop).2
    have h := hs.toFiled.append (commits 0) op hcp
    exact ⟨h, hs.step h fun _ heq => heq ▸ hop⟩
  cases c with
  | addNode nodeId nodeType label properties subtype =>
    obtain ⟨hstep, hkept⟩ := happend (.addNode nodeId nodeType subtype label properties) rfl
    rw [PyGraphStore.exec, done_snd]
    rcases s.addNode_cases env nodeId nodeType label properties subtype with
      ⟨_, -, hrun⟩ | ⟨-, ⟨_, -, hrun⟩ | ⟨_, -, hrun⟩⟩ <;> rw [hrun]
    · exact hs
    · exact hkept
    · exact hs.step (hstep.congr rfl rfl rfl) fun _ heq => heq ▸ rfl
  | addEdge edgeId edgeType sourceId targetId properties =>
    rw [PyGraphStore.exec, done_snd]
    rcases s.addEdge_cases env edgeId edgeType sourceId targetId properties with
      ⟨_, hrun⟩ | ⟨_, _, -, -, -, hrun⟩ <;> rw [hrun]
    · exact hs
    · exact (happend _ rfl).2
  | updateProperty entityId key value => exact (happend (.updateProperty entityId key value) rfl).2
  | removeNode nodeId =>
    have hs' : Kept ontology { s with nodeTypes := s.nodeTypes.erase nodeId } :=
      hs.congr rfl rfl rfl
    have h := hs'.toFiled.append (commits 0) (.removeNode nodeId) rfl
    exact hs'.step h fun _ heq => heq ▸ rfl
  | removeEdge edgeId => exact (happend (.removeEdge edgeId) rfl).2
  | drain op =>
    rw [PyGraphStore.exec, done_snd]
    rcases s.drainOp_cases env op with ⟨_, hrun⟩ | ⟨hop, hrun⟩
    · rw [hrun]
      exact hs
    · rw [Bool.or_assoc, Bool.or_eq_false_iff] at hop
      obtain ⟨hstep, hkept⟩ := happend op hop.2
      obtain ⟨_, -, hrun⟩ | ⟨_, -, hrun⟩ := hrun <;> rw [hrun]
      · exact hkept
      · exact hs.step (hstep.congr rfl rfl rfl) fun _ heq => heq ▸ hop.2
  | extendOntology extension =>
    have hstep := hs.toFiled.append (commits 0) (.extendOntology extension) rfl
    rw [PyGraphStore.exec, done_snd]
    rcases s.extendOntology_cases env extension with
      ⟨_, hrun⟩ | ⟨-, -, ⟨_, herr, hrun⟩ | ⟨_, -, hrun, -⟩⟩ <;> rw [hrun]
    · exact hs
    · refine ⟨hstep.filed, ?_⟩
      rw [hs.toFiled.append_error (commits 0) herr, hstep.ontology]
      exact hs.inForce
    · have hfiled : Filed ontology { (s.append env (.extendOntology extension)).2 with
          ontology := ((s.append env (.extendOntology extension)).2.ontology.mergeExtension
            extension).2 } := ⟨hstep.filed.file, hstep.filed.base⟩
      exact hfiled.revalidate env
  | merge entries => cases plain
  | revalidate => exact hs.toFiled.revalidate env
  | compact => cases plain
  | setFlushMode mode => cases plain
  | flush =>
    obtain ⟨st, hb, hst⟩ := hs.file
    have hflush : st.flush env.order (env.txn 0) = (.ok 0, st) := by
      rw [Store.flush, hst.drained]
      rfl
    rw [PyGraphStore.exec, done_snd, PyGraphStore.flush, hb]
    simp only [hflush]
    exact hs.congr hb.symm rfl rfl
  | setSigningKey key => exact hs.congr rfl rfl rfl
  | registerTrustedAuthor authorId key => exact hs.congr rfl rfl rfl
  | setRequireSignatures enabled => exact hs.congr rfl rfl rfl

/-- **Step.** A merge that meets its condition. -/
theorem Kept.merge (hs : Kept ontology s) (commits : ∀ i, env.txn i = .ok ())
    {entries : List Entry} (keeps : s.MergeKeeps entries) :
    Kept ontology (s.mergeEntriesVec env entries).2 := by
  obtain ⟨st, hb, hst⟩ := hs.toFiled.file
  have hlog : s.oplog = st.oplog := by rw [oplog, hb]; rfl
  obtain ⟨hfile, new, hsub, hi, hres⟩ := hst.merge (entries.filter s.admits) env.order
    (by rw [← hlog]; exact keeps)
  have hback : (s.backend.merge env.order (env.txn 0) (entries.filter s.admits)).2 =
      .persistent (st.merge env.order (.ok ()) (entries.filter s.admits)).2 := by
    rw [hb, commits]
    rfl
  -- a store over the new log that still has the old ontology
  have hstep : ∀ t : PyGraphStore, t.backend =
      .persistent (st.merge env.order (.ok ()) (entries.filter s.admits)).2 →
      t.graph.baseOntology = s.graph.baseOntology → t.ontology = s.ontology →
      FiledStep ontology (fun op => ∃ e ∈ new, e.payload = op) s t := fun _ =>
    hs.toFiled.insert hlog hfile hi fun e he => ⟨e, he, rfl⟩
  -- unless the call counts insertions, there are none
  have hnil : (∀ n, (s.backend.merge env.order (env.txn 0) (entries.filter s.admits)).1 ≠
      .ok (n + 1)) → new = [] := by
    intro hno
    obtain hres | hres := hres
    · cases new with
      | nil => rfl
      | cons a l =>
        refine absurd ?_ (hno l.length)
        have hrun : mergeBatch st.oplog (entries.filter s.admits) =
            (.ok (a :: l), (mergeBatch st.oplog (entries.filter s.admits)).2) := Prod.ext hres rfl
        rw [hb, commits, Backend.merge, Store.merge, hrun, hst.immediate]
        rfl
    · exact hres
  have hsame : (∀ n, (s.backend.merge env.order (env.txn 0) (entries.filter s.admits)).1 ≠
      .ok (n + 1)) → Kept ontology { s with
        backend := (s.backend.merge env.order (env.txn 0) (entries.filter s.admits)).2 } := by
    intro hno
    refine hs.step (hstep _ hback rfl rfl) ?_
    rw [hnil hno]
    simp
  rcases s.mergeEntriesVec_cases env entries with ⟨msg, herr, hrun⟩ | ⟨hzero, hrun⟩ |
    ⟨n, -, hnone, -⟩ | ⟨n, all, -, hall, hrun⟩
  · rw [hrun]
    exact hsame fun n => by simp [herr]
  · rw [hrun]
    exact hsame fun n => by simp [hzero]
  · have hlist := hfile.listable
    obtain ⟨all, hall, -⟩ := entriesSince_none_spec hlist.wellFormed hlist.nextNodup hlist.refsStored
    rw [hback] at hnone
    exact absurd (hnone.symm.trans hall) (by simp)
  · rw [hrun, integrated]
    have hfiled := hstep { s with
      backend := (s.backend.merge env.order (env.txn 0) (entries.filter s.admits)).2 } hback rfl rfl
    split
    · exact (hfiled.filed.revalidate env).congr rfl rfl rfl
    · rename_i hschema
      obtain ⟨nodeTypes, hfold⟩ := foldl_applyMerged_eq env (listedOf all (entries.filter s.admits))
        { s with backend := (s.backend.merge env.order (env.txn 0) (entries.filter s.admits)).2 }
      rw [hfold]
      refine hs.step (hstep _ hback (applyAll_schema ..).2 rfl) ?_
      rintro _ ⟨e, he, rfl⟩
      have hplain := fun hx => hschema (List.any_eq_true.mpr ⟨e, hsub he, hx⟩)
      exact Bool.eq_false_iff.mpr hplain

/-! ### Runs -/

theorem Kept.create (run : new env id ontology (some Db.empty) = .ok s) : Kept ontology s := by
  obtain ⟨st, all, hopen, hall, rfl⟩ := new_file run
  let g := genesis env id ontology
  have hroot : g.next = [] := rfl
  have hvalid : g.verifyHash := Entry.verifyHash_new ..
  rw [Store.openDb_empty] at hopen
  cases htxn : env.txn 0 with
  | error msg =>
    rw [htxn] at hopen
    cases hopen
  | ok _ =>
    rw [htxn] at hopen
    obtain rfl := Except.ok.inj hopen
    have honly : (OpLog.new g).All fun _ e => e = g := All.new rfl
    have hkept : Store.FileKept ⟨⟨(∅ : BTreeMap Hash Entry).insert g.hash g,
        some (env.order.walk (OpLog.new g).heads.toList)⟩, OpLog.new g, .immediate, []⟩ := by
      refine ⟨.single g hvalid hroot _ .immediate, rfl, rfl, fun h e he => ?_, ?_⟩
      · obtain rfl : e = g := honly h e he
        simp [Entry.isRootCheckpoint, g, genesis, Entry.new, GraphOp.isCheckpoint]
      · refine ⟨.new hvalid hroot, fun h e he r hr => ?_, fun h e he => ?_⟩
        · obtain rfl : e = g := honly h e he
          cases hr
        · obtain rfl : e = g := honly h e he
          exact List.nodup_nil
    obtain ⟨h₁, h₂⟩ := rebuild_schema (MaterializedGraph.new ontology) env.order all
    refine ⟨⟨⟨_, rfl, hkept⟩, h₂⟩, fun all' hall' => ?_⟩
    obtain rfl := Option.some.inj (hall.symm.trans hall')
    exact h₁

/-- **Run.** The invariant holds along every such run. -/
theorem KeptOnFile.kept (hs : KeptOnFile id ontology s) : Kept ontology s := by
  induction hs with
  | create env run => exact .create run
  | call _ env commits c plain ih => exact ih.exec commits plain
  | merge _ env commits entries keeps ih => exact ih.merge commits keeps

/-- What opening the file of such a store comes to: the identity and the ontology of the
first listed entry decide. -/
theorem Kept.open_file (hs : Kept ontology s) {store : Store} (onFile : s.backend = .persistent store)
    (env : Env) : ∃ g rest, s.oplog.entriesSince none = some (g :: rest) ∧
      ((∃ e, extractOntologyFromGenesis g = .error e ∧ «open» env store.db = .error e) ∨
      ∃ base s', extractOntologyFromGenesis g = .ok base ∧ «open» env store.db = .ok s' ∧
        s'.instanceId = g.author ∧ s'.graph.baseOntology = base ∧
        s'.ontology = effectiveOntology base (g :: rest)) := by
  obtain ⟨st, hb, hst⟩ := hs.file
  obtain rfl : st = store := by
    rw [onFile] at hb
    exact (Backend.persistent.inj hb).symm
  obtain ⟨L, hopen, hL, hentries⟩ := hst.durable.openDb env.order (env.txn 0)
  have hlog : s.oplog = st.oplog := by rw [oplog, hb]; rfl
  have hrows : ∀ h : Hash, L.entries[h]? = s.oplog.entries[h]? := by
    intro h
    rw [hentries, hlog]
    refine Option.ext fun e => ?_
    rw [hst.durable.covers, hst.drained]
    simp
  have hlist := hs.toFiled.listable
  have hLlist : L.Listable := by
    refine ⟨hL, fun h e he r hr => ?_, fun h e he => ?_⟩
    · rw [hrows] at he
      obtain ⟨x, hx⟩ := HashMap.mem_iff_getElem?.mp (hlist.refsStored h e he r hr)
      exact HashMap.mem_iff_getElem?.mpr ⟨x, (hrows r).trans hx⟩
    · rw [hrows] at he
      exact hlist.nextNodup h e he
  have hsame := entriesSince_congr hrows hLlist hlist
  obtain ⟨all, hall, -, hmem, -⟩ := entriesSince_none_spec hlist.wellFormed hlist.nextNodup
    hlist.refsStored
  cases all with
  | nil =>
    -- a log always holds something
    refine absurd (Std.ExtTreeMap.eq_empty_iff_forall_not_mem.mpr fun h hh => ?_)
      hlist.wellFormed.nonempty
    obtain ⟨e, he⟩ := HashMap.mem_iff_getElem?.mp hh
    have hkey := (hlist.wellFormed.rep.keyed h e he).1
    exact List.not_mem_nil ((hmem e).mpr (hkey ▸ he))
  | cons g rest =>
    refine ⟨g, rest, hall, ?_⟩
    rw [hall] at hsame
    cases hext : extractOntologyFromGenesis g with
    | error e =>
      refine .inl ⟨e, rfl, ?_⟩
      simp only [«open», hopen, hsame, hext]
    | ok base =>
      obtain ⟨h₁, h₂⟩ := rebuild_schema (MaterializedGraph.new base) env.order (g :: rest)
      have hrun : «open» env st.db = .ok
          { backend := .persistent ⟨st.db, L, .immediate, []⟩
            graph := (MaterializedGraph.new base).rebuild env.order (g :: rest)
            nodeTypes := (g :: rest).foldl replayNodeType ∅, instanceId := g.author
            clock := g.clock
            ontology := ((MaterializedGraph.new base).rebuild env.order (g :: rest)).ontology } := by
        simp only [«open», hopen, hsame, hext]
      exact .inr ⟨base, _, rfl, hrun, rfl, h₂, h₁⟩

end

end PyGraphStore

end SilkGraph
