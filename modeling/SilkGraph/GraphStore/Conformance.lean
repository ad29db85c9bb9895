import SilkGraph.Graph.Conformance
import SilkGraph.GraphStore.NodeTypes

/-!
# Schema conformance of the visible graph

Entries are validated one by one, and nodes are merged from several of them, so that every
live node and edge conforms to the ontology of the graph only in runs whose operations meet
`OpFits` in the graph they come to: `schema_conformance`. A rebuild replays the whole log, so
a call that makes one has the condition on every entry of the log it leaves.
-/

namespace SilkGraph

namespace Sample

/-- Machines with an age, and drones, which are machines and may carry a load. -/
def machines : Ontology where
  nodeTypes := ((∅ : BTreeMap String NodeTypeDef).insert "machine"
    { properties := (∅ : BTreeMap String PropertyDef).insert "age" ⟨.int, true, none, none⟩ }).insert
    "drone"
    { properties := (∅ : BTreeMap String PropertyDef).insert "load" ⟨.int, false, none, none⟩
      parentType := some "machine" }
  edgeTypes := ∅

/-- An age. -/
def age : BTreeMap String Value := (∅ : BTreeMap String Value).insert "age" (.int 3)

end Sample

namespace PyGraphStore

open MaterializedGraph

section

variable [Crates] {s s' : PyGraphStore} {env : Env} {op : GraphOp}

/-- A rebuild of the graph from the log meets the condition at every entry. -/
def LogFits (self : PyGraphStore) (env : Env) : Prop :=
  ∀ all, self.oplog.entriesSince none = some all →
    ReplayFits env.order (secondPass self.graph.baseOntology all) all

/-- An operation that is written meets the condition in the graph it comes to. -/
def WriteFits (self : PyGraphStore) (env : Env) (op : GraphOp) : Prop :=
  self.Writes env op → OpFits [] env.order .full true (self.writtenEntry env op) op self.graph

/-- The entries of a merge meet the condition: where it re-materializes the graph all
entries of the log, else the merged ones. -/
def MergeFits (self : PyGraphStore) (env : Env) (entries : List Entry) : Prop :=
  let batch := entries.filter self.admits
  let merged := self.backend.merge env.order (env.txn 0) batch
  ∀ n all, merged.1 = .ok (n + 1) → merged.2.oplog.entriesSince none = some all →
    if batch.any isSchemaChange then ReplayFits env.order (secondPass self.graph.baseOntology all) all
    else AppliedFits env.order self.graph (listedOf all batch)

/-- The condition on a call. An extension of the ontology has all entries judged again, or,
if the log cannot be listed, none. -/
def Fits (self : PyGraphStore) (env : Env) : Call → Prop
  | .addNode nodeId nodeType label properties subtype =>
    self.WriteFits env (.addNode nodeId nodeType subtype label properties)
  | .addEdge edgeId edgeType sourceId targetId properties =>
    self.WriteFits env (.addEdge edgeId edgeType sourceId targetId properties)
  | .updateProperty entityId key value => self.WriteFits env (.updateProperty entityId key value)
  | .drain op =>
    (op.isDefineOntology || op.isExtendOntology || op.isCheckpoint) = false → self.WriteFits env op
  | .extendOntology extension =>
    let written := (self.append env (.extendOntology extension)).2
    self.Writes env (.extendOntology extension) →
      written.LogFits env ∧ (written.oplog.entriesSince none = none →
        self.WriteFits env (.extendOntology extension))
  | .merge entries => self.MergeFits env entries
  | .revalidate => self.LogFits env
  | .compact => (self.compact env).2.LogFits env
  | _ => True

/-- The runs whose steps all meet the condition. A constructor that replays a log has it on
every entry. -/
inductive Fitting : PyGraphStore → Prop where
  | memory {s : PyGraphStore} (env : Env) (instanceId : String) (ontology : Ontology)
      (run : new env instanceId ontology none = .ok s) : Fitting s
  | file {s : PyGraphStore} (env : Env) (instanceId : String) (ontology : Ontology) (db : Db)
      (run : new env instanceId ontology (some db) = .ok s) (fits : s.LogFits env) : Fitting s
  | fromSnapshot {s : PyGraphStore} (env : Env) (instanceId : String) (snapshot : List Entry)
      (run : fromSnapshot env instanceId snapshot = .ok s) (fits : s.LogFits env) : Fitting s
  | reopen {s : PyGraphStore} (env : Env) (db : Db) (run : «open» env db = .ok s)
      (fits : s.LogFits env) : Fitting s
  | call {s : PyGraphStore} (h : Fitting s) (env : Env) (c : Call) (fits : s.Fits env c) :
      Fitting (s.exec env c).2

/-! ### Constructors -/

theorem conforms_of_replay {all : List Entry} {base : Ontology}
    (hall : s.oplog.entriesSince none = some all)
    (hgraph : s.graph = (MaterializedGraph.new base).rebuild env.order all) (hfits : s.LogFits env) :
    ConformsUpTo [] s.graph := by
  have hbase : s.graph.baseOntology = base := by
    rw [hgraph, (rebuild_schema _ _ _).2]
    rfl
  have h := hfits all hall
  rw [hbase] at h
  rw [hgraph]
  exact .rebuild h

/-! ### Calls -/

theorem rebuild_conforms {g : MaterializedGraph} {σ : HashOrder} {all : List Entry}
    (hf : ReplayFits σ (secondPass g.baseOntology all) all) : ConformsUpTo [] (g.rebuild σ all) :=
  ConformsUpTo.rebuild hf

theorem conforms_revalidate (h : ConformsUpTo [] s.graph) (hf : s.LogFits env) :
    ConformsUpTo [] (s.revalidate env).2.graph := by
  rw [PyGraphStore.revalidate]
  split
  · exact h
  · rename_i all hall
    exact rebuild_conforms (hf all hall)

theorem conforms_append (h : ConformsUpTo [] s.graph) (hf : s.WriteFits env op) :
    ConformsUpTo [] (s.append env op).2.graph := by
  cases hr : (s.append env op).1 with
  | error err =>
    rw [(append_of_error hr).1]
    exact h
  | ok hex =>
    rw [(graph_of_append hr).1]
    refine h.applyInner ?_
    rw [writtenEntry_payload]
    exact hf (writes_of_append hr)

theorem writeFits_removeNode (s : PyGraphStore) (env : Env) (id : String) :
    s.WriteFits env (.removeNode id) := fun _ => by
  rw [OpFits]
  · trivial
  all_goals simp

theorem writeFits_removeEdge (s : PyGraphStore) (env : Env) (id : String) :
    s.WriteFits env (.removeEdge id) := fun _ => by
  rw [OpFits]
  · trivial
  all_goals simp

/-- After an extension the graph is the one with all entries judged again; where the log
cannot be listed it is the old one under the extended ontology. -/
theorem conforms_extendOntology {x : OntologyExtension} (h : ConformsUpTo [] s.graph)
    (hf : s.Fits env (.extendOntology x)) : ConformsUpTo [] (s.extendOntology env x).2.graph := by
  obtain ⟨err, hrun⟩ | ⟨-, -, ⟨err, herr, hrun⟩ | ⟨hex, hok, hrun, -⟩⟩ := s.extendOntology_cases env x
  · rw [hrun]
    exact h
  · rw [hrun, (append_of_error herr).1]
    exact h
  · obtain ⟨hlog, hnone⟩ := hf (writes_of_append hok)
    set t := (s.append env (.extendOntology x)).2 with ht
    rw [hrun, PyGraphStore.revalidate]
    split <;> rename_i hall
    · exact conforms_append h (hnone hall)
    · exact rebuild_conforms (hlog _ hall)

theorem conforms_merge {es : List Entry} (h : ConformsUpTo [] s.graph) (hf : s.MergeFits env es) :
    ConformsUpTo [] (s.mergeEntriesVec env es).2.graph := by
  obtain ⟨msg, -, heq⟩ | ⟨-, heq⟩ | ⟨n, -, -, heq⟩ | ⟨n, all, hn, hall, heq⟩ :=
    s.mergeEntriesVec_cases env es
  all_goals rw [heq]
  · exact h
  · exact h
  · exact h
  · have hf := hf n all hn hall
    change ConformsUpTo [] (integrated _ env all (es.filter s.admits)).graph
    rw [graph_integrated { s with
      backend := (s.backend.merge env.order (env.txn 0) (es.filter s.admits)).2 } env hall]
    split <;> rename_i hschema
    · rw [if_pos hschema] at hf
      exact rebuild_conforms hf
    · rw [if_neg hschema] at hf
      exact h.applied hf

theorem conforms_compact (h : ConformsUpTo [] s.graph) (hf : (s.compact env).2.LogFits env) :
    ConformsUpTo [] (s.compact env).2.graph := by
  obtain ⟨msg, -, hrun⟩ | ⟨-, ⟨err, -, hrun⟩ | ⟨-, hrun, -⟩⟩ := s.compact_cases env
  · rw [hrun]
    exact h
  · obtain ⟨b, hb⟩ := carryOver_frame _ env (s.checkpointEntry env).hash 1 (s.carried env)
    rw [hrun, hb]
    exact h
  · obtain ⟨b, hb⟩ := carryOver_frame _ env (s.checkpointEntry env).hash 1 (s.carried env)
    rw [hrun, hb] at hf ⊢
    refine conforms_revalidate h fun all hall => ?_
    have hbase : ∀ t : PyGraphStore, (t.revalidate env).2.graph.baseOntology = t.graph.baseOntology :=
      fun t => by
        rw [PyGraphStore.revalidate]
        split
        · rfl
        · exact (rebuild_schema _ _ _).2
    have hlist := hf all (by rwa [revalidate_log])
    rwa [hbase] at hlist

/-- **Step.** A call that meets the condition keeps the graph in line with its ontology. -/
theorem conforms_exec (h : ConformsUpTo [] s.graph) (c : Call) (hf : s.Fits env c) :
    ConformsUpTo [] (s.exec env c).2.graph := by
  cases c with
  | addNode id ty lb ps st =>
    obtain ⟨_, -, hrun⟩ | ⟨-, ⟨err, -, hrun⟩ | ⟨hex, -, hrun⟩⟩ := s.addNode_cases env id ty lb ps st
    all_goals simp only [PyGraphStore.exec, done_snd, hrun]
    · exact h
    · exact conforms_append h hf
    · exact conforms_append h hf
  | addEdge id ty src tgt ps =>
    obtain ⟨err, hrun⟩ | ⟨_, _, -, -, -, hrun⟩ := s.addEdge_cases env id ty src tgt ps
    all_goals simp only [PyGraphStore.exec, done_snd, hrun]
    · exact h
    · exact conforms_append h hf
  | updateProperty id k v => exact conforms_append h hf
  | removeNode id =>
    have ht : ConformsUpTo [] ({ s with nodeTypes := s.nodeTypes.erase id } : PyGraphStore).graph := h
    exact conforms_append ht (writeFits_removeNode _ env id)
  | removeEdge id => exact conforms_append h (writeFits_removeEdge s env id)
  | drain op =>
    obtain ⟨err, hrun⟩ | ⟨hop, ⟨err, -, hrun⟩ | ⟨hex, -, hrun⟩⟩ := s.drainOp_cases env op
    all_goals simp only [PyGraphStore.exec, done_snd, hrun]
    · exact h
    · exact conforms_append h (hf hop)
    · exact conforms_append h (hf hop)
  | extendOntology x => exact conforms_extendOntology h hf
  | merge es => exact conforms_merge h hf
  | revalidate => exact conforms_revalidate h hf
  | compact => exact conforms_compact h hf
  | setFlushMode mode =>
    simp only [PyGraphStore.exec, setFlushMode]
    split <;> exact h
  | flush =>
    simp only [PyGraphStore.exec, done_snd, PyGraphStore.flush]
    split
    · exact h
    · split <;> exact h
  | setSigningKey | registerTrustedAuthor | setRequireSignatures => exact h

/-- **Run.** In every run whose steps meet the condition, every live node and every live edge
with live endpoints conforms to the ontology. -/
theorem schema_conformance (s : PyGraphStore) (hs : Fitting s) : s.graph.ConformsToSchema := by
  suffices h : ConformsUpTo [] s.graph from h.conformsToSchema
  induction hs with
  | memory env instanceId ontology run =>
    obtain ⟨-, rfl⟩ := new_memory run
    exact .ofEmpty rfl rfl
  | file env instanceId ontology db run fits =>
    obtain ⟨store, all, -, hall, rfl⟩ := new_file run
    exact conforms_of_replay hall rfl fits
  | fromSnapshot env instanceId snapshot run fits =>
    obtain ⟨genesis, rest, base, n, L, all, -, -, -, hall, rfl⟩ := from_snapshot run
    exact conforms_of_replay hall rfl fits
  | reopen env db run fits =>
    obtain ⟨store, genesis, rest, base, -, hall, -, rfl⟩ := open_file run
    exact conforms_of_replay hall rfl fits
  | call _ env c fits ih => exact conforms_exec ih c fits

end

open Sample in
/-- A drone that is added with what is required, and gets a load. -/
theorem schema_conformance_drone :
    let s := ((freshStore "ann" machines).exec env (.addNode "d" "drone" "D" age none)).2
    (s.exec env (.updateProperty "d" "load" (.int 5))).2.graph.ConformsToSchema := by
  intro s
  have hnew : Fitting (freshStore "ann" machines) := by
    refine .memory env "ann" machines ?_
    have hvalid : machines.validateSelf = .ok () := by decide +kernel
    simp only [new, hvalid]
    rfl
  have hs : Fitting s := by
    refine .call hnew env (.addNode "d" "drone" "D" age none) fun _ => ?_
    rw [OpFits]
    intro _
    have hnone : (freshStore "ann" machines).graph.nodes["d"]? = none := by
      exact Std.ExtTreeMap.getElem?_empty
    refine ⟨?_, ?_⟩
    · rw [NodeAddFits, hnone]
      exact .inl rfl
    · dsimp only
      have hready : (((freshStore "ann" machines).graph.release
          ((freshStore "ann" machines).writtenEntry env (.addNode "d" "drone" none "D" age)).hash).applyAddNode
          "d" "drone" none "D" age ((freshStore "ann" machines).writtenEntry env
            (.addNode "d" "drone" none "D" age)).clock).readyEdges env.order = [] :=
        List.isEmpty_iff.mp (by decide +kernel)
      rw [hready]
      trivial
  refine schema_conformance _ (.call hs env (.updateProperty "d" "load" (.int 5)) fun _ => ?_)
  rw [OpFits, UpdateFits]
  refine ⟨fun _ nd hnd hown => ?_, fun hm => by cases hm⟩
  have htype : (s.graph.getNode "d").map (fun nd => (nd.nodeType, nd.subtype)) = some ("drone", none) := by
    decide +kernel
  rw [hnd, Option.map_some, Option.some.injEq, Prod.mk.injEq] at htype
  rw [htype.1, htype.2] at hown
  have hsome : ((s.graph.ontology.ownProperties "drone" none)["load"]?).isSome = true := by
    decide +kernel
  rw [hown] at hsome
  cases hsome

open Sample in
/-- The age of a drone is declared by its parent type, so an update of it is not checked. -/
theorem not_conforms_inherited :
    let s := ((freshStore "ann" machines).exec env (.addNode "d" "drone" "D" age none)).2
    let t := (s.exec env (.updateProperty "d" "age" (.string "old"))).2
    Reachable t ∧ ¬ t.graph.ConformsToSchema := by
  intro s t
  have hs : Reachable s := .call (reachable_freshStore (by decide +kernel)) env _
  refine ⟨.call hs env _, fun h => ?_⟩
  have hall : ((t.graph.getNode "d").all fun nd =>
      ((t.graph.ontology.declaredProperties nd.nodeType nd.subtype)["age"]?).all fun p =>
        (nd.properties["age"]?).all fun v => (validateValue nd.nodeType "age" p v).isOk) = true := by
    simp only [Option.all_eq_true]
    exact fun nd hnd p hp v hv => (h.nodes "d" nd hnd).fit "age" p v hp hv
  revert hall
  decide +kernel

end PyGraphStore

end SilkGraph
