import SilkGraph.Graph.Inert
import SilkGraph.GraphStore.NodeTypes

/-!
# Two doors, one lock

An operation comes into a store through its own method or through an `OperationBuffer` that
is drained into it. Both end in `append`, and both note the types of nodes; but only the
method of an edge asks `node_types` for the endpoints first, while the check that is shared
lets an edge pass whose endpoints are not live. `doors_agree_iff` says when the two agree: for
every operation but an edge, and for an edge that the method's own check passes, or that is
refused at the second door as well.
-/

namespace SilkGraph

/-- `buffer.rs`: the operations in the file of a buffer, in order. -/
structure OperationBuffer where
  ops : List GraphOp

namespace PyGraphStore

section

variable [Crates]

/-- The method for an operation, if it has one. -/
def direct (self : PyGraphStore) (env : Env) : GraphOp → Option (Except PyErr String × PyGraphStore)
  | .addNode nodeId nodeType subtype label properties =>
    some (self.addNode env nodeId nodeType label properties subtype)
  | .addEdge edgeId edgeType sourceId targetId properties =>
    some (self.addEdge env edgeId edgeType sourceId targetId properties)
  | .updateProperty entityId key value => some (self.updateProperty env entityId key value)
  | .removeNode nodeId => some (self.removeNode env nodeId)
  | .removeEdge edgeId => some (self.removeEdge env edgeId)
  | _ => none

/-- Drain buffered operations, the first of which is the `applied`-th of `total`. The buffer
keeps those from the first that fails on. -/
def drainLoop (env : ℕ → Env) (total : ℕ) : ℕ → List GraphOp → PyGraphStore →
    Except PyErr ℕ × OperationBuffer × PyGraphStore
  | applied, [], self => (.ok applied, ⟨[]⟩, self)
  | applied, op :: ops, self =>
    if op.isDefineOntology || op.isExtendOntology || op.isCheckpoint then
      (.error (.valueError (s!"buffer contains non-bufferable operation at position {applied}. " ++
        s!"{applied} ops applied before failure. Buffer rewritten with {total - applied} " ++
        "remaining ops.")), ⟨op :: ops⟩, self)
    else match self.drainOp (env applied) op with
      | (.error e, self) => (.error e, ⟨op :: ops⟩, self)
      | (.ok _, self) => drainLoop env total (applied + 1) ops self

/-- Drain all buffered operations into a live store, each in its own surroundings. Returns
how many were applied, with what is left in the buffer. -/
def drain (self : PyGraphStore) (env : ℕ → Env) (buffer : OperationBuffer) :
    Except PyErr ℕ × OperationBuffer × PyGraphStore :=
  drainLoop env buffer.ops.length 0 buffer.ops self

variable {s : PyGraphStore} {env : ℕ → Env} {op : GraphOp}
  {r : Except PyErr String × PyGraphStore}

/-! ### Draining -/

/-- **Run.** What a drain has applied is gone from the buffer and what is left is still there;
nothing is left exactly if it succeeds, and a store that was reachable still is. -/
theorem drainLoop_spec (hs : Reachable s) (total applied : ℕ) (ops : List GraphOp) :
    ∃ done, ops = done ++ (drainLoop env total applied ops s).2.1.ops ∧
      Reachable (drainLoop env total applied ops s).2.2 ∧
      ∀ n, (drainLoop env total applied ops s).1 = .ok n ↔
        (drainLoop env total applied ops s).2.1.ops = [] ∧ n = applied + done.length := by
  induction ops generalizing s applied with
  | nil => exact ⟨[], rfl, hs, fun n => by simp [drainLoop, eq_comm]⟩
  | cons op ops ih =>
    have hcall : Reachable (s.drainOp (env applied) op).2 := hs.call (env applied) (.drain op)
    rw [drainLoop]
    split
    · exact ⟨[], rfl, hs, fun n => by simp⟩
    · split <;> rename_i t hrun <;> rw [hrun] at hcall
      · exact ⟨[], rfl, hcall, fun n => by simp⟩
      · obtain ⟨done, hops, hreach, hok⟩ := ih hcall (applied + 1)
        refine ⟨op :: done, by rw [List.cons_append, ← hops], hreach, fun n => ?_⟩
        rw [hok, List.length_cons]
        exact and_congr_right fun _ => by omega

/-! ### The two doors -/

/-- What a drain makes of a buffer with one operation that has a method: it appends it and
notes the type. -/
theorem drain_single (hop : s.direct (env 0) op = some r) :
    (∃ e, (s.append (env 0) op).1 = .error e ∧ (s.drain env ⟨[op]⟩).1 = .error e) ∨
      ∃ hex, (s.append (env 0) op).1 = .ok hex ∧ s.drain env ⟨[op]⟩ = (.ok 1, ⟨[]⟩,
        { (s.append (env 0) op).2 with nodeTypes := noteType s.nodeTypes op }) := by
  have hplain : (op.isDefineOntology || op.isExtendOntology || op.isCheckpoint) = false := by
    cases op <;> first | rfl | cases hop
  have htypes : (s.append (env 0) op).2.nodeTypes = s.nodeTypes :=
    congrArg (fun r => r.2.nodeTypes) (s.append_nodeTypes (env 0) op s.nodeTypes)
  have hdrain : s.drain env ⟨[op]⟩ = match s.drainOp (env 0) op with
      | (.error e, self) => (.error e, ⟨[op]⟩, self)
      | (.ok _, self) => (.ok 1, ⟨[]⟩, self) := by
    rw [drain, drainLoop, hplain]
    rfl
  have hop : s.drainOp (env 0) op = match s.append (env 0) op with
      | (.error e, self) => (.error e, self)
      | (.ok hex, self) => (.ok hex, { self with nodeTypes := noteType self.nodeTypes op }) := by
    rw [drainOp, hplain]
    cases op <;> rfl
  rw [hdrain, hop]
  generalize s.append (env 0) op = q at htypes
  obtain ⟨e | hex, t⟩ := q
  · exact .inl ⟨e, rfl, rfl⟩
  · have ht : t.nodeTypes = s.nodeTypes := htypes
    exact .inr ⟨hex, rfl, by rw [← ht]⟩

/-- The method's own check of an edge: both endpoints have a type in the map, and the edge is
accepted between these. -/
def EdgeTyped (self : PyGraphStore) (edgeType sourceId targetId : String)
    (properties : BTreeMap String Value) : Prop :=
  ∃ sourceType targetType, self.nodeTypes[sourceId]? = some sourceType ∧
    self.nodeTypes[targetId]? = some targetType ∧
    self.ontology.validateEdge edgeType sourceType targetType properties = .ok ()

/-- What a method makes of its operation: it appends it and notes the type, unless it is an
edge that its own check refuses. -/
theorem direct_cases (hop : s.direct (env 0) op = some r) :
    (∃ id ty src tgt ps, op = .addEdge id ty src tgt ps ∧ ¬ s.EdgeTyped ty src tgt ps ∧
      ∃ e, r.1 = .error e) ∨
    (∀ id ty src tgt ps, op = .addEdge id ty src tgt ps → s.EdgeTyped ty src tgt ps) ∧
      ((∃ e, (s.append (env 0) op).1 = .error e ∧ ∃ e', r.1 = .error e') ∨
      ∃ hex, (s.append (env 0) op).1 = .ok hex ∧
        r = (.ok hex, { (s.append (env 0) op).2 with nodeTypes := noteType s.nodeTypes op })) := by
  have htypes : (s.append (env 0) op).2.nodeTypes = s.nodeTypes :=
    congrArg (fun r => r.2.nodeTypes) (s.append_nodeTypes (env 0) op s.nodeTypes)
  -- a method that only appends
  have happend : ∀ r' : Except PyErr String × PyGraphStore, r' = s.append (env 0) op →
      noteType s.nodeTypes op = s.nodeTypes →
      (∃ e, (s.append (env 0) op).1 = .error e ∧ ∃ e', r'.1 = .error e') ∨
      ∃ hex, (s.append (env 0) op).1 = .ok hex ∧
        r' = (.ok hex, { (s.append (env 0) op).2 with nodeTypes := noteType s.nodeTypes op }) := by
    rintro r' rfl hnote
    rw [hnote, ← htypes]
    generalize s.append (env 0) op = q
    obtain ⟨e | hex, t⟩ := q
    · exact .inl ⟨e, rfl, e, rfl⟩
    · exact .inr ⟨hex, rfl, rfl⟩
  cases op with
  | addNode id ty st lb ps =>
    obtain rfl := Option.some.inj hop
    refine .inr ⟨fun _ _ _ _ _ h => (by cases h), ?_⟩
    obtain ⟨e, hv, h⟩ | ⟨-, ⟨e, he, h⟩ | ⟨hex, hhex, h⟩⟩ := s.addNode_cases (env 0) id ty lb ps st
    · -- what the method refuses, the append refuses as well
      have hrefused : s.validateEntryPayload (s.writtenEntry (env 0) (.addNode id ty st lb ps)) =
          .error e.display := by
        rw [validateEntryPayload, writtenEntry_payload]
        simp only [hv]
        rfl
      obtain ⟨reason, -, happ⟩ | ⟨hv', -⟩ | ⟨hv', -⟩ :=
        s.append_cases (env 0) (.addNode id ty st lb ps)
      · exact .inl ⟨_, by rw [happ], _, by rw [h]⟩
      · rw [hrefused] at hv'
        cases hv'
      · rw [hrefused] at hv'
        cases hv'
    · exact .inl ⟨e, he, e, by rw [h]⟩
    · exact .inr ⟨hex, hhex, by rw [h, htypes]; rfl⟩
  | addEdge id ty src tgt ps =>
    obtain rfl := Option.some.inj hop
    by_cases htyped : s.EdgeTyped ty src tgt ps
    · refine .inr ⟨fun _ _ _ _ _ h => ?_, happend _ ?_ rfl⟩
      · injection h with _ h1 h2 h3 h4
        subst h1 h2 h3 h4
        exact htyped
      · obtain ⟨sty, tty, hs, ht, hv⟩ := htyped
        rw [addEdge, hs, ht]
        simp only [hv]
    · refine .inl ⟨id, ty, src, tgt, ps, rfl, htyped, ?_⟩
      obtain ⟨e, h⟩ | ⟨sty, tty, hs, ht, hv, -⟩ := s.addEdge_cases (env 0) id ty src tgt ps
      · exact ⟨e, by rw [h]⟩
      · exact absurd ⟨sty, tty, hs, ht, hv⟩ htyped
  | updateProperty id k v =>
    obtain rfl := Option.some.inj hop
    exact .inr ⟨fun _ _ _ _ _ h => (by cases h), happend _ rfl rfl⟩
  | removeNode id =>
    obtain rfl := Option.some.inj hop
    refine .inr ⟨fun _ _ _ _ _ h => (by cases h), ?_⟩
    rw [removeNode, s.append_nodeTypes (env 0) (.removeNode id) (s.nodeTypes.erase id)]
    obtain ⟨e | hex, t⟩ := s.append (env 0) (.removeNode id)
    · exact .inl ⟨e, rfl, e, rfl⟩
    · exact .inr ⟨hex, rfl, rfl⟩
  | removeEdge id =>
    obtain rfl := Option.some.inj hop
    exact .inr ⟨fun _ _ _ _ _ h => (by cases h), happend _ rfl rfl⟩
  | _ => cases hop

/-- The two doors agree on an operation: the method succeeds exactly if the drain does, and
then both leave the same graph and the same map of node types. -/
structure DoorsAgree (direct : Except PyErr String × PyGraphStore)
    (drained : Except PyErr ℕ × OperationBuffer × PyGraphStore) : Prop where
  succeed : (∃ n, drained.1 = .ok n) ↔ ∃ hex, direct.1 = .ok hex
  graph : (∃ n, drained.1 = .ok n) → drained.2.2.graph = direct.2.graph
  nodeTypes : (∃ n, drained.1 = .ok n) → drained.2.2.nodeTypes = direct.2.nodeTypes

/-- **When the two doors agree.** On every operation but an edge they do; on an edge exactly if
its endpoints have types in the map between which it is accepted, or the append refuses it
too. -/
theorem doors_agree_iff (hs : Reachable s) (hop : s.direct (env 0) op = some r) :
    DoorsAgree r (s.drain env ⟨[op]⟩) ↔ ∀ id ty src tgt ps, op = .addEdge id ty src tgt ps →
      s.EdgeTyped ty src tgt ps ∨ ¬ s.Writes (env 0) op := by
  have hplain : op.isCheckpoint = false := by
    cases op <;> first | rfl | cases hop
  rw [← append_ok_iff hs hplain]
  obtain ⟨e, happ, hdrain⟩ | ⟨hex, happ, hdrain⟩ := drain_single hop <;>
    obtain ⟨id, ty, src, tgt, ps, rfl, htyped, e', hr⟩ | ⟨htyped, ⟨e', happ', e'', hr⟩ | ⟨hex', happ', rfl⟩⟩ :=
      direct_cases hop
  · -- both refuse
    refine iff_of_true ⟨?_, ?_, ?_⟩ fun _ _ _ _ _ _ => .inr ?_ <;> simp [happ, hdrain, hr]
  · refine iff_of_true ⟨?_, ?_, ?_⟩ fun _ _ _ _ _ h => .inl (htyped _ _ _ _ _ h) <;>
      simp [hdrain, hr]
  · cases happ.symm.trans happ'
  · -- the method refuses the edge, the drain takes it
    refine iff_of_false (fun hagree => ?_) fun h => ?_
    · obtain ⟨hex', hr'⟩ := hagree.succeed.mp ⟨1, by rw [hdrain]⟩
      rw [hr] at hr'
      cases hr'
    · obtain ht | hno := h id ty src tgt ps rfl
      · exact htyped ht
      · exact hno ⟨hex, happ⟩
  · cases happ.symm.trans happ'
  · refine iff_of_true ⟨?_, ?_, ?_⟩ fun _ _ _ _ _ h => .inl (htyped _ _ _ _ _ h) <;>
      simp [hdrain]

end

open Sample in
/-- A node of a declared type goes through either door. -/
theorem doors_agree_iff_person :
    DoorsAgree ((freshStore "ann" guests).addNode env "bob" "person" "Bob" ∅ none)
      ((freshStore "ann" guests).drain (fun _ => env) ⟨[.addNode "bob" "person" none "Bob" ∅]⟩) := by
  have hs : Reachable (freshStore "ann" guests) := reachable_freshStore (by decide +kernel)
  exact (@doors_agree_iff _ _ (fun _ => env) _ _ hs rfl).mpr fun _ _ _ _ _ h => by cases h

open Sample in
/-- An edge between nodes that do not exist is refused by its method and drained into the
store. -/
theorem doors_disagree : ¬ ∀ (s : PyGraphStore) (env : ℕ → Env) (op : GraphOp)
    (r : Except PyErr String × PyGraphStore), Reachable s → s.direct (env 0) op = some r →
    DoorsAgree r (s.drain env ⟨[op]⟩) := by
  intro h
  have hs : Reachable (freshStore "ann" guests) := reachable_freshStore (by decide +kernel)
  have hagree := h (freshStore "ann" guests) (fun _ => env) (.addEdge "e" "knows" "ann" "bob" ∅) _ hs rfl
  have hdrained : ((freshStore "ann" guests).drain (fun _ => env)
      ⟨[.addEdge "e" "knows" "ann" "bob" ∅]⟩).1.isOk = true := by decide +kernel
  have hrefused : ((freshStore "ann" guests).addEdge env "e" "knows" "ann" "bob" ∅).1.isOk = false := by
    decide +kernel
  obtain ⟨n, hn⟩ : ∃ n, ((freshStore "ann" guests).drain (fun _ => env)
      ⟨[.addEdge "e" "knows" "ann" "bob" ∅]⟩).1 = .ok n := exists_ok_of_isOk hdrained
  obtain ⟨hex, hhex⟩ := hagree.succeed.mp ⟨n, hn⟩
  rw [hhex] at hrefused
  cases hrefused

end PyGraphStore

end SilkGraph
