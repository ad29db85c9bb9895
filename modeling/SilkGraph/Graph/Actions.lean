import SilkGraph.Graph.Quarantine

/-!
# The actions of an entry

A checkpoint may hold checkpoints, so an entry is applied by a recursion. `Entry.actions`
writes the recursion out as a list: the entry itself, or for a checkpoint its operations one
after the other, each as an entry of its own, the ontologies it carries and the release of
its hash. To apply an entry is to run its actions (`applyInner_eq_actions`), and a graph is
rebuilt by running the actions of all entries (`rebuild_eq_actions`), so what every action
keeps is kept by an entry and holds after a rebuild.
-/

namespace SilkGraph

/-- One step of a replay. -/
inductive Action where
  /-- Apply an entry of the log that is no checkpoint. -/
  | entry (e : Entry)
  /-- Apply an operation of a checkpoint, as an entry of its own. -/
  | op (x : Entry)
  /-- Take over an ontology that a checkpoint carries. -/
  | adopt (ontology : Ontology)
  /-- Take the hash of a checkpoint out of quarantine. -/
  | release (hash : Hash)

variable [Crates]

mutual

/-- The actions of an operation of a checkpoint, given the entry that is made of it. -/
def GraphOp.innerActions (x : Entry) : GraphOp → List Action
  | .checkpoint ops opClocks _ _ => GraphOp.opsActions true x opClocks ops 0 ++ [.release x.hash]
  | _ => [.op x]

/-- The actions of the operations of a checkpoint from the `i`-th on. -/
def GraphOp.opsActions (adopt : Bool) (e : Entry) (opClocks : List (ℕ × ℕ)) :
    List GraphOp → ℕ → List Action
  | [], _ => []
  | .defineOntology ontology :: ops, i =>
    (if adopt then [.adopt ontology] else []) ++ GraphOp.opsActions adopt e opClocks ops (i + 1)
  | op :: ops, i =>
    op.innerActions (Entry.new op [] [] (MaterializedGraph.opClock e opClocks i) e.author) ++
      GraphOp.opsActions adopt e opClocks ops (i + 1)

end

/-- The actions of an entry of the log. -/
def Entry.actions (adopt : Bool) (e : Entry) : List Action :=
  match e.payload with
  | .checkpoint ops opClocks _ _ => GraphOp.opsActions adopt e opClocks ops 0 ++ [.release e.hash]
  | _ => [.entry e]

/-- The actions of the second pass of a rebuild. -/
def replayActions (es : List Entry) : List Action :=
  (es.filter fun e => !e.payload.isExtendOntology).flatMap (Entry.actions false)

/-- Run one action. -/
def Action.run (σ : HashOrder) (g : MaterializedGraph) : Action → MaterializedGraph
  | .entry e => g.applyInner σ e .full true
  | .op x => g.applyInner σ x .skipRequired true
  | .adopt ontology => { g with ontology }
  | .release hash => g.release hash

namespace MaterializedGraph

variable {σ : HashOrder} {g : MaterializedGraph} {e : Entry}

/-- Outside of checkpoints the flag for their ontologies does not matter. -/
theorem applyPayload_adopt {op : GraphOp} (h : op.isCheckpoint = false) (mode : ValidationMode)
    (adopt : Bool) (e : Entry) (g : MaterializedGraph) :
    applyPayload σ mode adopt e op g = applyPayload σ mode true e op g := by
  cases op with
  | checkpoint => cases h
  | _ => rw [applyPayload, applyPayload]

/-- One operation of a checkpoint, then the others. -/
theorem applyOps_cons (σ : HashOrder) (adopt : Bool) (e : Entry) (opClocks : List (ℕ × ℕ))
    (op : GraphOp) (ops : List GraphOp) (i : ℕ) (g : MaterializedGraph) :
    applyOps σ adopt e opClocks (op :: ops) i g =
      applyOps σ adopt e opClocks ops (i + 1) (applyOps σ adopt e opClocks [op] i g) := by
  cases op with
  | defineOntology => simp only [applyOps]
  | _ =>
    rw [applyOps, applyOps, applyOps]
    all_goals exact fun _ h => by cases h

theorem applyOps_singleton {op : GraphOp} (hop : op.isDefineOntology = false) (i : ℕ)
    (adopt : Bool) (opClocks : List (ℕ × ℕ)) :
    applyOps σ adopt e opClocks [op] i g = applyPayload σ .skipRequired true
      (Entry.new op [] [] (opClock e opClocks i) e.author) op g := by
  rw [applyOps, applyOps]
  rintro o rfl
  cases hop

mutual

theorem applyPayload_eq_innerActions (σ : HashOrder) (x : Entry) :
    ∀ (op : GraphOp) (g : MaterializedGraph), x.payload = op →
      applyPayload σ .skipRequired true x op g = (op.innerActions x).foldl (Action.run σ) g
  | .checkpoint ops opClocks _ _, g, _ => by
    rw [applyPayload, GraphOp.innerActions, List.foldl_append,
      applyOps_eq_opsActions σ true x opClocks ops 0 g]
    rfl
  | .defineOntology _, g, h | .addNode .., g, h | .addEdge .., g, h | .updateProperty .., g, h
  | .removeNode _, g, h | .removeEdge _, g, h | .extendOntology _, g, h | .defineLens _, g, h => by
    rw [GraphOp.innerActions]
    · rw [List.foldl_cons, List.foldl_nil, Action.run, applyInner, h]
    · nofun

theorem applyOps_eq_opsActions (σ : HashOrder) (adopt : Bool) (e : Entry) (opClocks : List (ℕ × ℕ)) :
    ∀ (ops : List GraphOp) (i : ℕ) (g : MaterializedGraph), applyOps σ adopt e opClocks ops i g =
      (GraphOp.opsActions adopt e opClocks ops i).foldl (Action.run σ) g
  | [], i, g => by
    rw [applyOps, GraphOp.opsActions, List.foldl_nil]
  | op :: ops, i, g => by
    have hrest := applyOps_eq_opsActions σ adopt e opClocks ops (i + 1)
    have hop := applyPayload_eq_innerActions σ
      (Entry.new op [] [] (opClock e opClocks i) e.author) op g rfl
    cases op with
    | defineOntology carried =>
      rw [applyOps, GraphOp.opsActions, List.foldl_append, hrest]
      cases adopt <;> rfl
    | _ =>
      rw [applyOps, GraphOp.opsActions, List.foldl_append, hrest, hop]
      all_goals exact fun _ h => by cases h

end

/-- To apply an entry is to run its actions. -/
theorem applyInner_eq_actions (g : MaterializedGraph) (σ : HashOrder) (e : Entry) (adopt : Bool) :
    g.applyInner σ e .full adopt = (e.actions adopt).foldl (Action.run σ) g := by
  rw [applyInner, Entry.actions]
  cases hp : e.payload with
  | checkpoint ops opClocks p l =>
    rw [applyPayload, List.foldl_append, applyOps_eq_opsActions σ adopt e opClocks ops 0 g]
    rfl
  | _ =>
    rw [applyPayload_adopt rfl]
    rw [List.foldl_cons, List.foldl_nil, Action.run, applyInner, hp]

/-- The second pass of a rebuild runs the actions of all entries. -/
theorem foldl_materialize_eq_actions (σ : HashOrder) (es : List Entry) (g : MaterializedGraph) :
    es.foldl (materialize σ) g = (replayActions es).foldl (Action.run σ) g := by
  rw [replayActions]
  induction es generalizing g with
  | nil => rfl
  | cons e es ih =>
    rw [List.foldl_cons, ih, materialize]
    cases he : e.payload.isExtendOntology with
    | true => simp [he]
    | false => simp [he, applyInner_eq_actions]

theorem rebuild_eq_actions (g : MaterializedGraph) (σ : HashOrder) (es : List Entry) :
    g.rebuild σ es =
      (replayActions es).foldl (Action.run σ) (es.foldl foldOntology (new g.baseOntology)) :=
  foldl_materialize_eq_actions σ es _

end MaterializedGraph

end SilkGraph
