import SilkGraph.GraphStore.Bootstrap
import SilkGraph.GraphStore.Conformance
import SilkGraph.GraphStore.Newest
import SilkGraph.GraphStore.ReadBack
import SilkGraph.GraphStore.Resolved
import SilkGraph.Ontology.Growth

/-!
# Time travel

`as_of` selects the entries by their clocks and rebuilds a graph from them. The ontology to
start from it folds itself, over the same entries: the last one defined or carried by a
checkpoint, with the extensions after it. The rebuild then folds the extensions on top of
it once more. So a view of the present can differ from the present in two ways: an entry may
be later than the clock of the store, and the second fold may end elsewhere than the fold
from the base of the store (`as_of_present`).
-/

namespace SilkGraph

open OpLog MaterializedGraph

/-- A read-only view of the graph at a historical time. -/
structure PyGraphSnapshot where
  graph : MaterializedGraph
  cutoffClock : ℕ × ℕ
  instanceId : String

/-- The first ontology among the operations of a checkpoint. -/
def carriedOntology (ops : List GraphOp) : Option Ontology :=
  ops.findSome? fun op => match op with
    | .defineOntology ontology => some ontology
    | _ => none

/-- What one entry does to the ontology `as_of` builds. An extension it does not accept goes
unnoticed, with what was merged of it. -/
def windowStep (ontology : Option Ontology) (entry : Entry) : Option Ontology :=
  match entry.payload with
  | .defineOntology ont => some ont
  | .checkpoint ops _ _ _ => (carriedOntology ops).or ontology
  | .extendOntology extension => ontology.map fun ont => (ont.mergeExtension extension).2
  | _ => ontology

/-- The ontology from the entries within the time window only. -/
def windowOntology (entries : List Entry) : Option Ontology := entries.foldl windowStep none

/-- The extensions of the log, folded once more over the ontology of its last root, lead to
the ontology the base leads to. -/
def Refolds (base : Ontology) (entries : List Entry) : Prop :=
  ∃ ontology, windowOntology entries = some ontology ∧
    declaredOntology ontology entries = declaredOntology base entries

/-! ### When the schema refolds -/

/-- The entry defines no ontology and carries none. -/
def Entry.rootless (e : Entry) : Bool := !e.payload.isDefineOntology && !e.payload.isCheckpoint

variable {base : Ontology} {e : Entry} {es rest : List Entry}

/-- On entries without a root both folds take the same steps. -/
theorem windowStep_of_rootless (he : e.rootless = true) (o : Ontology) :
    windowStep (some o) e = some (e.payload.declare o) := by
  obtain ⟨hash, payload, next, refs, clock, author, signature⟩ := e
  cases payload with
  | defineOntology => cases he
  | checkpoint => cases he
  | _ => rfl

theorem foldl_windowStep_of_rootless (hes : ∀ e ∈ es, e.rootless = true) (o : Ontology) :
    es.foldl windowStep (some o) = some (declaredOntology o es) := by
  induction es generalizing o with
  | nil => rfl
  | cons e es ih =>
    rw [List.foldl_cons, windowStep_of_rootless (hes e List.mem_cons_self)]
    exact ih (fun x hx => hes x (List.mem_cons_of_mem e hx)) _

/-- A log whose root is a checkpoint that carries one ontology always refolds. -/
theorem refolds_of_checkpoint {root : Entry} {ops : List GraphOp} {opClocks : List (ℕ × ℕ)} {p l : ℕ}
    {carried : Ontology} (hroot : root.payload = .checkpoint ops opClocks p l)
    (hfirst : carriedOntology ops = some carried) (hlast : ∀ o, root.payload.declare o = carried)
    (hrest : ∀ e ∈ rest, e.rootless = true) : Refolds base (root :: rest) := by
  refine ⟨declaredOntology carried rest, ?_, ?_⟩
  · rw [windowOntology, List.foldl_cons, ← foldl_windowStep_of_rootless hrest carried, windowStep, hroot]
    dsimp only
    rw [hfirst, Option.some_or]
  · have hdeclare : ∀ o, declaredOntology o (root :: rest) = declaredOntology carried rest := fun o => by
      rw [declaredOntology, List.foldl_cons, hlast]
      rfl
    rw [hdeclare, hdeclare]

namespace PyGraphStore

section

variable [Crates]

/-- The ontology `as_of` starts from: that of the window, else the one of the genesis. -/
def asOfOntology (self : PyGraphStore) (entries : List Entry) : Except PyErr Ontology :=
  match windowOntology entries with
  | some ontology => .ok ontology
  | none =>
    match self.oplog.entriesSince none with
    | none => .error .panic
    | some [] => .error (.runtimeError "no entries in oplog")
    | some (genesis :: _) => extractOntologyFromGenesis genesis

/-- A read-only view of the graph at a historical time. -/
def asOf (self : PyGraphStore) (env : Env) (physicalMs logical : ℕ) : Except PyErr PyGraphSnapshot :=
  match self.oplog.entriesAsOf physicalMs logical with
  | none => .error .panic
  | some entries =>
    match self.asOfOntology entries with
    | .error e => .error e
    | .ok ontology =>
      .ok {
        graph := (MaterializedGraph.new ontology).rebuild env.order entries
        cutoffClock := (physicalMs, logical)
        instanceId := self.instanceId }

/-- No entry of the log is later than the clock of the store. -/
def Covers (self : PyGraphStore) : Prop :=
  self.oplog.All fun _ e => e.clock.stamp ≤ self.clock.stamp

variable {s : PyGraphStore} {env : Env} {all : List Entry} {base : Ontology}

/-! ### Which entries are selected -/

end

end PyGraphStore

end SilkGraph
