import SilkGraph.Graph.Basic
import SilkGraph.Ontology.Extensions

/-!
# Rejected extensions in the graph

The graph takes over whatever ontology `merge_extension` leaves behind, accepted or not, both
when the entry is applied and when a rebuild folds it. An entry that ends up quarantined has
left the ontology alone if and only if the extension came to nothing (`LeavesNothing`).
-/

namespace SilkGraph

namespace MaterializedGraph

section

variable [Crates] {g : MaterializedGraph} {e : Entry} {x : OntologyExtension} {σ : HashOrder}

theorem apply_extendOntology (he : e.payload = .extendOntology x) :
    g.apply σ e = g.extendOntologyArm e x := by
  rw [apply, applyInner, he, applyPayload]

theorem ontology_extendOntologyArm :
    (g.extendOntologyArm e x).ontology = (g.ontology.mergeExtension x).2 := by
  rw [extendOntologyArm]
  split <;> rename_i heq <;> rw [heq] <;> rfl

/-- The entry is quarantined if the extension is rejected. -/
theorem mem_quarantined_extendOntologyArm :
    e.hash ∈ (g.extendOntologyArm e x).quarantined ↔ (g.ontology.mergeExtension x).1.isOk = false := by
  rw [extendOntologyArm]
  split
  · rename_i heq
    rw [heq]
    exact iff_of_true (HashMap.mem_insert.mpr (.inl rfl)) rfl
  · rename_i heq
    rw [heq]
    refine iff_of_false (fun hin => ?_) (by simp [Except.isOk, Except.toBool])
    exact (Std.ExtTreeMap.mem_erase.mp hin).1 (Std.compare_eq_iff_eq.mpr rfl)

theorem ontology_foldOntology (he : e.payload = .extendOntology x) :
    (g.foldOntology e).ontology = (g.ontology.mergeExtension x).2 := by
  rw [foldOntology, he]
  dsimp only
  split <;> rename_i heq <;> rw [heq] <;> rfl

/-- **Rejected extensions** leave the ontology as it was if and only if they come to nothing:
the ontology they are merged into, the one of a graph that quarantines their entry, and the
one that a rebuild folds. -/
theorem rejected_extension_iff (x : OntologyExtension) :
    (∀ o : Ontology, (o.mergeExtension x).1.isOk = false →
        ((o.mergeExtension x).2 = o ↔ o.LeavesNothing x)) ∧
      (∀ (g : MaterializedGraph) (σ : HashOrder) (e : Entry), e.payload = .extendOntology x →
        e.hash ∈ (g.apply σ e).quarantined →
        ((g.apply σ e).ontology = g.ontology ↔ g.ontology.LeavesNothing x)) ∧
      ∀ (g : MaterializedGraph) (e : Entry), e.payload = .extendOntology x →
        (g.ontology.mergeExtension x).1.isOk = false →
        ((g.foldOntology e).ontology = g.ontology ↔ g.ontology.LeavesNothing x) := by
  refine ⟨fun o herr => o.rejected_eq_self_iff x herr, fun g σ e he hquarantined => ?_,
    fun g e he herr => ?_⟩
  · rw [apply_extendOntology he] at hquarantined ⊢
    rw [mem_quarantined_extendOntologyArm] at hquarantined
    rw [ontology_extendOntologyArm]
    exact g.ontology.rejected_eq_self_iff x hquarantined
  · rw [ontology_foldOntology he]
    exact g.ontology.rejected_eq_self_iff x herr

end

end MaterializedGraph

namespace Sample

/-- Dogs once more, which are there already. -/
def dogs : OntologyExtension where
  nodeTypes := (∅ : BTreeMap String NodeTypeDef).insert "dog" { parentType := some "animal" }

/-- Cats, and that they are the source of an edge type that does not exist. -/
def chasers : OntologyExtension where
  nodeTypes := cats.nodeTypes
  edgeTypeUpdates := (∅ : BTreeMap String EdgeTypeUpdate).insert "chases" { addSourceTypes := ["cat"] }

end Sample

namespace MaterializedGraph

open Sample in
theorem rejected_extension_dogs :
    let e := Entry.new (.extendOntology dogs) [] [] ⟨"ann", 1, 0⟩ "ann"
    ((new pets).apply .keyOrder e).ontology = pets := by
  refine ((rejected_extension_iff dogs).2.1 (new pets) .keyOrder _ rfl ?_).mpr (.inl fun hfit => ?_)
  · decide
  · exact hfit.newNodes "dog" (by decide) (by decide)

open Sample in
/-- The entry is quarantined, and cats have become a type. -/
theorem chasers_rejected :
    (¬ ∀ (o : Ontology) (x : OntologyExtension), (o.mergeExtension x).1.isOk = false →
        (o.mergeExtension x).2 = o) ∧
      ¬ ∀ (g : MaterializedGraph) (e : Entry) (x : OntologyExtension), e.payload = .extendOntology x →
        e.hash ∈ (g.apply .keyOrder e).quarantined → (g.apply .keyOrder e).ontology = g.ontology := by
  constructor
  · intro h
    have heq := congrArg (fun o : Ontology => o.nodeTypes.contains "cat") (h pets chasers (by decide))
    exact absurd heq (by decide)
  · intro h
    have heq := congrArg (fun o : Ontology => o.nodeTypes.contains "cat")
      (h (new pets) (Entry.new (.extendOntology chasers) [] [] ⟨"ann", 1, 0⟩ "ann") chasers rfl (by decide))
    exact absurd heq (by decide)

end MaterializedGraph

end SilkGraph
