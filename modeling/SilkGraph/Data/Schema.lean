import SilkGraph.Data.Value

/-!
# The ontology and its extensions, as data

The records of `ontology.rs`. Descriptions are kept: they are part of an ontology's content
hash. What the validators and `merge_extension` compute from them is in
`SilkGraph.Ontology`.
-/

namespace SilkGraph

/-- The type of a property value. -/
inductive ValueType where
  | string
  | int
  | float
  | bool
  | list
  | map
  | any
  deriving DecidableEq, Repr

/-- Definition of a single property on a node or edge type. -/
structure PropertyDef where
  valueType : ValueType
  required : Bool := false
  description : Option String := none
  constraints : Option (BTreeMap String Json) := none

/-- Definition of a subtype within a node type. -/
structure SubtypeDef where
  description : Option String := none
  properties : BTreeMap String PropertyDef := ∅

/-- Definition of a node type in the ontology. -/
structure NodeTypeDef where
  description : Option String := none
  properties : BTreeMap String PropertyDef := ∅
  /-- When present, a node of the type must name a subtype. -/
  subtypes : Option (BTreeMap String SubtypeDef) := none
  /-- The class hierarchy: the type this one is a subclass of. -/
  parentType : Option String := none

/-- Definition of an edge type in the ontology. -/
structure EdgeTypeDef where
  description : Option String := none
  sourceTypes : List String
  targetTypes : List String
  properties : BTreeMap String PropertyDef := ∅

/-- The vocabulary and rules of a graph. -/
structure Ontology where
  nodeTypes : BTreeMap String NodeTypeDef
  edgeTypes : BTreeMap String EdgeTypeDef

/-- Additive update to an existing node type. -/
structure NodeTypeUpdate where
  addProperties : BTreeMap String PropertyDef := ∅
  /-- Properties to relax from required to optional. -/
  relaxProperties : List String := []
  addSubtypes : BTreeMap String SubtypeDef := ∅

/-- Monotonic update to an existing edge type. -/
structure EdgeTypeUpdate where
  addSourceTypes : List String := []
  addTargetTypes : List String := []
  addProperties : BTreeMap String PropertyDef := ∅

/-- An additive ontology extension. -/
structure OntologyExtension where
  nodeTypes : BTreeMap String NodeTypeDef := ∅
  edgeTypes : BTreeMap String EdgeTypeDef := ∅
  nodeTypeUpdates : BTreeMap String NodeTypeUpdate := ∅
  edgeTypeUpdates : BTreeMap String EdgeTypeUpdate := ∅

end SilkGraph
