import SilkGraph.Data.Entry

/-!
# The ontology: validation and extension

`ontology.rs`. The validators return the first complaint they come across, so the order in
which they walk their maps, which is key order, is part of what they compute.
`merge_extension` mutates while it still validates; a rejected extension can leave new node
types behind, and the model returns the ontology it leaves in either case.
-/

namespace SilkGraph

/-- The constraint names the validator enforces. -/
def enforcedConstraints : List String :=
  ["enum", "min", "max", "min_exclusive", "max_exclusive", "min_length", "max_length", "pattern"]

/-- The prefix reserved for constraints this validator does not enforce. -/
def unenforcedConstraintPrefix : String := "x_"

/-- What a materialization pass enforces. -/
inductive ValidationMode where
  /-- Required properties, declared types, constraints, endpoints. -/
  | full
  /-- All of these except that required properties are present. -/
  | skipRequired
  deriving DecidableEq

/-- The name of a value type in the text of an error. -/
def ValueType.debug : ValueType → String
  | string => "String"
  | int => "Int"
  | float => "Float"
  | bool => "Bool"
  | list => "List"
  | map => "Map"
  | any => "Any"

/-- Why an operation violates the ontology. -/
inductive ValidationError where
  | unknownNodeType (nodeType : String)
  | unknownEdgeType (edgeType : String)
  | invalidSource (edgeType nodeType : String) (allowed : List String)
  | invalidTarget (edgeType nodeType : String) (allowed : List String)
  | missingRequiredProperty (typeName property : String)
  | wrongPropertyType (typeName property : String) (expected : ValueType) (got : String)
  | unknownProperty (typeName property : String)
  | missingSubtype (nodeType : String) (allowed : List String)
  | unknownSubtype (nodeType subtype : String) (allowed : List String)
  | unexpectedSubtype (nodeType subtype : String)
  | constraintViolation (typeName property constraint message : String)
  | unknownConstraint (typeName property constraint : String) (known : List String)
  deriving DecidableEq

/-- Why an extension is not an additive one. -/
inductive MonotonicityError where
  | duplicateNodeType (nodeType : String)
  | duplicateEdgeType (edgeType : String)
  | unknownNodeType (nodeType : String)
  | unknownEdgeType (edgeType : String)
  | unknownBindingType (edgeType nodeType : String)
  | duplicateBinding (edgeType nodeType : String)
  | emptyExtension
  | duplicateProperty (typeName property : String)
  | unknownProperty (typeName property : String)
  | validationFailed (err : ValidationError)
  deriving DecidableEq

section Display

variable [Crates]

/-- The debug rendering of a list of strings. -/
def debugStrings (l : List String) : String :=
  "[" ++ ", ".intercalate (l.map Crates.debugString) ++ "]"

/-- The text of a validation error. -/
def ValidationError.display : ValidationError → String
  | unknownNodeType t => s!"unknown node type: '{t}'"
  | unknownEdgeType t => s!"unknown edge type: '{t}'"
  | invalidSource edgeType nodeType allowed =>
    s!"edge '{edgeType}' cannot have source type '{nodeType}' (allowed: {debugStrings allowed})"
  | invalidTarget edgeType nodeType allowed =>
    s!"edge '{edgeType}' cannot have target type '{nodeType}' (allowed: {debugStrings allowed})"
  | missingRequiredProperty typeName property => s!"'{typeName}' requires property '{property}'"
  | wrongPropertyType typeName property expected got =>
    s!"'{typeName}'.'{property}' expects {expected.debug}, got {got}"
  | unknownProperty typeName property =>
    s!"'{typeName}' has no property '{property}' in ontology"
  | missingSubtype nodeType allowed =>
    s!"'{nodeType}' requires a subtype (allowed: {debugStrings allowed})"
  | unknownSubtype nodeType subtype allowed =>
    s!"'{nodeType}' has no subtype '{subtype}' (allowed: {debugStrings allowed})"
  | unexpectedSubtype nodeType subtype =>
    s!"'{nodeType}' does not define subtypes, but got subtype '{subtype}'"
  | constraintViolation typeName property constraint message =>
    s!"'{typeName}'.'{property}' violates constraint '{constraint}': {message}"
  | unknownConstraint typeName property constraint known =>
    s!"'{typeName}'.'{property}' declares unknown constraint '{constraint}' (enforced: " ++
      ", ".intercalate known ++ "); nothing would check it. Prefix it '" ++
      unenforcedConstraintPrefix ++ "' to declare it deliberately unenforced."

/-- The text of a monotonicity error. -/
def MonotonicityError.display : MonotonicityError → String
  | duplicateNodeType t => s!"node type '{t}' already exists"
  | duplicateEdgeType t => s!"edge type '{t}' already exists"
  | unknownNodeType t => s!"cannot update unknown node type '{t}'"
  | unknownEdgeType t => s!"cannot update unknown edge type '{t}'"
  | unknownBindingType edgeType nodeType =>
    s!"edge type '{edgeType}' cannot bind to unknown node type '{nodeType}'"
  | duplicateBinding edgeType nodeType =>
    s!"edge type '{edgeType}' already binds '{nodeType}'; this extension would change nothing"
  | emptyExtension =>
    "extension expresses no change; nothing would be added. An extension that changes " ++
      "nothing must not be written to the log"
  | duplicateProperty typeName property => s!"property '{property}' already exists on '{typeName}'"
  | unknownProperty typeName property =>
    s!"property '{property}' does not exist on '{typeName}' (cannot relax)"
  | validationFailed e => "ontology validation failed after merge: " ++ e.display

end Display

/-- `BTreeMap::extend`: the later value of a key wins. -/
def BTreeMap.extend {V : Type} (self other : BTreeMap String V) : BTreeMap String V :=
  other.toList.foldl (fun m kv => m.insert kv.1 kv.2) self

/-! ### Values against property definitions -/

/-- The name of a value's type in the text of an error. -/
def valueTypeName : Value → String
  | .null => "null"
  | .bool _ => "bool"
  | .int _ => "int"
  | .float _ => "float"
  | .string _ => "string"
  | .list _ => "list"
  | .map _ => "map"

/-- Null fits every type, and every value fits `any`. -/
def valueMatchesType (value : Value) (expected : ValueType) : Bool :=
  match value, expected with
  | .null, _ => true
  | .string _, .string => true
  | .int _, .int => true
  | .float _, .float => true
  | .bool _, .bool => true
  | .list _, .list => true
  | .map _, .map => true
  | _, .any => true
  | _, _ => false

/-- The number of a numeric value. -/
def valueAsF64 : Value → Option F64
  | .int n => some (F64.ofInt n)
  | .float x => some x
  | _ => none

/-- A constraint violation, as a result. -/
def constraintErr (typeName propName constraint message : String) : Except ValidationError Unit :=
  .error (.constraintViolation typeName propName constraint message)

/-- Check a numeric bound; it applies only to numbers, and only if it is one itself. -/
def checkNumericBound (typeName propName : String) (value : Value)
    (constraints : BTreeMap String Json) (key : String) (violates : F64 → F64 → Bool)
    (msg : F64 → F64 → String) : Except ValidationError Unit :=
  match constraints[key]?.bind Json.asF64, valueAsF64 value with
  | some bound, some n =>
    if violates n bound then constraintErr typeName propName key (msg n bound) else .ok ()
  | _, _ => .ok ()

/-- Check a bound on the byte length of a string. -/
def checkStringLength (typeName propName : String) (value : Value)
    (constraints : BTreeMap String Json) (key : String) (violates : ℕ → ℕ → Bool)
    (msg : ℕ → ℕ → String) : Except ValidationError Unit :=
  match constraints[key]?, value with
  | some (.number n), .string s =>
    match n.asU64 with
    | some bound =>
      if violates s.utf8ByteSize bound then
        constraintErr typeName propName key (msg s.utf8ByteSize bound)
      else .ok ()
    | none => .ok ()
  | _, _ => .ok ()

variable [Crates]

/-- The `enum` constraint: only the strings of the list are allowed. -/
def checkEnum (typeName propName : String) (value : Value) (constraints : BTreeMap String Json) :
    Except ValidationError Unit :=
  match constraints["enum"]?, value with
  | some (.array allowed), .string s =>
    let allowedStrs := allowed.filterMap Json.asStr
    if allowedStrs.contains s then .ok ()
    else constraintErr typeName propName "enum"
      s!"value '{s}' not in allowed set {debugStrings allowedStrs}"
  | _, _ => .ok ()

/-- The `pattern` constraint; a pattern that is no regular expression fails every string. -/
def checkPattern (typeName propName : String) (value : Value)
    (constraints : BTreeMap String Json) : Except ValidationError Unit :=
  match constraints["pattern"]?, value with
  | some (.string pattern), .string s =>
    match Crates.regexIsMatch pattern s with
    | .ok true => .ok ()
    | .ok false => constraintErr typeName propName "pattern"
        s!"value '{s}' does not match pattern '{pattern}'"
    | .error e => constraintErr typeName propName "pattern"
        s!"invalid regex pattern '{pattern}': {e}"
  | _, _ => .ok ()

/-- Validate a property value against its constraints. Names it does not know are ignored. -/
def validateConstraints (typeName propName : String) (value : Value)
    (constraints : BTreeMap String Json) : Except ValidationError Unit := do
  checkEnum typeName propName value constraints
  checkNumericBound typeName propName value constraints "min" (fun n b => F64.lt n b)
    fun n b => s!"value {Crates.displayF64 n} is less than minimum {Crates.displayF64 b}"
  checkNumericBound typeName propName value constraints "max" (fun n b => F64.lt b n)
    fun n b => s!"value {Crates.displayF64 n} exceeds maximum {Crates.displayF64 b}"
  checkNumericBound typeName propName value constraints "min_exclusive" (fun n b => F64.le n b)
    fun n b => s!"value {Crates.displayF64 n} must be greater than {Crates.displayF64 b}"
  checkNumericBound typeName propName value constraints "max_exclusive" (fun n b => F64.le b n)
    fun n b => s!"value {Crates.displayF64 n} must be less than {Crates.displayF64 b}"
  checkStringLength typeName propName value constraints "min_length" (fun len b => len < b)
    fun len b => s!"string length {len} is less than minimum {b}"
  checkStringLength typeName propName value constraints "max_length" (fun len b => b < len)
    fun len b => s!"string length {len} exceeds maximum {b}"
  checkPattern typeName propName value constraints

/-- Validate one value against the definition of its property: declared type, then
constraints. -/
def validateValue (typeName propName : String) (propDef : PropertyDef) (value : Value) :
    Except ValidationError Unit :=
  if propDef.valueType ≠ .any ∧ !valueMatchesType value propDef.valueType then
    .error (.wrongPropertyType typeName propName propDef.valueType (valueTypeName value))
  else match propDef.constraints with
    | some constraints => validateConstraints typeName propName value constraints
    | none => .ok ()

omit [Crates] in
/-- The first required property without a value. -/
def checkRequired (typeName : String) (defs : BTreeMap String PropertyDef)
    (values : BTreeMap String Value) : Except ValidationError Unit :=
  defs.toList.forM fun (propName, propDef) =>
    if propDef.required && !values.contains propName then
      .error (.missingRequiredProperty typeName propName)
    else .ok ()

/-- Validate properties against their definitions; properties without one are accepted. -/
def validateProperties (typeName : String) (defs : BTreeMap String PropertyDef)
    (values : BTreeMap String Value) (mode : ValidationMode) : Except ValidationError Unit := do
  if mode = .full then checkRequired typeName defs values
  values.toList.forM fun (propName, value) =>
    match defs[propName]? with
    | some propDef => validateValue typeName propName propDef value
    | none => .ok ()

namespace Ontology

/-! ### The class hierarchy -/

omit [Crates] in
/-- The chain of parent types, at most so many. -/
def ancestorsLoop (self : Ontology) : ℕ → String → List String
  | 0, _ => []
  | n + 1, current =>
    match self.nodeTypes[current]?.bind NodeTypeDef.parentType with
    | some parent => parent :: self.ancestorsLoop n parent
    | none => []

omit [Crates] in
/-- All ancestor types, nearest first; the walk stops after a hundred. -/
def ancestors (self : Ontology) (nodeType : String) : List String :=
  self.ancestorsLoop 100 nodeType

omit [Crates] in
/-- All types whose chain of ancestors holds the given one. -/
def descendants (self : Ontology) (nodeType : String) : List String :=
  self.nodeTypes.keys.filter fun name =>
    name != nodeType && (self.ancestors name).contains nodeType

omit [Crates] in
/-- The same type, or a descendant of it. -/
def isSubtypeOf (self : Ontology) (childType parentType : String) : Bool :=
  childType == parentType || (self.ancestors childType).contains parentType

omit [Crates] in
/-- All properties of a type: those of its ancestors, overridden by the more specific. -/
def effectiveProperties (self : Ontology) (nodeType : String) : BTreeMap String PropertyDef :=
  ((self.ancestors nodeType).reverse ++ [nodeType]).foldl
    (fun props t => match self.nodeTypes[t]? with
      | some d => props.extend d.properties
      | none => props) ∅

/-! ### Validation of operations -/

/-- Validate that a node type exists and its properties conform. A declared subtype adds its
own properties, an undeclared one is accepted, and a type with subtypes requires one. -/
def validateNodeMode (self : Ontology) (nodeType : String) (subtype : Option String)
    (properties : BTreeMap String Value) (mode : ValidationMode) : Except ValidationError Unit :=
  match self.nodeTypes[nodeType]? with
  | none => .error (.unknownNodeType nodeType)
  | some d =>
    let baseProps := self.effectiveProperties nodeType
    match d.subtypes, subtype with
    | some subtypes, some st =>
      match subtypes[st]? with
      | some stDef => validateProperties nodeType (baseProps.extend stDef.properties) properties mode
      | none => validateProperties nodeType baseProps properties mode
    | some subtypes, none => .error (.missingSubtype nodeType subtypes.keys)
    | none, _ => validateProperties nodeType baseProps properties mode

/-- Validate a node with everything enforced. -/
def validateNode (self : Ontology) (nodeType : String) (subtype : Option String)
    (properties : BTreeMap String Value) : Except ValidationError Unit :=
  self.validateNodeMode nodeType subtype properties .full

/-- Validate that an edge type exists, that its endpoints are allowed, and that its
properties conform. -/
def validateEdgeMode (self : Ontology) (edgeType sourceNodeType targetNodeType : String)
    (properties : BTreeMap String Value) (mode : ValidationMode) : Except ValidationError Unit :=
  match self.edgeTypes[edgeType]? with
  | none => .error (.unknownEdgeType edgeType)
  | some d =>
    if !d.sourceTypes.any fun t => self.isSubtypeOf sourceNodeType t then
      .error (.invalidSource edgeType sourceNodeType d.sourceTypes)
    else if !d.targetTypes.any fun t => self.isSubtypeOf targetNodeType t then
      .error (.invalidTarget edgeType targetNodeType d.targetTypes)
    else validateProperties edgeType d.properties properties mode

/-- Validate an edge with everything enforced. -/
def validateEdge (self : Ontology) (edgeType sourceNodeType targetNodeType : String)
    (properties : BTreeMap String Value) : Except ValidationError Unit :=
  self.validateEdgeMode edgeType sourceNodeType targetNodeType properties .full

/-- Validate a single property update on an edge. -/
def validateEdgePropertyUpdate (self : Ontology) (edgeType key : String) (value : Value) :
    Except ValidationError Unit :=
  match self.edgeTypes[edgeType]? with
  | none => .ok ()
  | some d =>
    match d.properties[key]? with
    | none => .ok ()
    | some propDef => validateValue edgeType key propDef value

/-- Validate a single property update on a node: against the definitions of the type itself
and of its subtype, not against inherited ones. -/
def validatePropertyUpdate (self : Ontology) (nodeType : String) (subtype : Option String)
    (key : String) (value : Value) : Except ValidationError Unit :=
  match self.nodeTypes[nodeType]? with
  | none => .ok ()
  | some d =>
    let merged : BTreeMap String PropertyDef :=
      match d.subtypes, subtype with
      | some subtypes, some st =>
        match subtypes[st]? with
        | some stDef => d.properties.extend stDef.properties
        | none => d.properties
      | _, _ => d.properties
    match merged[key]? with
    | none => .ok ()
    | some propDef => validateValue nodeType key propDef value

/-! ### Internal consistency -/

omit [Crates] in
/-- The first constraint name that is neither enforced nor declared unenforced. -/
def checkConstraintNames (typeName propName : String) (propDef : PropertyDef) :
    Except ValidationError Unit :=
  match propDef.constraints with
  | none => .ok ()
  | some constraints =>
    constraints.keys.forM fun cname =>
      if enforcedConstraints.contains cname || cname.startsWith unenforcedConstraintPrefix then
        .ok ()
      else .error (.unknownConstraint typeName propName cname enforcedConstraints)

omit [Crates] in
/-- Validate that the ontology is internally consistent: endpoints and parents exist, and
every constraint name is known. -/
def validateSelf (self : Ontology) : Except ValidationError Unit := do
  self.edgeTypes.toList.forM fun (edgeName, d) => do
    d.sourceTypes.forM fun src =>
      if self.nodeTypes.contains src then .ok ()
      else .error (.invalidSource edgeName src self.nodeTypes.keys)
    d.targetTypes.forM fun tgt =>
      if self.nodeTypes.contains tgt then .ok ()
      else .error (.invalidTarget edgeName tgt self.nodeTypes.keys)
  self.nodeTypes.toList.forM fun (typeName, d) =>
    match d.parentType with
    | some parent =>
      if self.nodeTypes.contains parent then .ok ()
      else .error (.unknownNodeType s!"{typeName}: parent_type '{parent}' does not exist")
    | none => .ok ()
  self.nodeTypes.toList.forM fun (typeName, d) => do
    d.properties.toList.forM fun (propName, propDef) =>
      checkConstraintNames typeName propName propDef
    match d.subtypes with
    | some subtypes =>
      subtypes.toList.forM fun (subName, subDef) =>
        subDef.properties.toList.forM fun (propName, propDef) =>
          checkConstraintNames s!"{typeName}:{subName}" propName propDef
    | none => .ok ()
  self.edgeTypes.toList.forM fun (edgeName, d) =>
    d.properties.toList.forM fun (propName, propDef) =>
      checkConstraintNames edgeName propName propDef

end Ontology

/-! ### Monotonic extension -/

namespace OntologyExtension

omit [Crates] in
/-- The extension expresses no change. -/
def isEmpty (ext : OntologyExtension) : Bool :=
  ext.nodeTypes.isEmpty && ext.edgeTypes.isEmpty &&
    (ext.nodeTypeUpdates.toList.all fun (_, u) =>
      u.addProperties.isEmpty && u.relaxProperties.isEmpty && u.addSubtypes.isEmpty) &&
    ext.edgeTypeUpdates.toList.all fun (_, u) =>
      u.addSourceTypes.isEmpty && u.addTargetTypes.isEmpty && u.addProperties.isEmpty

end OntologyExtension

namespace Ontology

omit [Crates] in
/-- What `merge_extension` checks before it changes anything: the new types are new, and the
updates of node types make sense. -/
def checkNodeExtension (self : Ontology) (ext : OntologyExtension) :
    Except MonotonicityError Unit := do
  if ext.isEmpty then .error .emptyExtension
  ext.nodeTypes.keys.forM fun name =>
    if self.nodeTypes.contains name then .error (.duplicateNodeType name) else .ok ()
  ext.edgeTypes.keys.forM fun name =>
    if self.edgeTypes.contains name then .error (.duplicateEdgeType name) else .ok ()
  ext.nodeTypeUpdates.toList.forM fun (typeName, update) =>
    match self.nodeTypes[typeName]? with
    | none => .error (.unknownNodeType typeName)
    | some d => do
      update.addProperties.keys.forM fun propName =>
        if d.properties.contains propName then .error (.duplicateProperty typeName propName)
        else .ok ()
      update.relaxProperties.forM fun propName =>
        if d.properties.contains propName then .ok ()
        else .error (.unknownProperty typeName propName)
      match d.subtypes with
      | some existing =>
        update.addSubtypes.keys.forM fun stName =>
          if existing.contains stName then
            .error (.duplicateProperty typeName s!"subtype:{stName}")
          else .ok ()
      | none => .ok ()

omit [Crates] in
/-- The updates of edge types, checked once the new node types are in. -/
def checkEdgeUpdates (self : Ontology) (ext : OntologyExtension) : Except MonotonicityError Unit :=
  ext.edgeTypeUpdates.toList.forM fun (edgeName, update) =>
    match self.edgeTypes[edgeName]? with
    | none => .error (.unknownEdgeType edgeName)
    | some d => do
      [(update.addSourceTypes, d.sourceTypes), (update.addTargetTypes, d.targetTypes)].forM
        fun (bindings, existing) =>
          bindings.forM fun nodeType =>
            if !self.nodeTypes.contains nodeType && !ext.nodeTypes.contains nodeType then
              .error (.unknownBindingType edgeName nodeType)
            else if existing.contains nodeType then .error (.duplicateBinding edgeName nodeType)
            else .ok ()
      update.addProperties.keys.forM fun propName =>
        if d.properties.contains propName then .error (.duplicateProperty edgeName propName)
        else .ok ()

omit [Crates] in
/-- Widen an existing edge type. -/
def widenEdgeType (d : EdgeTypeDef) (update : EdgeTypeUpdate) : EdgeTypeDef :=
  { d with
    sourceTypes := d.sourceTypes ++ update.addSourceTypes
    targetTypes := d.targetTypes ++ update.addTargetTypes
    properties := d.properties.extend update.addProperties }

omit [Crates] in
/-- Relax a property from required to optional. -/
def relaxProperty (properties : BTreeMap String PropertyDef) (propName : String) :
    BTreeMap String PropertyDef :=
  match properties[propName]? with
  | some propDef => properties.insert propName { propDef with required := false }
  | none => properties

omit [Crates] in
/-- Update an existing node type: add properties, relax, add subtypes. -/
def updateNodeType (d : NodeTypeDef) (update : NodeTypeUpdate) : NodeTypeDef :=
  { d with
    properties := update.relaxProperties.foldl relaxProperty
      (d.properties.extend update.addProperties)
    subtypes := if update.addSubtypes.isEmpty then d.subtypes
      else some ((d.subtypes.getD ∅).extend update.addSubtypes) }

omit [Crates] in
/-- Apply an update to the definition stored under a name. -/
def updateAt {D U : Type} (f : D → U → D) (types : BTreeMap String D) (update : String × U) :
    BTreeMap String D :=
  match types[update.1]? with
  | some d => types.insert update.1 (f d update.2)
  | none => types

omit [Crates] in
/-- The part of an extension that is applied once all of it is checked: the new edge types,
then the updates of edge types and of node types. -/
def applyUpdates (self : Ontology) (ext : OntologyExtension) : Ontology where
  nodeTypes := ext.nodeTypeUpdates.toList.foldl (updateAt updateNodeType) self.nodeTypes
  edgeTypes := ext.edgeTypeUpdates.toList.foldl (updateAt widenEdgeType)
    (self.edgeTypes.extend ext.edgeTypes)

omit [Crates] in
/-- Merge an additive extension. The new node types go in before the updates of edge types
are checked, and everything goes in before the result is checked for consistency. -/
def mergeExtension (self : Ontology) (ext : OntologyExtension) :
    Except MonotonicityError Unit × Ontology :=
  match self.checkNodeExtension ext with
  | .error err => (.error err, self)
  | .ok () =>
    let self := { self with nodeTypes := self.nodeTypes.extend ext.nodeTypes }
    match self.checkEdgeUpdates ext with
    | .error err => (.error err, self)
    | .ok () =>
      let self := self.applyUpdates ext
      (self.validateSelf.mapError .validationFailed, self)

end Ontology

end SilkGraph
