import SilkGraph.Data.Derived
import SilkGraph.Data.Schema

/-!
# Ontologies and extensions in JSON

The derived `Serialize` and `Deserialize` of the records of `ontology.rs`. Every field is written.
Most have `#[serde(default)]`, so a document may leave them out, and a name that no field has is
passed over.
-/

namespace SilkGraph

open Json

namespace ValueType

/-- The name of a variant, in snake case. -/
def rename : ValueType → String
  | string => "string"
  | int => "int"
  | float => "float"
  | bool => "bool"
  | list => "list"
  | map => "map"
  | any => "any"

def ofName (name : String) : Except String ValueType :=
  match [string, int, float, bool, list, map, any].find? fun t => t.rename == name with
  | some t => .ok t
  | none => .error s!"unknown variant `{name}`"

/-- A variant without data is its name, or an object that has `null` under it. -/
def read : Json → Except String ValueType
  | .string name => ofName name
  | .object [(name, .null)] => ofName name
  | _ => .error "invalid type: expected an enum"

def derived : Derived ValueType where
  write t := .string t.rename
  read := read
  trees _ := []
  levels := 0
  read_write t _ := by cases t <;> rfl
  doubles_write _ _ h := absurd h List.not_mem_nil
  depth_write _ _ _ := Nat.zero_le _

end ValueType

/-! ### The records -/

namespace Derived

/-- `Option<String>`. -/
def optString : Derived (Option String) := string.option fun _ h => by cases h

/-- `Vec<String>`. -/
def strings : Derived (List String) := string.list

/-- `Option<BTreeMap<String, serde_json::Value>>`. -/
def optTrees : Derived (Option (BTreeMap String Json)) := tree.map.option fun _ h => by cases h

end Derived

namespace PropertyDef

open Derived

def fields : List (Field PropertyDef) :=
  [ValueType.derived.field "value_type" (·.valueType), Derived.bool.field "required" (·.required),
    optString.field "description" (·.description), optTrees.field "constraints" (·.constraints)]

def read (kvs : List (String × Json)) : Except String PropertyDef := do
  let valueType ← Json.required kvs "value_type" ValueType.derived.read
  let required ← Json.orDefault kvs "required" Derived.bool.read false
  let description ← Json.orDefault kvs "description" optString.read none
  let constraints ← Json.orDefault kvs "constraints" optTrees.read none
  pure { valueType, required, description, constraints }

def derived : Derived PropertyDef := record fields read 1 (by simp only [fields, List.forall_mem_cons]; decide)
  fun x hx => by
    have nodup : (fields.map Field.name).Nodup := by decide
    rw [read, required_entries (d := ValueType.derived) nodup (.head _) hx,
      orDefault_entries (d := Derived.bool) nodup (.tail _ (.head _)) hx,
      orDefault_entries (d := optString) nodup (.tail _ (.tail _ (.head _))) hx,
      orDefault_entries (d := optTrees) nodup (.tail _ (.tail _ (.tail _ (.head _)))) hx]
    rfl

end PropertyDef

namespace SubtypeDef

open Derived

def fields : List (Field SubtypeDef) :=
  [optString.field "description" (·.description), PropertyDef.derived.map.field "properties" (·.properties)]

def read (kvs : List (String × Json)) : Except String SubtypeDef := do
  let description ← Json.orDefault kvs "description" optString.read none
  let properties ← Json.orDefault kvs "properties" PropertyDef.derived.map.read ∅
  pure { description, properties }

def derived : Derived SubtypeDef := record fields read 3 (by simp only [fields, List.forall_mem_cons]; decide)
  fun x hx => by
    have nodup : (fields.map Field.name).Nodup := by decide
    rw [read, orDefault_entries (d := optString) nodup (.head _) hx,
      orDefault_entries (d := PropertyDef.derived.map) nodup (.tail _ (.head _)) hx]
    rfl

end SubtypeDef

namespace NodeTypeDef

open Derived

def optSubtypes : Derived (Option (BTreeMap String SubtypeDef)) := SubtypeDef.derived.map.option fun _ h => by cases h

def fields : List (Field NodeTypeDef) :=
  [optString.field "description" (·.description), PropertyDef.derived.map.field "properties" (·.properties),
    optSubtypes.field "subtypes" (·.subtypes), optString.field "parent_type" (·.parentType)]

def read (kvs : List (String × Json)) : Except String NodeTypeDef := do
  let description ← Json.orDefault kvs "description" optString.read none
  let properties ← Json.orDefault kvs "properties" PropertyDef.derived.map.read ∅
  let subtypes ← Json.orDefault kvs "subtypes" optSubtypes.read none
  let parentType ← Json.orDefault kvs "parent_type" optString.read none
  pure { description, properties, subtypes, parentType }

def derived : Derived NodeTypeDef := record fields read 5 (by simp only [fields, List.forall_mem_cons]; decide)
  fun x hx => by
    have nodup : (fields.map Field.name).Nodup := by decide
    rw [read, orDefault_entries (d := optString) nodup (.head _) hx,
      orDefault_entries (d := PropertyDef.derived.map) nodup (.tail _ (.head _)) hx,
      orDefault_entries (d := optSubtypes) nodup (.tail _ (.tail _ (.head _))) hx,
      orDefault_entries (d := optString) nodup (.tail _ (.tail _ (.tail _ (.head _)))) hx]
    rfl

end NodeTypeDef

namespace EdgeTypeDef

open Derived

def fields : List (Field EdgeTypeDef) :=
  [optString.field "description" (·.description), strings.field "source_types" (·.sourceTypes),
    strings.field "target_types" (·.targetTypes), PropertyDef.derived.map.field "properties" (·.properties)]

def read (kvs : List (String × Json)) : Except String EdgeTypeDef := do
  let description ← Json.orDefault kvs "description" optString.read none
  let sourceTypes ← Json.required kvs "source_types" strings.read
  let targetTypes ← Json.required kvs "target_types" strings.read
  let properties ← Json.orDefault kvs "properties" PropertyDef.derived.map.read ∅
  pure { description, sourceTypes, targetTypes, properties }

def derived : Derived EdgeTypeDef := record fields read 3 (by simp only [fields, List.forall_mem_cons]; decide)
  fun x hx => by
    have nodup : (fields.map Field.name).Nodup := by decide
    rw [read, orDefault_entries (d := optString) nodup (.head _) hx,
      required_entries (d := strings) nodup (.tail _ (.head _)) hx,
      required_entries (d := strings) nodup (.tail _ (.tail _ (.head _))) hx,
      orDefault_entries (d := PropertyDef.derived.map) nodup (.tail _ (.tail _ (.tail _ (.head _)))) hx]
    rfl

end EdgeTypeDef

namespace Ontology

open Derived

def fields : List (Field Ontology) :=
  [NodeTypeDef.derived.map.field "node_types" (·.nodeTypes),
    EdgeTypeDef.derived.map.field "edge_types" (·.edgeTypes)]

def read (kvs : List (String × Json)) : Except String Ontology := do
  let nodeTypes ← Json.required kvs "node_types" NodeTypeDef.derived.map.read
  let edgeTypes ← Json.required kvs "edge_types" EdgeTypeDef.derived.map.read
  pure { nodeTypes, edgeTypes }

def derived : Derived Ontology := record fields read 7 (by simp only [fields, List.forall_mem_cons]; decide)
  fun x hx => by
    have nodup : (fields.map Field.name).Nodup := by decide
    rw [read, required_entries (d := NodeTypeDef.derived.map) nodup (.head _) hx,
      required_entries (d := EdgeTypeDef.derived.map) nodup (.tail _ (.head _)) hx]
    rfl

end Ontology

namespace NodeTypeUpdate

open Derived

def fields : List (Field NodeTypeUpdate) :=
  [PropertyDef.derived.map.field "add_properties" (·.addProperties),
    strings.field "relax_properties" (·.relaxProperties),
    SubtypeDef.derived.map.field "add_subtypes" (·.addSubtypes)]

def read (kvs : List (String × Json)) : Except String NodeTypeUpdate := do
  let addProperties ← Json.orDefault kvs "add_properties" PropertyDef.derived.map.read ∅
  let relaxProperties ← Json.orDefault kvs "relax_properties" strings.read []
  let addSubtypes ← Json.orDefault kvs "add_subtypes" SubtypeDef.derived.map.read ∅
  pure { addProperties, relaxProperties, addSubtypes }

def derived : Derived NodeTypeUpdate := record fields read 5 (by simp only [fields, List.forall_mem_cons]; decide)
  fun x hx => by
    have nodup : (fields.map Field.name).Nodup := by decide
    rw [read, orDefault_entries (d := PropertyDef.derived.map) nodup (.head _) hx,
      orDefault_entries (d := strings) nodup (.tail _ (.head _)) hx,
      orDefault_entries (d := SubtypeDef.derived.map) nodup (.tail _ (.tail _ (.head _))) hx]
    rfl

end NodeTypeUpdate

namespace EdgeTypeUpdate

open Derived

def fields : List (Field EdgeTypeUpdate) :=
  [strings.field "add_source_types" (·.addSourceTypes), strings.field "add_target_types" (·.addTargetTypes),
    PropertyDef.derived.map.field "add_properties" (·.addProperties)]

def read (kvs : List (String × Json)) : Except String EdgeTypeUpdate := do
  let addSourceTypes ← Json.orDefault kvs "add_source_types" strings.read []
  let addTargetTypes ← Json.orDefault kvs "add_target_types" strings.read []
  let addProperties ← Json.orDefault kvs "add_properties" PropertyDef.derived.map.read ∅
  pure { addSourceTypes, addTargetTypes, addProperties }

def derived : Derived EdgeTypeUpdate := record fields read 3 (by simp only [fields, List.forall_mem_cons]; decide)
  fun x hx => by
    have nodup : (fields.map Field.name).Nodup := by decide
    rw [read, orDefault_entries (d := strings) nodup (.head _) hx,
      orDefault_entries (d := strings) nodup (.tail _ (.head _)) hx,
      orDefault_entries (d := PropertyDef.derived.map) nodup (.tail _ (.tail _ (.head _))) hx]
    rfl

end EdgeTypeUpdate

namespace OntologyExtension

open Derived

def fields : List (Field OntologyExtension) :=
  [NodeTypeDef.derived.map.field "node_types" (·.nodeTypes),
    EdgeTypeDef.derived.map.field "edge_types" (·.edgeTypes),
    NodeTypeUpdate.derived.map.field "node_type_updates" (·.nodeTypeUpdates),
    EdgeTypeUpdate.derived.map.field "edge_type_updates" (·.edgeTypeUpdates)]

def read (kvs : List (String × Json)) : Except String OntologyExtension := do
  let nodeTypes ← Json.orDefault kvs "node_types" NodeTypeDef.derived.map.read ∅
  let edgeTypes ← Json.orDefault kvs "edge_types" EdgeTypeDef.derived.map.read ∅
  let nodeTypeUpdates ← Json.orDefault kvs "node_type_updates" NodeTypeUpdate.derived.map.read ∅
  let edgeTypeUpdates ← Json.orDefault kvs "edge_type_updates" EdgeTypeUpdate.derived.map.read ∅
  pure { nodeTypes, edgeTypes, nodeTypeUpdates, edgeTypeUpdates }

def derived : Derived OntologyExtension := record fields read 7 (by simp only [fields, List.forall_mem_cons]; decide)
  fun x hx => by
    have nodup : (fields.map Field.name).Nodup := by decide
    rw [read, orDefault_entries (d := NodeTypeDef.derived.map) nodup (.head _) hx,
      orDefault_entries (d := EdgeTypeDef.derived.map) nodup (.tail _ (.head _)) hx,
      orDefault_entries (d := NodeTypeUpdate.derived.map) nodup (.tail _ (.tail _ (.head _))) hx,
      orDefault_entries (d := EdgeTypeUpdate.derived.map) nodup (.tail _ (.tail _ (.tail _ (.head _)))) hx]
    rfl

end OntologyExtension

end SilkGraph
