import SilkGraph.Data.Entry

/-!
# Values and operations in JSON

The derived `Serialize` and `Deserialize` of `Value` and `GraphOp` in `entry.rs`, through
`serde_json`. A value is written without a tag, so it is the form of a tree that tells which
constructor it is read as; a double that is not finite has no JSON number and is written as
`null`. An operation is an object whose field `op` names it.

`serde_json` itself is a parameter (`SerdeJson`), and `AsDocumented` what the buffer relies on in
it. `Value.reread_iff` and `GraphOp.reread_iff` say which values and operations survive the way
into a text and back.
-/

namespace SilkGraph

/-- What the program takes from `serde_json`, and from the derived code for the operations that a
buffer has no method for. -/
class SerdeJson where
  /-- `to_string` of a tree. -/
  toString : Json → String
  /-- `from_str`, up to the tree. -/
  fromStr : String → Except String Json
  /-- The double the parser makes of the decimal text of a finite one. It is the same one with the
  feature `float_roundtrip`, which the program does not ask for. -/
  reparse : F64 → Option F64
  /-- How deep the parser lets arrays and objects nest. -/
  maxDepth : ℕ
  /-- The fields of an operation without a method. -/
  otherFields : GraphOp → List (String × Json)
  /-- What a tree is read as that is no object with the tag of an operation with a method. -/
  otherOp : Json → Except String GraphOp

/-- Neither infinite nor not a number. -/
def F64.isFinite (x : F64) : Bool := x.exponent != 2047

/-! ### Trees -/

/-- A list comes back from a way there that may fail and a way back exactly if each member does. -/
theorem mapM_map_eq_some_iff {α β : Type} {f : α → Option β} {g : β → α} {p : α → Prop}
    {l : List α} (h : ∀ a ∈ l, ((f a).map g = some a ↔ p a)) :
    (l.mapM f).map (List.map g) = some l ↔ ∀ a ∈ l, p a := by
  induction l with
  | nil => simp
  | cons a l ih =>
    have hl := ih fun b hb => h b (List.mem_cons_of_mem a hb)
    have ha := h a List.mem_cons_self
    rw [List.forall_mem_cons, ← ha, ← hl, List.mapM_cons]
    cases f a with
    | none => simp
    | some b =>
      cases l.mapM f with
      | none => simp
      | some bs => simp

namespace Json

mutual

/-- How deep arrays and objects nest. -/
def depth : Json → ℕ
  | .array js => 1 + depthList js
  | .object kvs => 1 + depthFields kvs
  | _ => 0

def depthList : List Json → ℕ
  | [] => 0
  | j :: js => max j.depth (depthList js)

def depthFields : List (String × Json) → ℕ
  | [] => 0
  | (_, j) :: kvs => max j.depth (depthFields kvs)

end

section

variable [SerdeJson]

mutual

/-- The tree the parser makes of the text of a tree: only the doubles in it may differ. -/
def reread : Json → Option Json
  | .null => some .null
  | .bool b => some (.bool b)
  | .number (.posInt n) => some (.number (.posInt n))
  | .number (.negInt n) => some (.number (.negInt n))
  | .number (.float x) => (SerdeJson.reparse x).map fun y => .number (.float y)
  | .string s => some (.string s)
  | .array js => (rereadList js).map .array
  | .object kvs => (rereadFields kvs).map .object

def rereadList : List Json → Option (List Json)
  | [] => some []
  | j :: js => do
    let j' ← j.reread
    let js' ← rereadList js
    pure (j' :: js')

def rereadFields : List (String × Json) → Option (List (String × Json))
  | [] => some []
  | (k, j) :: kvs => do
    let j' ← j.reread
    let kvs' ← rereadFields kvs
    pure ((k, j') :: kvs')

end

theorem rereadList_eq (js : List Json) : rereadList js = js.mapM reread := by
  induction js with
  | nil => rfl
  | cons j js ih => rw [rereadList, ih, List.mapM_cons]

theorem rereadFields_eq (kvs : List (String × Json)) :
    rereadFields kvs = kvs.mapM fun kv => kv.2.reread.map fun j => (kv.1, j) := by
  induction kvs with
  | nil => rfl
  | cons kv kvs ih =>
    obtain ⟨k, j⟩ := kv
    rw [rereadFields, ih, List.mapM_cons]
    cases j.reread <;> rfl

/-- What the buffer relies on when it writes an object: `to_string` writes it between braces,
without line breaks, and `from_str` reads the tree again unless it nests too deep. -/
structure AsDocumented (kvs : List (String × Json)) : Prop where
  compact : ∃ body, (SerdeJson.toString (.object kvs)).toList = '{' :: (body ++ ['}']) ∧
    '\n' ∉ body
  fromStr : (SerdeJson.fromStr (SerdeJson.toString (.object kvs))).toOption =
    if (Json.object kvs).depth ≤ SerdeJson.maxDepth then (Json.object kvs).reread else none

end

end Json

/-! ### Values -/

namespace Value

mutual

/-- `Serialize for Value`, untagged. -/
def toJson : Value → Json
  | .null => .null
  | .bool b => .bool b
  | .int n => .number (if n < 0 then .negInt n else .posInt n.toNat)
  | .float x => if x.isFinite then .number (.float x) else .null
  | .string s => .string s
  | .list vs => .array (listToJson vs)
  | .map kvs => .object (fieldsToJson kvs)

def listToJson : List Value → List Json
  | [] => []
  | v :: vs => v.toJson :: listToJson vs

def fieldsToJson : List (String × Value) → List (String × Json)
  | [] => []
  | (k, v) :: kvs => (k, v.toJson) :: fieldsToJson kvs

end

mutual

/-- `Deserialize for Value`, untagged: the first variant that the tree fits. An integer beyond
`i64` fits `Float`. -/
def ofJson : Json → Value
  | .null => .null
  | .bool b => .bool b
  | .number (.posInt n) => if n < 2 ^ 63 then .int n else .float (F64.ofInt n)
  | .number (.negInt n) => .int n
  | .number (.float x) => .float x
  | .string s => .string s
  | .array js => .list (listOfJson js)
  | .object kvs => .map (Std.ExtTreeMap.ofList (fieldsOfJson kvs) compare).toList

def listOfJson : List Json → List Value
  | [] => []
  | j :: js => ofJson j :: listOfJson js

def fieldsOfJson : List (String × Json) → List (String × Value)
  | [] => []
  | (k, j) :: kvs => (k, ofJson j) :: fieldsOfJson kvs

end

mutual

/-- The value and all that are nested in it. -/
def parts : Value → List Value
  | .list vs => .list vs :: listParts vs
  | .map kvs => .map kvs :: fieldsParts kvs
  | v => [v]

def listParts : List Value → List Value
  | [] => []
  | v :: vs => v.parts ++ listParts vs

def fieldsParts : List (String × Value) → List Value
  | [] => []
  | (_, v) :: kvs => v.parts ++ fieldsParts kvs

end

/-- What the types of the source promise: an integer is an `i64`, and a map has its keys in
order. -/
structure Typed (v : Value) : Prop where
  int : ∀ n, .int n ∈ v.parts → -2 ^ 63 ≤ n ∧ n < 2 ^ 63
  map : ∀ kvs, .map kvs ∈ v.parts →
    (kvs.map Prod.fst).Pairwise fun a b => compare a b = .lt

/-- Every double in the value is finite and one that the parser reads from its own decimal
text. -/
def Survives [SerdeJson] (v : Value) : Prop :=
  ∀ x, .float x ∈ v.parts → x.isFinite = true ∧ SerdeJson.reparse x = some x

/-- Induction over what is nested in a value. -/
theorem nested {P : Value → Prop} (null : P .null) (bool : ∀ b, P (.bool b))
    (int : ∀ n, P (.int n)) (float : ∀ x, P (.float x)) (string : ∀ s, P (.string s))
    (list : ∀ vs, (∀ v ∈ vs, P v) → P (.list vs))
    (map : ∀ kvs, (∀ kv ∈ kvs, P kv.2) → P (.map kvs)) (v : Value) : P v :=
  @Value.rec P (fun vs => ∀ v ∈ vs, P v) (fun kvs => ∀ kv ∈ kvs, P kv.2) (fun kv => P kv.2)
    null bool int float string list map
    (fun _ h => absurd h List.not_mem_nil)
    (fun _ _ hv hvs => List.forall_mem_cons.mpr ⟨hv, hvs⟩)
    (fun _ h => absurd h List.not_mem_nil)
    (fun _ _ hkv hkvs => List.forall_mem_cons.mpr ⟨hkv, hkvs⟩)
    (fun _ _ hv => hv) v

theorem listToJson_eq (vs : List Value) : listToJson vs = vs.map toJson := by
  induction vs with
  | nil => rfl
  | cons v vs ih => rw [listToJson, ih, List.map_cons]

theorem fieldsToJson_eq (kvs : List (String × Value)) :
    fieldsToJson kvs = kvs.map fun kv => (kv.1, kv.2.toJson) := by
  induction kvs with
  | nil => rfl
  | cons kv kvs ih => rw [fieldsToJson, ih, List.map_cons]

theorem listOfJson_eq (js : List Json) : listOfJson js = js.map ofJson := by
  induction js with
  | nil => rfl
  | cons j js ih => rw [listOfJson, ih, List.map_cons]

theorem fieldsOfJson_eq (kvs : List (String × Json)) :
    fieldsOfJson kvs = kvs.map fun kv => (kv.1, ofJson kv.2) := by
  induction kvs with
  | nil => rfl
  | cons kv kvs ih => rw [fieldsOfJson, ih, List.map_cons]

theorem listParts_eq (vs : List Value) : listParts vs = vs.flatMap parts := by
  induction vs with
  | nil => rfl
  | cons v vs ih => rw [listParts, ih, List.flatMap_cons]

theorem fieldsParts_eq (kvs : List (String × Value)) :
    fieldsParts kvs = kvs.flatMap fun kv => kv.2.parts := by
  induction kvs with
  | nil => rfl
  | cons kv kvs ih => rw [fieldsParts, ih, List.flatMap_cons]

theorem mem_parts_list {w : Value} {vs : List Value} :
    w ∈ (list vs).parts ↔ w = .list vs ∨ ∃ v ∈ vs, w ∈ v.parts := by
  rw [parts, List.mem_cons, listParts_eq, List.mem_flatMap]

theorem mem_parts_map {w : Value} {kvs : List (String × Value)} :
    w ∈ (map kvs).parts ↔ w = .map kvs ∨ ∃ kv ∈ kvs, w ∈ kv.2.parts := by
  rw [parts, List.mem_cons, fieldsParts_eq, List.mem_flatMap]

theorem Typed.of_mem_list {vs : List Value} (h : (list vs).Typed) {v : Value} (hv : v ∈ vs) :
    v.Typed where
  int n hn := h.int n (mem_parts_list.mpr (Or.inr ⟨v, hv, hn⟩))
  map kvs hkvs := h.map kvs (mem_parts_list.mpr (Or.inr ⟨v, hv, hkvs⟩))

theorem Typed.of_mem_map {kvs : List (String × Value)} (h : (Value.map kvs).Typed)
    {kv : String × Value} (hkv : kv ∈ kvs) : kv.2.Typed where
  int n hn := h.int n (mem_parts_map.mpr (Or.inr ⟨kv, hkv, hn⟩))
  map kvs' hkvs' := h.map kvs' (mem_parts_map.mpr (Or.inr ⟨kv, hkv, hkvs'⟩))

section
variable [SerdeJson]

theorem survives_list {vs : List Value} : (list vs).Survives ↔ ∀ v ∈ vs, v.Survives := by
  constructor
  · exact fun h v hv x hx => h x (mem_parts_list.mpr (Or.inr ⟨v, hv, hx⟩))
  · intro h x hx
    obtain heq | ⟨v, hv, hx⟩ := mem_parts_list.mp hx
    · cases heq
    · exact h v hv x hx

theorem survives_map {kvs : List (String × Value)} :
    (map kvs).Survives ↔ ∀ kv ∈ kvs, kv.2.Survives := by
  constructor
  · exact fun h kv hkv x hx => h x (mem_parts_map.mpr (Or.inr ⟨kv, hkv, hx⟩))
  · intro h x hx
    obtain heq | ⟨kv, hkv, hx⟩ := mem_parts_map.mp hx
    · cases heq
    · exact h kv hkv x hx

/-- The parser keeps the keys of an object. -/
theorem keys_of_rereadFields {kvs kvs' : List (String × Json)}
    (h : Json.rereadFields kvs = some kvs') : kvs'.map Prod.fst = kvs.map Prod.fst := by
  induction kvs generalizing kvs' with
  | nil => obtain rfl := Option.some.inj h; rfl
  | cons kv kvs ih =>
    obtain ⟨k, j⟩ := kv
    rw [Json.rereadFields, Option.bind_eq_bind, Option.bind_eq_some_iff] at h
    obtain ⟨j', -, h⟩ := h
    rw [Option.bind_eq_bind, Option.bind_eq_some_iff] at h
    obtain ⟨rest, hrest, h⟩ := h
    obtain rfl := Option.some.inj h
    rw [List.map_cons, List.map_cons, ih hrest]

/-- Fields that are read again still have their keys in order. -/
theorem toList_fieldsOfJson {kvs : List (String × Value)} {js : List (String × Json)}
    (h : Json.rereadFields (fieldsToJson kvs) = some js)
    (hkeys : (kvs.map Prod.fst).Pairwise fun a b => compare a b = .lt) :
    (Std.ExtTreeMap.ofList (fieldsOfJson js) compare).toList = fieldsOfJson js := by
  have hfst : (fieldsOfJson js).map Prod.fst = kvs.map Prod.fst := by
    have hread := keys_of_rereadFields h
    rw [fieldsToJson_eq, List.map_map] at hread
    rw [fieldsOfJson_eq, List.map_map]
    exact hread
  rw [← hfst, List.pairwise_map] at hkeys
  exact BTreeMap.toList_ofList hkeys

theorem rereadFields_iff {kvs : List (String × Value)}
    (h : ∀ kv ∈ kvs, (kv.2.toJson.reread.map ofJson = some kv.2 ↔ kv.2.Survives)) :
    (Json.rereadFields (fieldsToJson kvs)).map fieldsOfJson = some kvs ↔
      ∀ kv ∈ kvs, kv.2.Survives := by
  rw [← mapM_map_eq_some_iff (f := fun kv => kv.2.toJson.reread.map fun j => (kv.1, j))
      (g := fun kv => (kv.1, ofJson kv.2)), Json.rereadFields_eq, fieldsToJson_eq, List.mapM_map,
    funext fieldsOfJson_eq]
  · rfl
  · intro kv hkv
    rw [← h kv hkv]
    cases kv.2.toJson.reread with
    | none => simp
    | some j =>
      obtain ⟨k, v⟩ := kv
      simp

theorem reread_iff (v : Value) (h : v.Typed) :
    v.toJson.reread.map ofJson = some v ↔ v.Survives := by
  induction v using nested with
  | null => simp [toJson, Json.reread, ofJson, Survives, parts]
  | bool b => simp [toJson, Json.reread, ofJson, Survives, parts]
  | int n =>
    have hn := h.int n (by simp [parts])
    have hsurvives : (Value.int n).Survives := by simp [Survives, parts]
    refine iff_of_true ?_ hsurvives
    rw [toJson]
    split
    · rfl
    · have hlt : n.toNat < 2 ^ 63 := by omega
      have hback : (n.toNat : ℤ) = n := by omega
      rw [Json.reread, Option.map_some, ofJson, if_pos hlt, hback]
  | float x =>
    have hsurvives : (Value.float x).Survives ↔
        x.isFinite = true ∧ SerdeJson.reparse x = some x := by simp [Survives, parts]
    rw [hsurvives, toJson]
    split
    · rename_i hfinite
      rw [Json.reread]
      cases SerdeJson.reparse x with
      | none => simp
      | some y => simp [ofJson, hfinite]
    · rename_i hfinite
      simp [Json.reread, ofJson, hfinite]
  | string s => simp [toJson, Json.reread, ofJson, Survives, parts]
  | list vs ih =>
    rw [survives_list, ← mapM_map_eq_some_iff (fun v hv => ih v hv (h.of_mem_list hv)),
      toJson, Json.reread, Json.rereadList_eq, listToJson_eq, List.mapM_map]
    change Option.map ofJson (Option.map Json.array (vs.mapM fun v => v.toJson.reread)) = _ ↔ _
    cases vs.mapM fun v => v.toJson.reread with
    | none => simp only [Option.map_none, reduceCtorEq]
    | some js =>
      simp only [Option.map_some, ofJson, listOfJson_eq, Option.some.injEq, Value.list.injEq]
  | map kvs ih =>
    rw [survives_map, ← rereadFields_iff (fun kv hkv => ih kv hkv (h.of_mem_map hkv)), toJson,
      Json.reread]
    cases hread : Json.rereadFields (fieldsToJson kvs) with
    | none => simp only [Option.map_none, reduceCtorEq]
    | some js =>
      have hkeys := h.map kvs (mem_parts_map.mpr (Or.inl rfl))
      simp only [Option.map_some, ofJson, toList_fieldsOfJson hread hkeys, Option.some.injEq,
        Value.map.injEq]

end

end Value

/-! ### Operations -/

namespace Json

/-- What an object has under a name; a field that is there twice is an error. -/
def field (kvs : List (String × Json)) (name : String) : Except String (Option Json) :=
  match kvs.filter fun kv => kv.1 == name with
  | [] => .ok none
  | [kv] => .ok (some kv.2)
  | _ => .error s!"duplicate field `{name}`"

/-- Read a field that must be there. -/
def required {α : Type} (kvs : List (String × Json)) (name : String)
    (read : Json → Except String α) : Except String α := do
  match ← field kvs name with
  | some j => read j
  | none => .error s!"missing field `{name}`"

/-- Read a field with `#[serde(default)]`. -/
def orDefault {α : Type} (kvs : List (String × Json)) (name : String)
    (read : Json → Except String α) (default : α) : Except String α := do
  match ← field kvs name with
  | some j => read j
  | none => pure default

def readString : Json → Except String String
  | .string s => .ok s
  | _ => .error "invalid type: expected a string"

def readOption {α : Type} (read : Json → Except String α) : Json → Except String (Option α)
  | .null => .ok none
  | j => return some (← read j)

def readValue (j : Json) : Except String Value := .ok (Value.ofJson j)

def readProperties : Json → Except String (BTreeMap String Value)
  | .object kvs => .ok (Std.ExtTreeMap.ofList (Value.fieldsOfJson kvs) compare)
  | _ => .error "invalid type: expected a map"

end Json

namespace GraphOp

section

variable [SerdeJson]

/-- `Serialize for GraphOp`: the fields of the object, the tag first. -/
def fields : GraphOp → List (String × Json)
  | .addNode nodeId nodeType subtype label properties =>
    [("op", .string "add_node"), ("node_id", .string nodeId), ("node_type", .string nodeType),
      ("subtype", subtype.elim .null .string), ("label", .string label),
      ("properties", (Value.map properties.toList).toJson)]
  | .addEdge edgeId edgeType sourceId targetId properties =>
    [("op", .string "add_edge"), ("edge_id", .string edgeId), ("edge_type", .string edgeType),
      ("source_id", .string sourceId), ("target_id", .string targetId),
      ("properties", (Value.map properties.toList).toJson)]
  | .updateProperty entityId key value =>
    [("op", .string "update_property"), ("entity_id", .string entityId), ("key", .string key),
      ("value", value.toJson)]
  | .removeNode nodeId => [("op", .string "remove_node"), ("node_id", .string nodeId)]
  | .removeEdge edgeId => [("op", .string "remove_edge"), ("edge_id", .string edgeId)]
  | op => SerdeJson.otherFields op

/-- The operation as a tree. -/
def toJson (op : GraphOp) : Json := .object op.fields

/-- `Deserialize for GraphOp`: the variant the field `op` names. -/
def ofJson : Json → Except String GraphOp
  | .object kvs =>
    match Json.field kvs "op" with
    | .ok (some (.string "add_node")) => do
      let nodeId ← Json.required kvs "node_id" Json.readString
      let nodeType ← Json.required kvs "node_type" Json.readString
      let subtype ← Json.orDefault kvs "subtype" (Json.readOption Json.readString) none
      let label ← Json.required kvs "label" Json.readString
      let properties ← Json.orDefault kvs "properties" Json.readProperties ∅
      pure (.addNode nodeId nodeType subtype label properties)
    | .ok (some (.string "add_edge")) => do
      let edgeId ← Json.required kvs "edge_id" Json.readString
      let edgeType ← Json.required kvs "edge_type" Json.readString
      let sourceId ← Json.required kvs "source_id" Json.readString
      let targetId ← Json.required kvs "target_id" Json.readString
      let properties ← Json.orDefault kvs "properties" Json.readProperties ∅
      pure (.addEdge edgeId edgeType sourceId targetId properties)
    | .ok (some (.string "update_property")) => do
      let entityId ← Json.required kvs "entity_id" Json.readString
      let key ← Json.required kvs "key" Json.readString
      let value ← Json.required kvs "value" Json.readValue
      pure (.updateProperty entityId key value)
    | .ok (some (.string "remove_node")) => do
      let nodeId ← Json.required kvs "node_id" Json.readString
      pure (.removeNode nodeId)
    | .ok (some (.string "remove_edge")) => do
      let edgeId ← Json.required kvs "edge_id" Json.readString
      pure (.removeEdge edgeId)
    | _ => SerdeJson.otherOp (.object kvs)
  | j => SerdeJson.otherOp j

/-- The operations a buffer has a method for. -/
def isBufferable : GraphOp → Bool
  | .addNode .. | .addEdge .. | .updateProperty .. | .removeNode _ | .removeEdge _ => true
  | _ => false

omit [SerdeJson] in
/-- A drain does not turn these away. -/
theorem drainable_of_isBufferable {op : GraphOp} (h : op.isBufferable = true) :
    (op.isDefineOntology || op.isExtendOntology || op.isCheckpoint) = false := by
  cases op <;> first | rfl | cases h

/-- The property values in an operation; the properties of a node or an edge are one map. -/
def values : GraphOp → List Value
  | .addNode _ _ _ _ properties => [.map properties.toList]
  | .addEdge _ _ _ _ properties => [.map properties.toList]
  | .updateProperty _ _ value => [value]
  | _ => []

/-- The values in the operation are of the types of the source. -/
def Typed (op : GraphOp) : Prop := ∀ v ∈ op.values, v.Typed

/-- The values in the operation survive, and its object does not nest deeper than the parser
goes. -/
def Survives (op : GraphOp) : Prop :=
  (∀ v ∈ op.values, v.Survives) ∧ op.toJson.depth ≤ SerdeJson.maxDepth

/-- What is read from the line of an operation, if it can be read. -/
def reread (op : GraphOp) : Option GraphOp :=
  (if op.toJson.depth ≤ SerdeJson.maxDepth then op.toJson.reread else none).bind
    fun j => (ofJson j).toOption

/-- Properties are read from the text of their map as they were exactly if they survive. -/
theorem readProperties_iff {ps : BTreeMap String Value} (h : (Value.map ps.toList).Typed) :
    ((Value.map ps.toList).toJson.reread.bind fun j => (Json.readProperties j).toOption) = some ps ↔
      (Value.map ps.toList).Survives := by
  rw [← Value.reread_iff _ h, Value.toJson, Json.reread]
  cases Json.rereadFields (Value.fieldsToJson ps.toList) with
  | none => simp only [Option.map_none, Option.bind_none, reduceCtorEq]
  | some js =>
    simp only [Option.map_some, Option.bind_some, Json.readProperties, Except.toOption,
      Value.ofJson, Option.some.injEq, Value.map.injEq, Std.ExtTreeMap.toList_inj]

/-- The parser only touches the doubles, which are in the last field if there are any. -/
theorem reread_toJson_addNode (nodeId nodeType label : String) (subtype : Option String)
    (ps : BTreeMap String Value) :
    ((addNode nodeId nodeType subtype label ps).toJson.reread.bind fun j => (ofJson j).toOption) =
      ((Value.map ps.toList).toJson.reread.bind fun j => (Json.readProperties j).toOption).map
        (addNode nodeId nodeType subtype label) := by
  have hsubtype : (subtype.elim Json.null .string).reread = some (subtype.elim .null .string) := by
    cases subtype <;> rfl
  simp only [toJson, fields, Json.reread, Json.rereadFields, hsubtype]
  cases (Value.map ps.toList).toJson.reread with
  | none => rfl
  | some j =>
    cases subtype <;> cases h : Json.readProperties j <;>
      simp [ofJson, Json.field, Json.required, Json.orDefault, Json.readString, Json.readOption, h,
        bind, Except.bind, pure, Except.pure, Except.toOption]

theorem reread_toJson_addEdge (edgeId edgeType sourceId targetId : String)
    (ps : BTreeMap String Value) :
    ((addEdge edgeId edgeType sourceId targetId ps).toJson.reread.bind
        fun j => (ofJson j).toOption) =
      ((Value.map ps.toList).toJson.reread.bind fun j => (Json.readProperties j).toOption).map
        (addEdge edgeId edgeType sourceId targetId) := by
  simp only [toJson, fields, Json.reread, Json.rereadFields]
  cases (Value.map ps.toList).toJson.reread with
  | none => rfl
  | some j =>
    cases h : Json.readProperties j <;>
      simp [ofJson, Json.field, Json.required, Json.orDefault, Json.readString, h,
        bind, Except.bind, pure, Except.pure, Except.toOption]

theorem reread_toJson_updateProperty (entityId key : String) (v : Value) :
    ((updateProperty entityId key v).toJson.reread.bind fun j => (ofJson j).toOption) =
      (v.toJson.reread.map Value.ofJson).map (updateProperty entityId key) := by
  simp only [toJson, fields, Json.reread, Json.rereadFields]
  cases v.toJson.reread with
  | none => rfl
  | some j =>
    simp [ofJson, Json.field, Json.required, Json.readString, Json.readValue,
      bind, Except.bind, pure, Except.pure, Except.toOption]

theorem reread_iff {op : GraphOp} (hbufferable : op.isBufferable = true) (htyped : op.Typed) :
    op.reread = some op ↔ op.Survives := by
  rw [reread, Survives]
  by_cases hdepth : op.toJson.depth ≤ SerdeJson.maxDepth
  · rw [if_pos hdepth, and_iff_left hdepth]
    cases op with
    | addNode nodeId nodeType subtype label ps =>
      have hps : (Value.map ps.toList).Typed := htyped _ List.mem_cons_self
      rw [values, List.forall_mem_singleton, ← readProperties_iff hps, reread_toJson_addNode,
        Option.map_eq_some_iff]
      simp
    | addEdge edgeId edgeType sourceId targetId ps =>
      have hps : (Value.map ps.toList).Typed := htyped _ List.mem_cons_self
      rw [values, List.forall_mem_singleton, ← readProperties_iff hps, reread_toJson_addEdge,
        Option.map_eq_some_iff]
      simp
    | updateProperty entityId key v =>
      have hv : v.Typed := htyped _ List.mem_cons_self
      rw [values, List.forall_mem_singleton, ← Value.reread_iff v hv, reread_toJson_updateProperty,
        Option.map_eq_some_iff]
      simp
    | removeNode nodeId =>
      refine iff_of_true ?_ fun v hv => absurd hv List.not_mem_nil
      simp [toJson, fields, Json.reread, Json.rereadFields, ofJson, Json.field, Json.required,
        Json.readString, bind, Except.bind, pure, Except.pure, Except.toOption]
    | removeEdge edgeId =>
      refine iff_of_true ?_ fun v hv => absurd hv List.not_mem_nil
      simp [toJson, fields, Json.reread, Json.rereadFields, ofJson, Json.field, Json.required,
        Json.readString, bind, Except.bind, pure, Except.pure, Except.toOption]
    | _ => cases hbufferable
  · rw [if_neg hdepth, Option.bind_none]
    simp [hdepth]

end

end GraphOp

end SilkGraph
