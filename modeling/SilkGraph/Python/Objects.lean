import SilkGraph.Data.JsonText
import SilkGraph.Graph.Basic

/-!
# Values at the Python boundary

`conversions.rs`: `py_to_value` makes a property value of a Python object and `value_to_py` makes
an object of a value again. Both stop at a depth of 64, and only the way in limits the size of
strings, lists and maps, so a value that came in from a peer may be one that no call could have
written, or one that cannot be read back. `python_values_exact` says which is which.

A Python object is what the conversions can tell apart. An integer beyond `i64` is extracted as a
double.
-/

namespace SilkGraph

/-- A key of a Python dictionary. -/
inductive PyKey where
  | str (s : String)
  /-- An object of some other type. -/
  | other (typeName : String)
  deriving DecidableEq

/-- A Python object. -/
inductive PyObj where
  | none
  | bool (b : Bool)
  | int (n : ℤ)
  | float (x : F64)
  | str (s : String)
  | list (items : List PyObj)
  | dict (items : List (PyKey × PyObj))
  /-- An object of none of these types. -/
  | other (typeName : String)

/-- Induction over what is nested in an object. -/
theorem PyObj.nested {P : PyObj → Prop} (none : P .none) (bool : ∀ b, P (.bool b))
    (int : ∀ n, P (.int n)) (float : ∀ x, P (.float x)) (str : ∀ s, P (.str s))
    (list : ∀ items, (∀ o ∈ items, P o) → P (.list items))
    (dict : ∀ items, (∀ kv ∈ items, P kv.2) → P (.dict items)) (other : ∀ t, P (.other t))
    (o : PyObj) : P o :=
  @PyObj.rec P (fun items => ∀ o ∈ items, P o) (fun items => ∀ kv ∈ items, P kv.2) (fun kv => P kv.2)
    none bool int float str list dict other
    (fun _ h => absurd h List.not_mem_nil)
    (fun _ _ ho hitems => List.forall_mem_cons.mpr ⟨ho, hitems⟩)
    (fun _ h => absurd h List.not_mem_nil)
    (fun _ _ hkv hitems => List.forall_mem_cons.mpr ⟨hkv, hitems⟩)
    (fun _ _ ho => ho) o

/-- What a conversion raises. -/
inductive ConversionErr where
  | valueError (msg : String)
  | typeError (msg : String)
  deriving DecidableEq

namespace Python

/-- `MAX_VALUE_DEPTH`. -/
def maxValueDepth : ℕ := 64

/-- `MAX_STRING_BYTES`. -/
def maxStringBytes : ℕ := 1048576

/-- `MAX_LIST_ITEMS`. -/
def maxListItems : ℕ := 10000

/-- `MAX_MAP_ENTRIES`. -/
def maxMapEntries : ℕ := 10000

def tooDeep : ConversionErr :=
  .valueError s!"value nesting exceeds maximum depth of {maxValueDepth}"

def unsupported (typeName : String) : ConversionErr :=
  .typeError s!"unsupported value type: {typeName}"

/-- The check that both conversions make first. -/
def atDepth {α : Type} (depth : ℕ) (convert : Except ConversionErr α) : Except ConversionErr α :=
  if maxValueDepth ≤ depth then .error tooDeep else convert

/-- `extract::<String>` of a key. -/
def extractKey : PyKey → Except ConversionErr String
  | .str s => .ok s
  | .other typeName => .error (.typeError s!"'{typeName}' object cannot be converted to 'PyString'")

/-- `extract::<f64>` of an integer: none if it rounds beyond the finite doubles. -/
def extractDouble (n : ℤ) : Option F64 :=
  if F64.magnitudeBits n.natAbs < 2047 * 2 ^ 52 then some (F64.ofInt n) else none

mutual

/-- Convert a Python object to a value. -/
def pyToValueDepth : PyObj → ℕ → Except ConversionErr Value
  | .none, depth => atDepth depth (.ok .null)
  | .bool b, depth => atDepth depth (.ok (.bool b))
  | .int n, depth => atDepth depth <|
    if -2 ^ 63 ≤ n ∧ n < 2 ^ 63 then .ok (.int n)
    else match extractDouble n with
      | some x => .ok (.float x)
      | none => .error (unsupported "int")
  | .float x, depth => atDepth depth (.ok (.float x))
  | .str s, depth => atDepth depth <|
    if maxStringBytes < s.utf8ByteSize then .error (.valueError
      s!"string exceeds maximum size of {maxStringBytes} bytes (got {s.utf8ByteSize})")
    else .ok (.string s)
  | .list items, depth => atDepth depth <|
    if maxListItems < items.length then .error (.valueError
      s!"list exceeds maximum of {maxListItems} items (got {items.length})")
    else (itemsToValues items (depth + 1)).map .list
  | .dict items, depth => atDepth depth <|
    if maxMapEntries < items.length then .error (.valueError
      s!"map exceeds maximum of {maxMapEntries} entries (got {items.length})")
    else (itemsToMap items (depth + 1) ∅).map fun map => .map map.toList
  | .other typeName, depth => atDepth depth (.error (unsupported typeName))

/-- The items of a list, up to the first that fails. -/
def itemsToValues : List PyObj → ℕ → Except ConversionErr (List Value)
  | [], _ => .ok []
  | item :: items, depth => do
    let value ← pyToValueDepth item depth
    let values ← itemsToValues items depth
    pure (value :: values)

/-- The items of a dictionary, inserted one after the other. -/
def itemsToMap : List (PyKey × PyObj) → ℕ → BTreeMap String Value →
    Except ConversionErr (BTreeMap String Value)
  | [], _, map => .ok map
  | (k, item) :: items, depth, map => do
    let key ← extractKey k
    let value ← pyToValueDepth item depth
    itemsToMap items depth (map.insert key value)

end

/-- `py_to_value`. -/
def pyToValue (obj : PyObj) : Except ConversionErr Value := pyToValueDepth obj 0

mutual

/-- Convert a value to a Python object. -/
def valueToPyDepth : Value → ℕ → Except ConversionErr PyObj
  | .null, depth => atDepth depth (.ok .none)
  | .bool b, depth => atDepth depth (.ok (.bool b))
  | .int n, depth => atDepth depth (.ok (.int n))
  | .float x, depth => atDepth depth (.ok (.float x))
  | .string s, depth => atDepth depth (.ok (.str s))
  | .list vs, depth => atDepth depth ((valuesToItems vs (depth + 1)).map .list)
  | .map kvs, depth => atDepth depth ((fieldsToItems kvs (depth + 1)).map .dict)

def valuesToItems : List Value → ℕ → Except ConversionErr (List PyObj)
  | [], _ => .ok []
  | v :: vs, depth => do
    let item ← valueToPyDepth v depth
    let items ← valuesToItems vs depth
    pure (item :: items)

def fieldsToItems : List (String × Value) → ℕ → Except ConversionErr (List (PyKey × PyObj))
  | [], _ => .ok []
  | (k, v) :: kvs, depth => do
    let item ← valueToPyDepth v depth
    let items ← fieldsToItems kvs depth
    pure ((.str k, item) :: items)

end

/-- `value_to_py`. -/
def valueToPy (v : Value) : Except ConversionErr PyObj := valueToPyDepth v 0

end Python

/-! ### How deep values nest -/

namespace Value

mutual

/-- How many levels a value has; one that nests nothing has one. -/
def height : Value → ℕ
  | .list vs => 1 + heightList vs
  | .map kvs => 1 + heightFields kvs
  | _ => 1

def heightList : List Value → ℕ
  | [] => 0
  | v :: vs => max v.height (heightList vs)

def heightFields : List (String × Value) → ℕ
  | [] => 0
  | (_, v) :: kvs => max v.height (heightFields kvs)

end

theorem heightList_le_iff {vs : List Value} {n : ℕ} :
    heightList vs ≤ n ↔ ∀ v ∈ vs, v.height ≤ n := by
  induction vs with
  | nil => simp [heightList]
  | cons v vs ih => rw [heightList, Nat.max_le, ih, List.forall_mem_cons]

theorem heightFields_le_iff {kvs : List (String × Value)} {n : ℕ} :
    heightFields kvs ≤ n ↔ ∀ kv ∈ kvs, kv.2.height ≤ n := by
  induction kvs with
  | nil => simp [heightFields]
  | cons kv kvs ih => rw [heightFields, Nat.max_le, ih, List.forall_mem_cons]

theorem height_list_le_iff {vs : List Value} {depth n : ℕ} : depth + (list vs).height ≤ n ↔
    depth < n ∧ ∀ v ∈ vs, depth + 1 + v.height ≤ n := by
  rw [height]
  by_cases hd : depth < n
  · have hle : depth + (1 + heightList vs) ≤ n ↔ heightList vs ≤ n - (depth + 1) := by omega
    rw [hle, heightList_le_iff]
    exact ⟨fun h => ⟨hd, fun v hv => by have := h v hv; omega⟩, fun h v hv => by have := h.2 v hv; omega⟩
  · exact iff_of_false (by omega) fun h => hd h.1

theorem height_map_le_iff {kvs : List (String × Value)} {depth n : ℕ} :
    depth + (map kvs).height ≤ n ↔ depth < n ∧ ∀ kv ∈ kvs, depth + 1 + kv.2.height ≤ n := by
  rw [height]
  by_cases hd : depth < n
  · have hle : depth + (1 + heightFields kvs) ≤ n ↔ heightFields kvs ≤ n - (depth + 1) := by omega
    rw [hle, heightFields_le_iff]
    exact ⟨fun h => ⟨hd, fun v hv => by have := h v hv; omega⟩, fun h v hv => by have := h.2 v hv; omega⟩
  · exact iff_of_false (by omega) fun h => hd h.1

end Value

/-! ### Reading a value -/

namespace Value

mutual

/-- The object of a value. -/
def toPy : Value → PyObj
  | .null => .none
  | .bool b => .bool b
  | .int n => .int n
  | .float x => .float x
  | .string s => .str s
  | .list vs => .list (listToPy vs)
  | .map kvs => .dict (fieldsToPy kvs)

def listToPy : List Value → List PyObj
  | [] => []
  | v :: vs => v.toPy :: listToPy vs

def fieldsToPy : List (String × Value) → List (PyKey × PyObj)
  | [] => []
  | (k, v) :: kvs => (.str k, v.toPy) :: fieldsToPy kvs

end

theorem length_listToPy (vs : List Value) : (listToPy vs).length = vs.length := by
  induction vs with
  | nil => rfl
  | cons v vs ih => rw [listToPy, List.length_cons, List.length_cons, ih]

theorem length_fieldsToPy (kvs : List (String × Value)) : (fieldsToPy kvs).length = kvs.length := by
  induction kvs with
  | nil => rfl
  | cons kv kvs ih => rw [fieldsToPy, List.length_cons, List.length_cons, ih]

end Value

namespace Python

variable {α : Type} {depth : ℕ} {v : Value} {vs : List Value} {kvs : List (String × Value)} {o : PyObj}

theorem atDepth_of_lt (h : depth < maxValueDepth) (convert : Except ConversionErr α) :
    atDepth depth convert = convert := if_neg (not_le.mpr h)

theorem atDepth_of_le (h : maxValueDepth ≤ depth) (convert : Except ConversionErr α) :
    atDepth depth convert = .error tooDeep := if_pos h

theorem atDepth_eq_ok {convert : Except ConversionErr α} {a : α} :
    atDepth depth convert = .ok a ↔ depth < maxValueDepth ∧ convert = .ok a := by
  rw [atDepth]
  split
  · simp only [reduceCtorEq, false_iff, not_and]
    omega
  · simp only [iff_and_self]
    omega

theorem valuesToItems_of_ok (h : ∀ v ∈ vs, valueToPyDepth v depth = .ok v.toPy) :
    valuesToItems vs depth = .ok (Value.listToPy vs) := by
  induction vs with
  | nil => rfl
  | cons v vs ih =>
    obtain ⟨hv, hvs⟩ := List.forall_mem_cons.mp h
    rw [valuesToItems, hv, ih hvs]
    rfl

theorem fieldsToItems_of_ok (h : ∀ kv ∈ kvs, valueToPyDepth kv.2 depth = .ok kv.2.toPy) :
    fieldsToItems kvs depth = .ok (Value.fieldsToPy kvs) := by
  induction kvs with
  | nil => rfl
  | cons kv kvs ih =>
    obtain ⟨hv, hvs⟩ := List.forall_mem_cons.mp h
    rw [fieldsToItems, hv, ih hvs]
    rfl

/-- A value that is not too deep is converted. -/
theorem valueToPyDepth_of_le (h : depth + v.height ≤ maxValueDepth) :
    valueToPyDepth v depth = .ok v.toPy := by
  induction v using Value.nested generalizing depth with
  | null => exact atDepth_of_lt h _
  | bool b => exact atDepth_of_lt h _
  | int n => exact atDepth_of_lt h _
  | float x => exact atDepth_of_lt h _
  | string s => exact atDepth_of_lt h _
  | list vs ih =>
    obtain ⟨hlt, hvs⟩ := Value.height_list_le_iff.mp h
    rw [valueToPyDepth, atDepth_of_lt hlt, valuesToItems_of_ok fun v hv => ih v hv (hvs v hv)]
    rfl
  | map kvs ih =>
    obtain ⟨hlt, hkvs⟩ := Value.height_map_le_iff.mp h
    rw [valueToPyDepth, atDepth_of_lt hlt, fieldsToItems_of_ok fun kv hkv => ih kv hkv (hkvs kv hkv)]
    rfl

theorem valuesToItems_of_error
    (h : ∀ v ∈ vs, ¬ depth + v.height ≤ maxValueDepth → valueToPyDepth v depth = .error tooDeep)
    (hdeep : ∃ v ∈ vs, ¬ depth + v.height ≤ maxValueDepth) :
    valuesToItems vs depth = .error tooDeep := by
  induction vs with
  | nil => simp at hdeep
  | cons v vs ih =>
    rw [valuesToItems]
    by_cases hv : depth + v.height ≤ maxValueDepth
    · obtain ⟨w, hw, hdeep⟩ := hdeep
      obtain rfl | hw := List.mem_cons.mp hw
      · exact absurd hv hdeep
      · rw [valueToPyDepth_of_le hv, ih (fun v hv => h v (List.mem_cons_of_mem _ hv)) ⟨w, hw, hdeep⟩]
        rfl
    · rw [h v List.mem_cons_self hv]
      rfl

theorem fieldsToItems_of_error
    (h : ∀ kv ∈ kvs, ¬ depth + kv.2.height ≤ maxValueDepth → valueToPyDepth kv.2 depth = .error tooDeep)
    (hdeep : ∃ kv ∈ kvs, ¬ depth + kv.2.height ≤ maxValueDepth) :
    fieldsToItems kvs depth = .error tooDeep := by
  induction kvs with
  | nil => simp at hdeep
  | cons kv kvs ih =>
    rw [fieldsToItems]
    by_cases hv : depth + kv.2.height ≤ maxValueDepth
    · obtain ⟨w, hw, hdeep⟩ := hdeep
      obtain rfl | hw := List.mem_cons.mp hw
      · exact absurd hv hdeep
      · rw [valueToPyDepth_of_le hv, ih (fun v hv => h v (List.mem_cons_of_mem _ hv)) ⟨w, hw, hdeep⟩]
        rfl
    · rw [h kv List.mem_cons_self hv]
      rfl

/-- A value that is too deep is not, wherever the depth is. -/
theorem valueToPyDepth_of_not_le (h : ¬ depth + v.height ≤ maxValueDepth) :
    valueToPyDepth v depth = .error tooDeep := by
  have hleaf : v.height = 1 → maxValueDepth ≤ depth := fun hv => by omega
  induction v using Value.nested generalizing depth with
  | null => exact atDepth_of_le (hleaf rfl) _
  | bool b => exact atDepth_of_le (hleaf rfl) _
  | int n => exact atDepth_of_le (hleaf rfl) _
  | float x => exact atDepth_of_le (hleaf rfl) _
  | string s => exact atDepth_of_le (hleaf rfl) _
  | list vs ih =>
    rw [valueToPyDepth]
    obtain hlt | hle := lt_or_ge depth maxValueDepth
    · rw [Value.height_list_le_iff, not_and] at h
      rw [atDepth_of_lt hlt, valuesToItems_of_error (fun v hv hd => ih v hv hd fun h1 => by omega)
        (by simpa using h hlt)]
      rfl
    · exact atDepth_of_le hle _
  | map kvs ih =>
    rw [valueToPyDepth]
    obtain hlt | hle := lt_or_ge depth maxValueDepth
    · rw [Value.height_map_le_iff, not_and] at h
      rw [atDepth_of_lt hlt, fieldsToItems_of_error (fun kv hkv hd => ih kv hkv hd fun h1 => by omega)
        (by simpa using h hlt)]
      rfl
    · exact atDepth_of_le hle _

theorem exists_valueToPyDepth_iff :
    (∃ o, valueToPyDepth v depth = .ok o) ↔ depth + v.height ≤ maxValueDepth := by
  refine ⟨fun ⟨o, ho⟩ => ?_, fun h => ⟨_, valueToPyDepth_of_le h⟩⟩
  by_contra hdeep
  rw [valueToPyDepth_of_not_le hdeep] at ho
  cases ho

end Python

/-! ### Writing a value -/

/-- What the checks on the way in let through at a depth. -/
structure Value.StorableAt (v : Value) (depth : ℕ) : Prop where
  height : depth + v.height ≤ Python.maxValueDepth
  typed : v.Typed
  strings : ∀ s, .string s ∈ v.parts → s.utf8ByteSize ≤ Python.maxStringBytes
  lists : ∀ vs, .list vs ∈ v.parts → vs.length ≤ Python.maxListItems
  maps : ∀ kvs, .map kvs ∈ v.parts → kvs.length ≤ Python.maxMapEntries

namespace Value

variable {depth : ℕ} {vs : List Value} {kvs : List (String × Value)}

theorem StorableAt.leaf {v : Value} (hheight : v.height = 1) (hparts : v.parts = [v]) (hv : ∀ kvs, v ≠ .map kvs)
    (hv' : ∀ vs, v ≠ .list vs) (hint : ∀ n, v = .int n → -2 ^ 63 ≤ n ∧ n < 2 ^ 63)
    (hstring : ∀ s, v = .string s → s.utf8ByteSize ≤ Python.maxStringBytes)
    (hd : depth < Python.maxValueDepth) : v.StorableAt depth where
  height := by rw [hheight]; exact hd
  typed := by
    constructor <;> simp only [hparts, List.mem_singleton]
    · exact fun n hn => hint n hn.symm
    · exact fun kvs hkvs => absurd hkvs.symm (hv kvs)
  strings s hs := by
    rw [hparts, List.mem_singleton] at hs
    exact hstring s hs.symm
  lists vs hvs := by
    rw [hparts, List.mem_singleton] at hvs
    exact absurd hvs.symm (hv' vs)
  maps kvs hkvs := by
    rw [hparts, List.mem_singleton] at hkvs
    exact absurd hkvs.symm (hv kvs)

theorem storableAt_list : (list vs).StorableAt depth ↔ depth < Python.maxValueDepth ∧
    vs.length ≤ Python.maxListItems ∧ ∀ v ∈ vs, v.StorableAt (depth + 1) := by
  constructor
  · intro h
    obtain ⟨hlt, hvs⟩ := height_list_le_iff.mp h.height
    have hpart : ∀ v ∈ vs, ∀ w ∈ v.parts, w ∈ (list vs).parts :=
      fun v hv w hw => mem_parts_list.mpr (.inr ⟨v, hv, hw⟩)
    refine ⟨hlt, h.lists vs (mem_parts_list.mpr (.inl rfl)), fun v hv => ⟨hvs v hv, h.typed.of_mem_list hv,
      fun s hs => h.strings s (hpart v hv _ hs), fun us hus => h.lists us (hpart v hv _ hus),
      fun us hus => h.maps us (hpart v hv _ hus)⟩⟩
  · rintro ⟨hlt, hlen, hvs⟩
    refine ⟨height_list_le_iff.mpr ⟨hlt, fun v hv => (hvs v hv).height⟩, ⟨?_, ?_⟩, ?_, ?_, ?_⟩ <;>
      simp only [mem_parts_list, reduceCtorEq, false_or, list.injEq]
    · exact fun n ⟨v, hv, hn⟩ => (hvs v hv).typed.int n hn
    · exact fun kvs ⟨v, hv, hkvs⟩ => (hvs v hv).typed.map kvs hkvs
    · exact fun s ⟨v, hv, hs⟩ => (hvs v hv).strings s hs
    · rintro us (rfl | ⟨v, hv, hus⟩)
      · exact hlen
      · exact (hvs v hv).lists us hus
    · exact fun us ⟨v, hv, hus⟩ => (hvs v hv).maps us hus

theorem storableAt_map : (map kvs).StorableAt depth ↔ depth < Python.maxValueDepth ∧
    kvs.length ≤ Python.maxMapEntries ∧ ((kvs.map Prod.fst).Pairwise fun a b => compare a b = .lt) ∧
      ∀ kv ∈ kvs, kv.2.StorableAt (depth + 1) := by
  constructor
  · intro h
    obtain ⟨hlt, hkvs⟩ := height_map_le_iff.mp h.height
    have hself := mem_parts_map.mpr (.inl (rfl : map kvs = map kvs))
    have hpart : ∀ kv ∈ kvs, ∀ w ∈ kv.2.parts, w ∈ (map kvs).parts :=
      fun kv hkv w hw => mem_parts_map.mpr (.inr ⟨kv, hkv, hw⟩)
    refine ⟨hlt, h.maps kvs hself, h.typed.map kvs hself, fun kv hkv => ⟨hkvs kv hkv, h.typed.of_mem_map hkv,
      fun s hs => h.strings s (hpart kv hkv _ hs), fun us hus => h.lists us (hpart kv hkv _ hus),
      fun us hus => h.maps us (hpart kv hkv _ hus)⟩⟩
  · rintro ⟨hlt, hlen, hkeys, hkvs⟩
    refine ⟨height_map_le_iff.mpr ⟨hlt, fun kv hkv => (hkvs kv hkv).height⟩, ⟨?_, ?_⟩, ?_, ?_, ?_⟩ <;>
      simp only [mem_parts_map, reduceCtorEq, false_or, map.injEq]
    · exact fun n ⟨kv, hkv, hn⟩ => (hkvs kv hkv).typed.int n hn
    · rintro us (rfl | ⟨kv, hkv, hus⟩)
      · exact hkeys
      · exact (hkvs kv hkv).typed.map us hus
    · exact fun s ⟨kv, hkv, hs⟩ => (hkvs kv hkv).strings s hs
    · exact fun us ⟨kv, hkv, hus⟩ => (hkvs kv hkv).lists us hus
    · rintro us (rfl | ⟨kv, hkv, hus⟩)
      · exact hlen
      · exact (hkvs kv hkv).maps us hus

end Value

namespace Python

variable {depth : ℕ} {v : Value} {vs : List Value} {kvs : List (String × Value)} {o : PyObj}
  {items : List PyObj} {fields : List (PyKey × PyObj)} {map map' : BTreeMap String Value} {P : Value → Prop}

theorem itemsToValues_spec (hok : itemsToValues items depth = .ok vs)
    (hP : ∀ item ∈ items, ∀ v, pyToValueDepth item depth = .ok v → P v) :
    vs.length = items.length ∧ ∀ v ∈ vs, P v := by
  induction items generalizing vs with
  | nil =>
    obtain rfl := Except.ok.inj hok
    exact ⟨rfl, by simp⟩
  | cons item items ih =>
    obtain ⟨hitem, hitems⟩ := List.forall_mem_cons.mp hP
    rw [itemsToValues] at hok
    cases hv : pyToValueDepth item depth with
    | error => rw [hv] at hok; cases hok
    | ok v =>
      cases hvs : itemsToValues items depth with
      | error => rw [hv, hvs] at hok; cases hok
      | ok vs' =>
        rw [hv, hvs] at hok
        obtain rfl := Except.ok.inj hok
        obtain ⟨hlen, hall⟩ := ih hvs hitems
        exact ⟨congrArg (· + 1) hlen, List.forall_mem_cons.mpr ⟨hitem v hv, hall⟩⟩

theorem itemsToMap_spec (hok : itemsToMap fields depth map = .ok map')
    (hP : ∀ kv ∈ fields, ∀ v, pyToValueDepth kv.2 depth = .ok v → P v)
    (hmap : ∀ (k : String) v, map[k]? = some v → P v) :
    map'.size ≤ map.size + fields.length ∧ ∀ (k : String) v, map'[k]? = some v → P v := by
  induction fields generalizing map with
  | nil =>
    obtain rfl := Except.ok.inj hok
    exact ⟨le_rfl, hmap⟩
  | cons kv fields ih =>
    obtain ⟨k, item⟩ := kv
    obtain ⟨hitem, hfields⟩ := List.forall_mem_cons.mp hP
    rw [itemsToMap] at hok
    cases hk : extractKey k with
    | error => rw [hk] at hok; cases hok
    | ok key =>
      cases hv : pyToValueDepth item depth with
      | error => rw [hk, hv] at hok; cases hok
      | ok v =>
        rw [hk, hv] at hok
        have hinsert : ∀ (k : String) w, (map.insert key v)[k]? = some w → P w := fun k w hw => by
          rw [HashMap.getElem?_insert] at hw
          split at hw
          · exact Option.some.inj hw ▸ hitem v hv
          · exact hmap k w hw
        obtain ⟨hsize, hall⟩ := ih hok hfields hinsert
        have hone : (map.insert key v).size ≤ map.size + 1 := Std.ExtTreeMap.size_insert_le
        exact ⟨by rw [List.length_cons]; omega, hall⟩

theorem itemsToValues_of_ok (h : ∀ v ∈ vs, pyToValueDepth v.toPy depth = .ok v) :
    itemsToValues (Value.listToPy vs) depth = .ok vs := by
  induction vs with
  | nil => rfl
  | cons v vs ih =>
    obtain ⟨hv, hvs⟩ := List.forall_mem_cons.mp h
    rw [Value.listToPy, itemsToValues, hv, ih hvs]
    rfl

theorem itemsToMap_of_ok (h : ∀ kv ∈ kvs, pyToValueDepth kv.2.toPy depth = .ok kv.2) :
    itemsToMap (Value.fieldsToPy kvs) depth map =
      .ok (kvs.foldl (fun map kv => map.insert kv.1 kv.2) map) := by
  induction kvs generalizing map with
  | nil => rfl
  | cons kv kvs ih =>
    obtain ⟨hv, hkvs⟩ := List.forall_mem_cons.mp h
    rw [Value.fieldsToPy, itemsToMap, hv]
    exact ih hkvs

/-- Fields in key order, inserted one after the other, are the walk of the map. -/
theorem toList_foldl_insert (h : (kvs.map Prod.fst).Pairwise fun a b => compare a b = .lt) :
    (kvs.foldl (fun map kv => map.insert kv.1 kv.2) (∅ : BTreeMap String Value)).toList = kvs := by
  rw [List.pairwise_map] at h
  rw [← Std.ExtTreeMap.insertMany_list_eq_foldl, ← Std.ExtTreeMap.ofList_eq_insertMany_empty]
  exact BTreeMap.toList_ofList h

/-- **What comes in** passes the checks. -/
theorem storableAt_of_ok (h : pyToValueDepth o depth = .ok v) : v.StorableAt depth := by
  induction o using PyObj.nested generalizing depth v with
  | none =>
    rw [pyToValueDepth, atDepth_eq_ok] at h
    obtain ⟨hd, rfl⟩ := h.imp_right Except.ok.inj
    exact .leaf rfl rfl (by simp) (by simp) (by simp) (by simp) hd
  | bool b =>
    rw [pyToValueDepth, atDepth_eq_ok] at h
    obtain ⟨hd, rfl⟩ := h.imp_right Except.ok.inj
    exact .leaf rfl rfl (by simp) (by simp) (by simp) (by simp) hd
  | int n =>
    rw [pyToValueDepth, atDepth_eq_ok] at h
    obtain ⟨hd, h⟩ := h
    split at h
    · rename_i hn
      obtain rfl := Except.ok.inj h
      exact .leaf rfl rfl (by simp) (by simp) (fun m hm => Value.int.inj hm ▸ hn) (by simp) hd
    · split at h
      · obtain rfl := Except.ok.inj h
        exact .leaf rfl rfl (by simp) (by simp) (by simp) (by simp) hd
      · cases h
  | float x =>
    rw [pyToValueDepth, atDepth_eq_ok] at h
    obtain ⟨hd, rfl⟩ := h.imp_right Except.ok.inj
    exact .leaf rfl rfl (by simp) (by simp) (by simp) (by simp) hd
  | str s =>
    rw [pyToValueDepth, atDepth_eq_ok] at h
    obtain ⟨hd, h⟩ := h
    split at h
    · cases h
    · rename_i hs
      obtain rfl := Except.ok.inj h
      exact .leaf rfl rfl (by simp) (by simp) (by simp)
        (fun t ht => Value.string.inj ht ▸ not_lt.mp hs) hd
  | list items ih =>
    rw [pyToValueDepth, atDepth_eq_ok] at h
    obtain ⟨hd, h⟩ := h
    split at h
    · cases h
    · rename_i hlen
      cases hvs : itemsToValues items (depth + 1) with
      | error => rw [hvs] at h; cases h
      | ok vs =>
        rw [hvs] at h
        obtain rfl := Except.ok.inj h
        obtain ⟨hvlen, hall⟩ := itemsToValues_spec hvs fun item hitem v hv => ih item hitem hv
        exact Value.storableAt_list.mpr ⟨hd, by omega, hall⟩
  | dict fields ih =>
    rw [pyToValueDepth, atDepth_eq_ok] at h
    obtain ⟨hd, h⟩ := h
    split at h
    · cases h
    · rename_i hlen
      cases hmap : itemsToMap fields (depth + 1) ∅ with
      | error => rw [hmap] at h; cases h
      | ok map =>
        rw [hmap] at h
        obtain rfl := Except.ok.inj h
        obtain ⟨hsize, hall⟩ := itemsToMap_spec hmap (fun kv hkv v hv => ih kv hkv hv) (by simp)
        have hempty : (∅ : BTreeMap String Value).size = 0 := Std.ExtTreeMap.size_empty
        refine Value.storableAt_map.mpr ⟨hd, by rw [Std.ExtTreeMap.length_toList]; omega, ?_, fun kv hkv => ?_⟩
        · rw [List.pairwise_map]
          exact Std.ExtTreeMap.ordered_keys_toList
        · exact hall kv.1 kv.2 (HashMap.mem_toList.mp hkv)
  | other typeName =>
    rw [pyToValueDepth, atDepth_eq_ok] at h
    cases h.2

/-- **What passes the checks** comes in, from the object that it is read as. -/
theorem pyToValueDepth_toPy (h : v.StorableAt depth) : pyToValueDepth v.toPy depth = .ok v := by
  induction v using Value.nested generalizing depth with
  | null => exact atDepth_of_lt h.height _
  | bool b => exact atDepth_of_lt h.height _
  | int n =>
    have hn := h.typed.int n (by simp [Value.parts])
    rw [Value.toPy, pyToValueDepth, atDepth_of_lt h.height, if_pos hn]
  | float x => exact atDepth_of_lt h.height _
  | string s =>
    have hs := h.strings s (by simp [Value.parts])
    rw [Value.toPy, pyToValueDepth, atDepth_of_lt h.height, if_neg (not_lt.mpr hs)]
  | list vs ih =>
    obtain ⟨hlt, hlen, hvs⟩ := Value.storableAt_list.mp h
    rw [Value.toPy, pyToValueDepth, atDepth_of_lt hlt, Value.length_listToPy, if_neg (not_lt.mpr hlen),
      itemsToValues_of_ok fun v hv => ih v hv (hvs v hv)]
    rfl
  | map kvs ih =>
    obtain ⟨hlt, hlen, hkeys, hkvs⟩ := Value.storableAt_map.mp h
    rw [Value.toPy, pyToValueDepth, atDepth_of_lt hlt, Value.length_fieldsToPy, if_neg (not_lt.mpr hlen),
      itemsToMap_of_ok fun kv hkv => ih kv hkv (hkvs kv hkv), Except.map, toList_foldl_insert hkeys]

/-- **Values at the boundary.** A call can write exactly the values that are typed, have at most 64
levels and keep the limits on strings, lists and maps; each of them is read back as an object that
it can be written from again. A value can be read exactly if it has at most 64 levels. -/
theorem python_values_exact (v : Value) :
    ((∃ o, pyToValue o = .ok v) ↔ v.StorableAt 0) ∧
      (v.StorableAt 0 → ∃ o, valueToPy v = .ok o ∧ pyToValue o = .ok v) ∧
      ((∃ o, valueToPy v = .ok o) ↔ v.height ≤ maxValueDepth) := by
  refine ⟨⟨fun ⟨o, ho⟩ => storableAt_of_ok ho, fun h => ⟨_, pyToValueDepth_toPy h⟩⟩, fun h => ?_, ?_⟩
  · exact ⟨v.toPy, valueToPyDepth_of_le h.height, pyToValueDepth_toPy h⟩
  · rw [← Nat.zero_add v.height]
    exact exists_valueToPyDepth_iff

end Python

/-! ### Nodes and edges as dictionaries -/

/-- The dictionary of a node. -/
structure NodeDict where
  nodeId : String
  nodeType : String
  subtype : Option String
  label : String
  properties : List (PyKey × PyObj)

/-- The dictionary of an edge. -/
structure EdgeDict where
  edgeId : String
  edgeType : String
  sourceId : String
  targetId : String
  properties : List (PyKey × PyObj)

namespace Python

/-- Convert a map of values to a dictionary. -/
def valueMapToPydict (map : BTreeMap String Value) : Except ConversionErr (List (PyKey × PyObj)) :=
  fieldsToItems map.toList 0

/-- Convert a node to a dictionary. -/
def nodeToPydict (node : Node) : Except ConversionErr NodeDict := do
  let properties ← valueMapToPydict node.properties
  pure ⟨node.nodeId, node.nodeType, node.subtype, node.label, properties⟩

/-- Convert an edge to a dictionary. -/
def edgeToPydict (edge : Edge) : Except ConversionErr EdgeDict := do
  let properties ← valueMapToPydict edge.properties
  pure ⟨edge.edgeId, edge.edgeType, edge.sourceId, edge.targetId, properties⟩

/-- No value in the map is too deep. -/
def Readable (map : BTreeMap String Value) : Prop :=
  ∀ (k : String) (v : Value), map[k]? = some v → v.height ≤ maxValueDepth

theorem valueMapToPydict_of_readable {map : BTreeMap String Value} (h : Readable map) :
    valueMapToPydict map = .ok (Value.fieldsToPy map.toList) :=
  fieldsToItems_of_ok fun kv hkv => valueToPyDepth_of_le
    (by rw [Nat.zero_add]; exact h kv.1 kv.2 (HashMap.mem_toList.mp hkv))

theorem valueMapToPydict_of_not_readable {map : BTreeMap String Value} (h : ¬ Readable map) :
    valueMapToPydict map = .error tooDeep := by
  refine fieldsToItems_of_error (fun kv _ hdeep => valueToPyDepth_of_not_le hdeep) ?_
  simp only [Readable, not_forall] at h
  obtain ⟨k, v, hv, hdeep⟩ := h
  exact ⟨(k, v), HashMap.mem_toList.mpr hv, by rwa [Nat.zero_add]⟩

end Python

/-- The dictionary of a node whose properties can be read. -/
def Node.toDict (self : Node) : NodeDict :=
  ⟨self.nodeId, self.nodeType, self.subtype, self.label, Value.fieldsToPy self.properties.toList⟩

/-- The dictionary of an edge whose properties can be read. -/
def Edge.toDict (self : Edge) : EdgeDict :=
  ⟨self.edgeId, self.edgeType, self.sourceId, self.targetId, Value.fieldsToPy self.properties.toList⟩

namespace Python

theorem nodeToPydict_of_readable {node : Node} (h : Readable node.properties) :
    nodeToPydict node = .ok node.toDict := by
  rw [nodeToPydict, valueMapToPydict_of_readable h]
  rfl

theorem nodeToPydict_of_not_readable {node : Node} (h : ¬ Readable node.properties) :
    nodeToPydict node = .error tooDeep := by
  rw [nodeToPydict, valueMapToPydict_of_not_readable h]
  rfl

theorem edgeToPydict_of_readable {edge : Edge} (h : Readable edge.properties) :
    edgeToPydict edge = .ok edge.toDict := by
  rw [edgeToPydict, valueMapToPydict_of_readable h]
  rfl

theorem edgeToPydict_of_not_readable {edge : Edge} (h : ¬ Readable edge.properties) :
    edgeToPydict edge = .error tooDeep := by
  rw [edgeToPydict, valueMapToPydict_of_not_readable h]
  rfl

end Python

end SilkGraph
