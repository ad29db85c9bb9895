import SilkGraph.Data.JsonText

/-!
# Derived serialization

What `#[derive(Serialize, Deserialize)]` makes of a type, as trees. `Derived` is a way to write
together with a way to read that gets back what was written, and each of the types that the source
nests (options, lists, maps, records) is a way to make one of others.

A type may hold trees of its own, of `serde_json::Value`. They are written as they are, so they alone
decide what the text does to a value: which doubles are in it, and how deep it nests beyond what the
type says.
-/

namespace SilkGraph

namespace Json

/-- Induction over what is nested in a tree. -/
theorem nested {P : Json → Prop} (null : P .null) (bool : ∀ b, P (.bool b))
    (number : ∀ n, P (.number n)) (string : ∀ s, P (.string s))
    (array : ∀ js, (∀ j ∈ js, P j) → P (.array js))
    (object : ∀ kvs, (∀ kv ∈ kvs, P kv.2) → P (.object kvs)) (j : Json) : P j :=
  @Json.rec P (fun js => ∀ j ∈ js, P j) (fun kvs => ∀ kv ∈ kvs, P kv.2) (fun kv => P kv.2)
    null bool number string array object
    (fun _ h => absurd h List.not_mem_nil)
    (fun _ _ hj hjs => List.forall_mem_cons.mpr ⟨hj, hjs⟩)
    (fun _ h => absurd h List.not_mem_nil)
    (fun _ _ hkv hkvs => List.forall_mem_cons.mpr ⟨hkv, hkvs⟩)
    (fun _ _ hj => hj) j

mutual

/-- The tree as `serde_json::Value` keeps it: the fields of an object are in order, and of those with
one name the last is there. -/
def kept : Json → Json
  | .array js => .array (keptList js)
  | .object kvs => .object (Std.ExtTreeMap.ofList (keptFields kvs) compare).toList
  | j => j

def keptList : List Json → List Json
  | [] => []
  | j :: js => j.kept :: keptList js

def keptFields : List (String × Json) → List (String × Json)
  | [] => []
  | (k, j) :: kvs => (k, j.kept) :: keptFields kvs

end

mutual

/-- The doubles in a tree. -/
def doubles : Json → List F64
  | .number (.float x) => [x]
  | .array js => doublesList js
  | .object kvs => doublesFields kvs
  | _ => []

def doublesList : List Json → List F64
  | [] => []
  | j :: js => j.doubles ++ doublesList js

def doublesFields : List (String × Json) → List F64
  | [] => []
  | (_, j) :: kvs => j.doubles ++ doublesFields kvs

end

theorem doublesList_eq (js : List Json) : doublesList js = js.flatMap doubles := by
  induction js with
  | nil => rfl
  | cons j js ih => rw [doublesList, ih, List.flatMap_cons]

theorem doublesFields_eq (kvs : List (String × Json)) :
    doublesFields kvs = kvs.flatMap fun kv => kv.2.doubles := by
  induction kvs with
  | nil => rfl
  | cons kv kvs ih => rw [doublesFields, ih, List.flatMap_cons]

theorem depthList_le {js : List Json} {n : ℕ} : depthList js ≤ n ↔ ∀ j ∈ js, j.depth ≤ n := by
  induction js with
  | nil => simp [depthList]
  | cons j js ih => rw [depthList, Nat.max_le, ih, List.forall_mem_cons]

theorem depthFields_le {kvs : List (String × Json)} {n : ℕ} :
    depthFields kvs ≤ n ↔ ∀ kv ∈ kvs, kv.2.depth ≤ n := by
  induction kvs with
  | nil => simp [depthFields]
  | cons kv kvs ih => rw [depthFields, Nat.max_le, ih, List.forall_mem_cons]

/-- If each member goes to itself, so does the list. -/
theorem mapM_self {α : Type} {f : α → Option α} {l : List α} (h : ∀ a ∈ l, f a = some a) :
    l.mapM f = some l := by
  induction l with
  | nil => rfl
  | cons a l ih =>
    obtain ⟨ha, hl⟩ := List.forall_mem_cons.mp h
    rw [List.mapM_cons, ha, ih hl]
    rfl

/-- Every double in the tree is one that the parser reads from its own text. -/
def Survives [SerdeJson] (j : Json) : Prop := ∀ x ∈ j.doubles, SerdeJson.reparse x = some x

/-- The parser reads a tree from its text as it was if that is so for the doubles. -/
theorem Survives.reread [SerdeJson] {j : Json} (h : j.Survives) : j.reread = some j := by
  induction j using nested with
  | null => rfl
  | bool b => rfl
  | number n =>
    cases n with
    | posInt n => rfl
    | negInt n => rfl
    | float x => rw [Json.reread, h x List.mem_cons_self, Option.map_some]
  | string s => rfl
  | array js ih =>
    have hjs : js.mapM Json.reread = some js := mapM_self fun j hj => ih j hj fun x hx => h x <| by
      rw [doubles, doublesList_eq]
      exact List.mem_flatMap_of_mem hj hx
    rw [Json.reread, rereadList_eq, hjs, Option.map_some]
  | object kvs ih =>
    have hkvs : (kvs.mapM fun kv => kv.2.reread.map fun j => (kv.1, j)) = some kvs :=
      mapM_self fun kv hkv => by
        have hkv' : kv.2.reread = some kv.2 := ih kv hkv fun x hx => h x <| by
          rw [doubles, doublesFields_eq]
          exact List.mem_flatMap_of_mem hkv hx
        rw [hkv', Option.map_some]
    rw [Json.reread, rereadFields_eq, hkvs, Option.map_some]

/-! ### Readers -/

def readBool : Json → Except String Bool
  | .bool b => .ok b
  | _ => .error "invalid type: expected a boolean"

/-- `Deserialize for Vec`. -/
def readList {α : Type} (read : Json → Except String α) : Json → Except String (List α)
  | .array js => js.mapM read
  | _ => .error "invalid type: expected a sequence"

/-- `Deserialize for BTreeMap`: of fields with one name the last is there. -/
def readMap {α : Type} (read : Json → Except String α) : Json → Except String (BTreeMap String α)
  | .object kvs => do
    let fields ← kvs.mapM fun kv => do pure (kv.1, ← read kv.2)
    pure (Std.ExtTreeMap.ofList fields compare)
  | _ => .error "invalid type: expected a map"

/-- The fields of a record: an object has them by their names, and an array in the order of the
declaration, of which it may leave out the last. -/
def recordFields (names : List String) : Json → Except String (List (String × Json))
  | .object kvs => .ok kvs
  | .array js => if js.length ≤ names.length then .ok (names.zip js) else .error "trailing characters"
  | _ => .error "invalid type: expected a struct"

theorem mapM_ok {α β : Type} {f : α → Except String β} {g : α → β} {l : List α}
    (h : ∀ a ∈ l, f a = .ok (g a)) : l.mapM f = .ok (l.map g) := by
  induction l with
  | nil => rfl
  | cons a l ih =>
    obtain ⟨ha, hl⟩ := List.forall_mem_cons.mp h
    rw [List.mapM_cons, ha, ih hl]
    rfl

end Json

/-! ### Ways to write and to read -/

/-- How a type is written and read. `trees` are the trees that a value holds as they are: a value is
read as it was written if they are kept, the doubles in its text are theirs, and the text nests at
most `levels` deeper than they do. -/
structure Derived (α : Type) where
  write : α → Json
  read : Json → Except String α
  trees : α → List Json
  levels : ℕ
  read_write : ∀ x, (∀ j ∈ trees x, j.kept = j) → read (write x) = .ok x
  doubles_write : ∀ x, ∀ f ∈ (write x).doubles, ∃ j ∈ trees x, f ∈ j.doubles
  depth_write : ∀ x n, (∀ j ∈ trees x, j.depth ≤ n) → (write x).depth ≤ levels + n

namespace Derived

open Json

variable {α : Type}

theorem survives_write [SerdeJson] (d : Derived α) {x : α} (h : ∀ j ∈ d.trees x, j.Survives) :
    (d.write x).Survives := fun f hf => by
  obtain ⟨j, hj, hf⟩ := d.doubles_write x f hf
  exact h j hj f hf

def string : Derived String where
  write := .string
  read := readString
  trees _ := []
  levels := 0
  read_write _ _ := rfl
  doubles_write _ _ h := absurd h List.not_mem_nil
  depth_write _ _ _ := Nat.zero_le _

def bool : Derived Bool where
  write := .bool
  read := readBool
  trees _ := []
  levels := 0
  read_write _ _ := rfl
  doubles_write _ _ h := absurd h List.not_mem_nil
  depth_write _ _ _ := Nat.zero_le _

/-- `serde_json::Value`. -/
def tree : Derived Json where
  write j := j
  read j := .ok j.kept
  trees j := [j]
  levels := 0
  read_write j h := congrArg Except.ok (h j List.mem_cons_self)
  doubles_write j _ h := ⟨j, List.mem_cons_self, h⟩
  depth_write j n h := by rw [Nat.zero_add]; exact h j List.mem_cons_self

/-- `Option`, of a type that is not written as `null`. -/
def option (d : Derived α) (h : ∀ x, d.write x ≠ .null) : Derived (Option α) where
  write x := x.elim .null d.write
  read := readOption d.read
  trees x := x.elim [] d.trees
  levels := d.levels
  read_write x hx := by
    cases x with
    | none => rfl
    | some x =>
      have hread : readOption d.read (d.write x) = return some (← d.read (d.write x)) := by
        have hne := h x
        cases hw : d.write x <;> first | rfl | exact absurd hw hne
      rw [Option.elim_some, hread, d.read_write x hx]
      rfl
  doubles_write x f hf := by
    cases x with
    | none => exact absurd hf List.not_mem_nil
    | some x => exact d.doubles_write x f hf
  depth_write x n hx := by
    cases x with
    | none => exact Nat.zero_le _
    | some x => exact d.depth_write x n hx

/-- `Vec`. -/
def list (d : Derived α) : Derived (List α) where
  write xs := .array (xs.map d.write)
  read := readList d.read
  trees xs := xs.flatMap d.trees
  levels := d.levels + 1
  read_write xs hxs := by
    rw [readList, List.mapM_map, mapM_ok (g := id), List.map_id]
    exact fun x hx => d.read_write x fun j hj => hxs j (List.mem_flatMap_of_mem hx hj)
  doubles_write xs f hf := by
    rw [doubles, doublesList_eq, List.mem_flatMap] at hf
    obtain ⟨j, hj, hf⟩ := hf
    obtain ⟨x, hx, rfl⟩ := List.mem_map.mp hj
    obtain ⟨j, hj, hf⟩ := d.doubles_write x f hf
    exact ⟨j, List.mem_flatMap_of_mem hx hj, hf⟩
  depth_write xs n hxs := by
    have hle : depthList (xs.map d.write) ≤ d.levels + n := depthList_le.mpr fun j hj => by
      obtain ⟨x, hx, rfl⟩ := List.mem_map.mp hj
      exact d.depth_write x n fun j hj => hxs j (List.mem_flatMap_of_mem hx hj)
    rw [depth]
    omega

/-- `BTreeMap`, with strings as keys. -/
def map (d : Derived α) : Derived (BTreeMap String α) where
  write m := .object (m.toList.map fun kx => (kx.1, d.write kx.2))
  read := readMap d.read
  trees m := m.toList.flatMap fun kx => d.trees kx.2
  levels := d.levels + 1
  read_write m hm := by
    rw [readMap, List.mapM_map, mapM_ok (g := id), List.map_id]
    · exact congrArg Except.ok (BTreeMap.ofList_toList m)
    · intro kx hkx
      have hread := d.read_write kx.2 fun j hj => hm j (List.mem_flatMap.mpr ⟨kx, hkx, hj⟩)
      rw [Function.comp_apply, hread]
      rfl
  doubles_write m f hf := by
    rw [doubles, doublesFields_eq, List.mem_flatMap] at hf
    obtain ⟨kj, hkj, hf⟩ := hf
    obtain ⟨kx, hkx, rfl⟩ := List.mem_map.mp hkj
    obtain ⟨j, hj, hf⟩ := d.doubles_write kx.2 f hf
    exact ⟨j, List.mem_flatMap.mpr ⟨kx, hkx, hj⟩, hf⟩
  depth_write m n hm := by
    have hle : depthFields (m.toList.map fun kx => (kx.1, d.write kx.2)) ≤ d.levels + n :=
      depthFields_le.mpr fun kj hkj => by
        obtain ⟨kx, hkx, rfl⟩ := List.mem_map.mp hkj
        exact d.depth_write kx.2 n fun j hj => hm j (List.mem_flatMap.mpr ⟨kx, hkx, hj⟩)
    rw [depth]
    omega

end Derived

/-! ### Records -/

/-- A field of a record. -/
structure Field (α : Type) where
  name : String
  write : α → Json
  trees : α → List Json
  levels : ℕ
  doubles_write : ∀ x, ∀ f ∈ (write x).doubles, ∃ j ∈ trees x, f ∈ j.doubles
  depth_write : ∀ x n, (∀ j ∈ trees x, j.depth ≤ n) → (write x).depth ≤ levels + n

namespace Derived

open Json

variable {α β : Type}

/-- A field of the type. -/
def field (d : Derived β) (name : String) (get : α → β) : Field α where
  name
  write x := d.write (get x)
  trees x := d.trees (get x)
  levels := d.levels
  doubles_write x := d.doubles_write (get x)
  depth_write x := d.depth_write (get x)

/-- The fields of a record as it is written. -/
def entries (fields : List (Field α)) (x : α) : List (String × Json) := fields.map fun f => (f.name, f.write x)

/-- The trees in the fields of a record. -/
def fieldTrees (fields : List (Field α)) (x : α) : List Json := fields.flatMap fun f => f.trees x

section

variable {fields : List (Field α)} {name : String} {get : α → β} {d : Derived β}

/-- There is one field of a name. -/
theorem filter_name {f : Field α} (nodup : (fields.map Field.name).Nodup) (hf : f ∈ fields) :
    fields.filter (fun g => g.name == f.name) = [f] := by
  induction fields with
  | nil => cases hf
  | cons g fields ih =>
    obtain ⟨hg, nodup⟩ := List.nodup_cons.mp nodup
    obtain rfl | hf := List.mem_cons.mp hf
    · have hrest : fields.filter (fun g => g.name == f.name) = [] := List.filter_eq_nil_iff.mpr fun g hg' heq =>
        hg (List.mem_map.mpr ⟨g, hg', eq_of_beq heq⟩)
      rw [List.filter_cons_of_pos (by exact beq_self_eq_true f.name), hrest]
    · have hne : ¬ (g.name == f.name) = true := fun heq => hg (List.mem_map.mpr ⟨f, hf, (eq_of_beq heq).symm⟩)
      rw [List.filter_cons_of_neg (by exact hne), ih nodup hf]

/-- A field is found where it was written. -/
theorem field_entries (nodup : (fields.map Field.name).Nodup) (hf : d.field name get ∈ fields) (x : α) :
    Json.field (entries fields x) name = .ok (some (d.write (get x))) := by
  have hfilter : (entries fields x).filter (fun kv => kv.1 == name) =
      (fields.filter fun f => f.name == name).map fun f => (f.name, f.write x) := List.filter_map
  have hone : fields.filter (fun f => f.name == name) = [d.field name get] := filter_name nodup hf
  rw [Json.field, hfilter, hone]
  rfl

theorem read_field (hf : d.field name get ∈ fields) {x : α} (hx : ∀ j ∈ fieldTrees fields x, j.kept = j) :
    d.read (d.write (get x)) = .ok (get x) :=
  d.read_write (get x) fun j hj => hx j (List.mem_flatMap_of_mem hf hj)

theorem required_entries (nodup : (fields.map Field.name).Nodup) (hf : d.field name get ∈ fields) {x : α}
    (hx : ∀ j ∈ fieldTrees fields x, j.kept = j) : required (entries fields x) name d.read = .ok (get x) := by
  rw [required, field_entries nodup hf x]
  exact read_field hf hx

theorem orDefault_entries (nodup : (fields.map Field.name).Nodup) (hf : d.field name get ∈ fields) {x : α}
    (hx : ∀ j ∈ fieldTrees fields x, j.kept = j) (default : β) :
    orDefault (entries fields x) name d.read default = .ok (get x) := by
  rw [orDefault, field_entries nodup hf x]
  exact read_field hf hx

end

/-- A record: an object of its fields, of which what is read is given the entries. -/
def record (fields : List (Field α)) (read : List (String × Json) → Except String α) (levels : ℕ)
    (le_levels : ∀ f ∈ fields, f.levels ≤ levels)
    (read_entries : ∀ x, (∀ j ∈ fieldTrees fields x, j.kept = j) → read (entries fields x) = .ok x) :
    Derived α where
  write x := .object (entries fields x)
  read j := do read (← recordFields (fields.map Field.name) j)
  trees := fieldTrees fields
  levels := levels + 1
  read_write := read_entries
  doubles_write x f hf := by
    rw [doubles, doublesFields_eq, List.mem_flatMap] at hf
    obtain ⟨kj, hkj, hf⟩ := hf
    obtain ⟨g, hg, rfl⟩ := List.mem_map.mp hkj
    obtain ⟨j, hj, hf⟩ := g.doubles_write x f hf
    exact ⟨j, List.mem_flatMap_of_mem hg hj, hf⟩
  depth_write x n hx := by
    have hle : depthFields (entries fields x) ≤ levels + n := depthFields_le.mpr fun kj hkj => by
      obtain ⟨g, hg, rfl⟩ := List.mem_map.mp hkj
      have hdepth := g.depth_write x n fun j hj => hx j (List.mem_flatMap_of_mem hg hj)
      exact hdepth.trans (Nat.add_le_add_right (le_levels g hg) n)
    rw [depth]
    omega

end Derived

end SilkGraph
