import Mathlib.Data.Fintype.EquivFin
import SilkGraph.Ontology.Hierarchy

/-!
# What a definition asks for

For one key, a table of definitions either has a definition or none. What it asks for is then
a value (`Requires`), and of a value that it be allowed (`Admits`); whether a table accepts
all that another does is decided key by key (`weaker_iff`), because `null` is allowed
everywhere and so every table has a map that it accepts.

The validators are tables behind a condition: a node must take the subtype it is given
(`Takes`), the endpoints of an edge must be bound (`Binds`). Updates go by the definitions of
the type itself and of its subtype, and that is where they part from the validation of the
whole node (`update_iff_validateNode`).
-/

namespace SilkGraph

/-! ### Values and definitions -/

section Allows

variable [Crates] {ty k : String} {v : Value} {p : PropertyDef}

/-- The value has the declared type and meets the constraints. -/
def PropertyDef.allows (self : PropertyDef) (value : Value) : Bool :=
  (validateValue "" "" self value).isOk

omit [Crates] in
theorem isOk_checkNumericBound (ty k : String) (cs : BTreeMap String Json) (key : String)
    (violates : F64 → F64 → Bool) (msg : F64 → F64 → String) : (checkNumericBound ty k v cs key violates msg).isOk =
      (checkNumericBound "" "" v cs key violates msg).isOk := by
  unfold checkNumericBound constraintErr
  split
  · split <;> rfl
  · rfl

omit [Crates] in
theorem isOk_checkStringLength (ty k : String) (cs : BTreeMap String Json) (key : String)
    (violates : ℕ → ℕ → Bool) (msg : ℕ → ℕ → String) : (checkStringLength ty k v cs key violates msg).isOk =
      (checkStringLength "" "" v cs key violates msg).isOk := by
  unfold checkStringLength constraintErr
  split
  · split
    · split <;> rfl
    · rfl
  · rfl

theorem isOk_checkEnum (cs : BTreeMap String Json) :
    (checkEnum ty k v cs).isOk = (checkEnum "" "" v cs).isOk := by
  unfold checkEnum constraintErr
  split
  · dsimp only
    split <;> rfl
  · rfl

theorem isOk_checkPattern (cs : BTreeMap String Json) :
    (checkPattern ty k v cs).isOk = (checkPattern "" "" v cs).isOk := by
  unfold checkPattern constraintErr
  split
  · split <;> rfl
  · rfl

/-- The names a check is given are for the text of its errors only. -/
theorem isOk_validateValue : (validateValue ty k p v).isOk = p.allows v := by
  have hbind : ∀ a b : Except ValidationError Unit,
      (a >>= fun _ => b).isOk = (a.isOk && b.isOk) := by
    intro a b
    cases a <;> rfl
  unfold PropertyDef.allows validateValue
  split
  · rfl
  · split
    · unfold validateConstraints
      simp only [hbind]
      rw [isOk_checkEnum, isOk_checkPattern]
      simp only [isOk_checkNumericBound ty k, isOk_checkStringLength ty k]
    · rfl

/-- Null has every type and meets every constraint. -/
theorem PropertyDef.allows_null (p : PropertyDef) : p.allows .null = true := by
  have hnum : ∀ (cs : BTreeMap String Json) (key : String) (violates : F64 → F64 → Bool)
      (msg : F64 → F64 → String), checkNumericBound "" "" .null cs key violates msg = .ok () := by
    intro cs key violates msg
    unfold checkNumericBound valueAsF64
    cases cs[key]?.bind Json.asF64 <;> rfl
  have hlen : ∀ (cs : BTreeMap String Json) (key : String) (violates : ℕ → ℕ → Bool)
      (msg : ℕ → ℕ → String), checkStringLength "" "" .null cs key violates msg = .ok () := by
    intro cs key violates msg
    unfold checkStringLength
    split
    · rename_i hv
      cases hv
    · rfl
  have henum : ∀ cs : BTreeMap String Json, checkEnum "" "" .null cs = .ok () := by
    intro cs
    unfold checkEnum
    split
    · rename_i hv
      cases hv
    · rfl
  have hpattern : ∀ cs : BTreeMap String Json, checkPattern "" "" .null cs = .ok () := by
    intro cs
    unfold checkPattern
    split
    · rename_i hv
      cases hv
    · rfl
  unfold PropertyDef.allows validateValue
  rw [if_neg (by simp [valueMatchesType])]
  split
  · unfold validateConstraints
    simp only [henum, hnum, hlen, hpattern]
    rfl
  · rfl

end Allows

section

variable [Crates] {ty k : String} {v : Value}

/-! ### Tables of definitions -/

omit [Crates] in
/-- There is a definition, and it wants a value. -/
def Requires (e : Option PropertyDef) : Prop := ∃ p, e = some p ∧ p.required = true

/-- The definition, if there is one, allows the value. -/
def Admits (e : Option PropertyDef) (v : Value) : Prop := ∀ p, e = some p → p.allows v = true

/-- What the second definition asks for, the first asks for already. -/
structure Weaker (e e' : Option PropertyDef) : Prop where
  requires : Requires e' → Requires e
  admits : ∀ v, Admits e v → Admits e' v

theorem Weaker.refl (e : Option PropertyDef) : Weaker e e := ⟨id, fun _ => id⟩

/-- Nothing is weaker than no definition. -/
theorem weaker_none (e : Option PropertyDef) : Weaker e none :=
  ⟨fun ⟨_, h, _⟩ => (by cases h), fun _ _ _ h => (by cases h)⟩

/-- The requirement on a value is all that relaxing takes away. -/
theorem weaker_relaxed (p : PropertyDef) : Weaker (some p) (some { p with required := false }) := by
  refine ⟨fun ⟨q, hq, hr⟩ => ?_, fun v h q hq => ?_⟩
  · obtain rfl := Option.some.inj hq
    cases hr
  · obtain rfl := Option.some.inj hq
    exact h p rfl

variable {defs defs' : BTreeMap String PropertyDef} {values : BTreeMap String Value}

/-- A table of definitions accepts a map of values. -/
structure Accepts (defs : BTreeMap String PropertyDef) (values : BTreeMap String Value) : Prop where
  requires : ∀ k, Requires defs[k]? → k ∈ values
  admits : ∀ (k : String) (v : Value), values[k]? = some v → Admits defs[k]? v

theorem isOk_validateProperties_full (ty : String) :
    (validateProperties ty defs values .full).isOk = true ↔ Accepts defs values := by
  rw [isOk_validateProperties]
  constructor
  · rintro ⟨hcomplete, hfit⟩
    refine ⟨fun k ⟨p, hp, hr⟩ => (hcomplete rfl k p hp hr).resolve_right id, fun k v hv p hp => ?_⟩
    rw [← isOk_validateValue]
    exact hfit k p v hp hv
  · intro h
    refine ⟨fun _ k p hp hr => .inl (h.requires k ⟨p, hp, hr⟩), fun k p v hp hv => ?_⟩
    rw [isOk_validateValue]
    exact h.admits k v hv p hp

omit [Crates] in
/-- Null for every property that is declared. -/
def nulls (defs : BTreeMap String PropertyDef) : BTreeMap String Value := defs.map fun _ _ => .null

omit [Crates] in
theorem mem_nulls : k ∈ nulls defs ↔ k ∈ defs := Std.ExtTreeMap.mem_map

omit [Crates] in
theorem getElem?_nulls (h : (nulls defs)[k]? = some v) : v = .null := by
  rw [nulls, Std.ExtTreeMap.getElem?_map] at h
  obtain ⟨p, -, hp⟩ := Option.map_eq_some_iff.mp h
  exact hp.symm

omit [Crates] in
theorem Requires.mem (h : Requires defs[k]?) : k ∈ defs := by
  obtain ⟨p, hp, -⟩ := h
  exact HashMap.mem_iff_getElem?.mpr ⟨p, hp⟩

/-- A value that is admitted can be put beside nulls. -/
theorem accepts_insert_nulls (h : Admits defs[k]? v) : Accepts defs ((nulls defs).insert k v) := by
  refine ⟨fun j hj => ?_, fun j w hw => ?_⟩
  · exact HashMap.mem_insert.mpr (.inr (mem_nulls.mpr hj.mem))
  · rw [HashMap.getElem?_insert] at hw
    split at hw
    · rename_i hk
      obtain rfl := Option.some.inj hw
      exact hk ▸ h
    · obtain rfl := getElem?_nulls hw
      exact fun p _ => p.allows_null

/-- What is not required can be left out. -/
theorem accepts_erase_nulls (h : ¬ Requires defs[k]?) : Accepts defs ((nulls defs).erase k) := by
  refine ⟨fun j hj => ?_, fun j w hw => ?_⟩
  · refine Std.ExtTreeMap.mem_erase.mpr ⟨fun heq => h ?_, mem_nulls.mpr hj.mem⟩
    rw [Std.compare_eq_iff_eq.mp heq]
    exact hj
  · rw [HashMap.getElem?_erase] at hw
    split at hw
    · cases hw
    · obtain rfl := getElem?_nulls hw
      exact fun p _ => p.allows_null

theorem exists_accepts (defs : BTreeMap String PropertyDef) : ∃ values, Accepts defs values :=
  ⟨_, accepts_insert_nulls (k := "") (v := .null) fun p _ => p.allows_null⟩

/-- **Weaker tables.** A table accepts all that another does if and only if it is weaker at
every key. -/
theorem weaker_iff : (∀ k : String, Weaker defs[k]? defs'[k]?) ↔
    ∀ values, Accepts defs values → Accepts defs' values := by
  constructor
  · exact fun h values hv => ⟨fun k hk => hv.requires k ((h k).requires hk),
      fun k v hkv => (h k).admits v (hv.admits k v hkv)⟩
  · intro h k
    constructor
    · intro hreq
      by_contra hno
      have hmem := (h _ (accepts_erase_nulls hno)).requires k hreq
      exact (Std.ExtTreeMap.mem_erase.mp hmem).1 (Std.compare_eq_iff_eq.mpr rfl)
    · intro v hv
      refine (h _ (accepts_insert_nulls hv)).admits k v ?_
      rw [HashMap.getElem?_insert, if_pos rfl]

/-- A map that is accepted stays so with a value that is admitted, and with no other. -/
theorem accepts_insert_iff (h : Accepts defs values) :
    Accepts defs (values.insert k v) ↔ Admits defs[k]? v := by
  constructor
  · intro hnew
    refine hnew.admits k v ?_
    rw [HashMap.getElem?_insert, if_pos rfl]
  · intro hv
    refine ⟨fun j hj => HashMap.mem_insert.mpr (.inr (h.requires j hj)), fun j w hw => ?_⟩
    rw [HashMap.getElem?_insert] at hw
    split at hw
    · rename_i hk
      obtain rfl := Option.some.inj hw
      exact hk ▸ hv
    · exact h.admits j w hw

namespace Ontology

variable {o o' : Ontology} {st : Option String} {src tgt : String}

/-! ### Nodes -/

omit [Crates] in
/-- The type is declared, and takes the subtype or the absence of one. -/
def Takes (self : Ontology) (nodeType : String) (subtype : Option String) : Prop :=
  ∃ d, self.nodeTypes[nodeType]? = some d ∧ (subtype = none → d.subtypes = none)

/-- What the validation of a node says. -/
theorem isOk_validateNode : (o.validateNode ty st values).isOk = true ↔
    o.Takes ty st ∧ Accepts (o.declaredProperties ty st) values := by
  rw [← isOk_validateProperties_full ty]
  unfold validateNode validateNodeMode Takes declaredProperties withSubtype
  cases hd : o.nodeTypes[ty]? with
  | none =>
    refine iff_of_false (fun h => by cases h) ?_
    rintro ⟨⟨d, h, -⟩, -⟩
    cases h
  | some d =>
    simp only [Option.some.injEq, exists_eq_left', Option.bind_some]
    cases hsub : d.subtypes with
    | none => simp
    | some subtypes =>
      cases st with
      | none => exact iff_of_false (fun h => by cases h) fun h => by cases h.1 rfl
      | some st =>
        dsimp only
        cases subtypes[st]? <;> simp

omit [Crates] in
/-- The properties a declared subtype adds. -/
def subtypeDefs (self : Ontology) (nodeType : String) (subtype : Option String) :
    BTreeMap String PropertyDef :=
  match self.nodeTypes[nodeType]?.bind NodeTypeDef.subtypes, subtype with
  | some subtypes, some st => (subtypes[st]?.map SubtypeDef.properties).getD ∅
  | _, _ => ∅

omit [Crates] in
@[simp]
theorem subtypeDefs_none (o : Ontology) (ty : String) : o.subtypeDefs ty none = ∅ := by
  unfold subtypeDefs
  cases o.nodeTypes[ty]?.bind NodeTypeDef.subtypes <;> rfl

omit [Crates] in
/-- A subtype that is not declared declares nothing. -/
theorem subtypeDefs_of_not_mem {s : String}
    (h : ∀ sub, o.nodeTypes[ty]?.bind NodeTypeDef.subtypes = some sub → s ∉ sub) :
    o.subtypeDefs ty (some s) = ∅ := by
  unfold subtypeDefs
  cases hsub : o.nodeTypes[ty]?.bind NodeTypeDef.subtypes with
  | none => rfl
  | some sub =>
    dsimp only
    rw [HashMap.not_mem_iff_getElem?.mp (h sub hsub), Option.map_none, Option.getD_none]

omit [Crates] in
/-- Every declared type takes some subtype, or none, that declares nothing, here or there. -/
theorem exists_plain_subtype (o o' : Ontology) (hty : ty ∈ o.nodeTypes) :
    ∃ st, o.Takes ty st ∧ o.subtypeDefs ty st = ∅ ∧ o'.subtypeDefs ty st = ∅ := by
  obtain ⟨d, hd⟩ := HashMap.mem_iff_getElem?.mp hty
  cases hsub : d.subtypes with
  | none => exact ⟨none, ⟨d, hd, fun _ => hsub⟩, subtypeDefs_none o ty, subtypeDefs_none o' ty⟩
  | some _ =>
    let names : Ontology → List String := fun o =>
      ((o.nodeTypes[ty]?.bind NodeTypeDef.subtypes).map Std.ExtTreeMap.keys).getD []
    obtain ⟨s, hs⟩ := Infinite.exists_notMem_finset (names o ++ names o').toFinset
    rw [List.mem_toFinset, List.mem_append, not_or] at hs
    have hplain : ∀ o : Ontology, s ∉ names o → o.subtypeDefs ty (some s) = ∅ := by
      refine fun o hno => subtypeDefs_of_not_mem fun sub hsub hin => hno ?_
      simp only [names, hsub, Option.map_some, Option.getD_some]
      exact Std.ExtTreeMap.mem_keys.mpr hin
    exact ⟨some s, ⟨d, hd, fun hnone => by cases hnone⟩, hplain o hs.1, hplain o' hs.2⟩

omit [Crates] in
/-- The definitions of the subtype come first. -/
theorem getElem?_withSubtype (o : Ontology) (ty : String) (st : Option String)
    (props : BTreeMap String PropertyDef) (k : String) :
    (o.withSubtype ty st props)[k]? = (o.subtypeDefs ty st)[k]?.or props[k]? := by
  unfold withSubtype subtypeDefs
  cases o.nodeTypes[ty]?.bind NodeTypeDef.subtypes with
  | none => simp
  | some subtypes =>
    cases st with
    | none => simp
    | some st =>
      dsimp only
      cases subtypes[st]? with
      | none => simp
      | some stDef => exact BTreeMap.getElem?_extend props stDef.properties k

omit [Crates] in
theorem getElem?_declaredProperties (o : Ontology) (ty : String) (st : Option String) (k : String) :
    (o.declaredProperties ty st)[k]? = (o.subtypeDefs ty st)[k]?.or (o.effectiveProperties ty)[k]? :=
  o.getElem?_withSubtype ty st _ k

omit [Crates] in
theorem getElem?_ownProperties (o : Ontology) (ty : String) (st : Option String) (k : String) :
    (o.ownProperties ty st)[k]? = (o.subtypeDefs ty st)[k]?.or (o.ownDefs ty)[k]? :=
  o.getElem?_withSubtype ty st _ k

/-- What the validation of an update says. -/
theorem isOk_validatePropertyUpdate_iff :
    (o.validatePropertyUpdate ty st k v).isOk = true ↔ Admits (o.ownProperties ty st)[k]? v := by
  have hone : ∀ p : PropertyDef, (validateValue ty k p v).isOk = p.allows v := fun p => isOk_validateValue
  cases hd : o.nodeTypes[ty]? with
  | none =>
    unfold validatePropertyUpdate ownProperties withSubtype
    rw [hd]
    refine iff_of_true rfl fun p hp => ?_
    simp at hp
  | some d =>
    rw [isOk_validatePropertyUpdate (HashMap.mem_iff_getElem?.mpr ⟨d, hd⟩)]
    exact forall_congr' fun p => imp_congr_right fun _ => by rw [hone]

/-- All nodes stay valid if and only if each type takes what it took and its definitions are
weaker. -/
theorem nodes_iff : (∀ ty st values, (o.validateNode ty st values).isOk = true →
      (o'.validateNode ty st values).isOk = true) ↔
    ∀ ty st, o.Takes ty st → o'.Takes ty st ∧
      ∀ k : String, Weaker (o.declaredProperties ty st)[k]? (o'.declaredProperties ty st)[k]? := by
  simp only [isOk_validateNode]
  constructor
  · intro h ty st htakes
    obtain ⟨values, hv⟩ := exists_accepts (o.declaredProperties ty st)
    exact ⟨(h ty st values ⟨htakes, hv⟩).1,
      weaker_iff.mpr fun values hv => (h ty st values ⟨htakes, hv⟩).2⟩
  · rintro h ty st values ⟨htakes, hv⟩
    obtain ⟨htakes', hweaker⟩ := h ty st htakes
    exact ⟨htakes', weaker_iff.mp hweaker values hv⟩

/-! ### Edges -/

omit [Crates] in
/-- The properties an edge type declares. -/
def edgeDefs (self : Ontology) (edgeType : String) : BTreeMap String PropertyDef :=
  (self.edgeTypes[edgeType]?.map EdgeTypeDef.properties).getD ∅

omit [Crates] in
/-- The edge type is declared and binds both endpoints. -/
def Binds (self : Ontology) (edgeType sourceType targetType : String) : Prop :=
  ∃ d, self.edgeTypes[edgeType]? = some d ∧
    (∃ t ∈ d.sourceTypes, self.isSubtypeOf sourceType t = true) ∧
    ∃ t ∈ d.targetTypes, self.isSubtypeOf targetType t = true

omit [Crates] in
theorem edgeDefs_of_some {d : EdgeTypeDef} (hd : o.edgeTypes[ty]? = some d) :
    o.edgeDefs ty = d.properties := by
  rw [edgeDefs, hd]
  rfl

/-- What the validation of an edge says. -/
theorem isOk_validateEdge : (o.validateEdge ty src tgt values).isOk = true ↔
    o.Binds ty src tgt ∧ Accepts (o.edgeDefs ty) values := by
  rw [validateEdge, isOk_validateEdgeMode, ← isOk_validateProperties_full ty]
  simp only [List.any_eq_true]
  constructor
  · rintro ⟨d, hd, hsrc, htgt, hprops⟩
    rw [edgeDefs_of_some hd, isOk_validateProperties]
    exact ⟨⟨d, hd, hsrc, htgt⟩, fun _ => hprops.1 trivial, hprops.2⟩
  · rintro ⟨⟨d, hd, hsrc, htgt⟩, hprops⟩
    rw [edgeDefs_of_some hd, isOk_validateProperties] at hprops
    exact ⟨d, hd, hsrc, htgt, fun _ => hprops.1 rfl, hprops.2⟩

/-- What the validation of an update on an edge says. -/
theorem isOk_validateEdgePropertyUpdate_iff :
    (o.validateEdgePropertyUpdate ty k v).isOk = true ↔ Admits (o.edgeDefs ty)[k]? v := by
  have hone : ∀ p : PropertyDef, (validateValue ty k p v).isOk = p.allows v := fun p => isOk_validateValue
  cases hd : o.edgeTypes[ty]? with
  | none =>
    unfold validateEdgePropertyUpdate edgeDefs
    rw [hd]
    refine iff_of_true rfl fun p hp => ?_
    simp at hp
  | some d =>
    rw [isOk_validateEdgePropertyUpdate hd, edgeDefs_of_some hd]
    exact forall_congr' fun p => imp_congr_right fun _ => by rw [hone]

/-- All edges stay valid if and only if each edge type binds what it bound and, where it binds
anything, its definitions are weaker. -/
theorem edges_iff : (∀ ty src tgt values, (o.validateEdge ty src tgt values).isOk = true →
      (o'.validateEdge ty src tgt values).isOk = true) ↔
    ∀ ty src tgt, o.Binds ty src tgt → o'.Binds ty src tgt ∧
      ∀ k : String, Weaker (o.edgeDefs ty)[k]? (o'.edgeDefs ty)[k]? := by
  simp only [isOk_validateEdge]
  constructor
  · intro h ty src tgt hbinds
    obtain ⟨values, hv⟩ := exists_accepts (o.edgeDefs ty)
    exact ⟨(h ty src tgt values ⟨hbinds, hv⟩).1,
      weaker_iff.mpr fun values hv => (h ty src tgt values ⟨hbinds, hv⟩).2⟩
  · rintro h ty src tgt values ⟨hbinds, hv⟩
    obtain ⟨hbinds', hweaker⟩ := h ty src tgt hbinds
    exact ⟨hbinds', weaker_iff.mp hweaker values hv⟩

/-! ### Updating against adding -/

/-- A node that is valid stays so with a value that its definitions admit. -/
theorem isOk_validateNode_insert (h : (o.validateNode ty st values).isOk = true) :
    (o.validateNode ty st (values.insert k v)).isOk = true ↔
      Admits (o.declaredProperties ty st)[k]? v := by
  rw [isOk_validateNode] at h ⊢
  rw [accepts_insert_iff h.2]
  exact and_iff_right h.1

theorem isOk_validateEdge_insert (h : (o.validateEdge ty src tgt values).isOk = true) :
    (o.validateEdge ty src tgt (values.insert k v)).isOk = true ↔ Admits (o.edgeDefs ty)[k]? v := by
  rw [isOk_validateEdge] at h ⊢
  rw [accepts_insert_iff h.2]
  exact and_iff_right h.1

/-- **Updating and adding** ask the same of a value, unless the property is neither the
type's own nor its subtype's: there an update may be anything, so the two agree on the values
that the inherited definition allows. On edges they always agree. -/
theorem update_iff_validateNode (o : Ontology) :
    (∀ ty st values k v, (o.validateNode ty st values).isOk = true →
      (((o.validatePropertyUpdate ty st k v).isOk = true ↔
          (o.validateNode ty st (values.insert k v)).isOk = true) ↔
        ((o.ownProperties ty st)[k]? = none → ∀ p, (o.effectiveProperties ty)[k]? = some p →
          (validateValue ty k p v).isOk = true))) ∧
      ∀ ty src tgt values k v, (o.validateEdge ty src tgt values).isOk = true →
        ((o.validateEdgePropertyUpdate ty k v).isOk = true ↔
          (o.validateEdge ty src tgt (values.insert k v)).isOk = true) := by
  constructor
  · intro ty st values k v hnode
    rw [isOk_validateNode_insert hnode, isOk_validatePropertyUpdate_iff]
    cases hown : (o.ownProperties ty st)[k]? with
    | some p =>
      rw [declaredProperties_of_own hown]
      exact iff_of_true Iff.rfl fun h => (by cases h)
    | none =>
      have hdeclared : (o.declaredProperties ty st)[k]? = (o.effectiveProperties ty)[k]? := by
        rw [getElem?_ownProperties, Option.or_eq_none_iff] at hown
        rw [getElem?_declaredProperties, hown.1, Option.none_or]
      have hany : Admits none v := fun p hp => (by cases hp)
      rw [hdeclared, iff_true_left hany]
      simp only [isOk_validateValue, true_implies]
      exact Iff.rfl
  · intro ty src tgt values k v hedge
    rw [isOk_validateEdge_insert hedge, isOk_validateEdgePropertyUpdate_iff]

end Ontology

end

/-! ### Worked instance -/

namespace Sample

/-- Animals with an age, dogs among them, and who bites whom. -/
def pets : Ontology where
  nodeTypes := ((∅ : BTreeMap String NodeTypeDef).insert "animal"
    { properties := (∅ : BTreeMap String PropertyDef).insert "age" ⟨.int, false, none, none⟩ }).insert
    "dog" { parentType := some "animal" }
  edgeTypes := (∅ : BTreeMap String EdgeTypeDef).insert "bites"
    { sourceTypes := ["dog"], targetTypes := ["animal"] }

end Sample

namespace Ontology

open Sample in
/-- The two agree on an age that is a number. -/
theorem update_iff_validateNode_pets :
    (pets.validatePropertyUpdate "dog" none "age" (.int 3)).isOk = true ↔
      (pets.validateNode "dog" none ((∅ : BTreeMap String Value).insert "age" (.int 3))).isOk = true :=
  ((update_iff_validateNode pets).1 "dog" none ∅ "age" (.int 3) (by decide)).mpr fun _ p hp => by
    have hage : p = ⟨.int, false, none, none⟩ := Option.some.inj (hp.symm.trans rfl)
    subst hage
    rfl

open Sample in
/-- The age of a dog is inherited, and an update of it may be a text. -/
theorem update_unlike_validateNode : ¬ ∀ (o : Ontology) ty st values k v,
    o.validateSelf.isOk = true → ty ∈ o.nodeTypes → (o.validateNode ty st values).isOk = true →
    ((o.validatePropertyUpdate ty st k v).isOk = true ↔
      (o.validateNode ty st (values.insert k v)).isOk = true) := fun h =>
  absurd ((h pets "dog" none ∅ "age" (.string "three") (by decide) (by decide) (by decide)).mp (by decide))
    (by decide)

end Ontology

end SilkGraph
