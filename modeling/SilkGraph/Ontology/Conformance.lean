import SilkGraph.Ontology.Basic

/-!
# What the validators say

A property table conforms to the definitions of its type if every value fits the definition
of its property (`Fit`) and every required property has one (`Complete`). The validator of a
whole node checks both against all definitions of the type, inherited ones included
(`declaredProperties`), and the one of a single update checks the value against those of the
type itself and of its subtype only (`ownProperties`). What is declared by an ancestor alone
is the gap between the two (`fits_of_update`).
-/

namespace SilkGraph

/-! ### Maps and checks -/

theorem BTreeMap.getElem?_foldl_insert {V : Type} (l : List (String × V)) (m : BTreeMap String V)
    (hl : l.Pairwise fun a b => a.1 ≠ b.1) (k : String) :
    (l.foldl (fun m kv => m.insert kv.1 kv.2) m)[k]? =
      ((l.find? fun kv => kv.1 == k).map Prod.snd).or m[k]? := by
  induction l generalizing m with
  | nil => rfl
  | cons kv l ih =>
    obtain ⟨hne, hl⟩ := List.pairwise_cons.mp hl
    rw [List.foldl_cons, ih _ hl, HashMap.getElem?_insert]
    by_cases hk : kv.1 = k
    · have hnone : l.find? (fun kv => kv.1 == k) = none := by
        rw [List.find?_eq_none]
        intro x hx
        simpa [hk] using (hne x hx).symm
      simp [hnone, hk]
    · rw [if_neg hk, List.find?_cons_of_neg (by simpa using hk)]

/-- An extended map holds the new value of a key, else the old one. -/
theorem BTreeMap.getElem?_extend {V : Type} (m m' : BTreeMap String V) (k : String) :
    (m.extend m')[k]? = m'[k]?.or m[k]? := by
  have hne : m'.toList.Pairwise fun a b => a.1 ≠ b.1 :=
    Std.ExtTreeMap.distinct_keys_toList.imp fun h heq => h (Std.compare_eq_iff_eq.mpr heq)
  rw [BTreeMap.extend, BTreeMap.getElem?_foldl_insert _ _ hne]
  refine congrArg (fun o : Option V => o.or m[k]?) ?_
  cases hk : m'[k]? with
  | none =>
    rw [Option.map_eq_none_iff, List.find?_eq_none]
    rintro ⟨k', v⟩ hin
    have hget := HashMap.mem_toList.mp hin
    simp only [beq_iff_eq]
    rintro rfl
    rw [hget] at hk
    cases hk
  | some v =>
    have hin : (k, v) ∈ m'.toList := HashMap.mem_toList.mpr hk
    obtain ⟨⟨k', v'⟩, hfind⟩ := Option.isSome_iff_exists.mp
      (List.find?_isSome.mpr ⟨(k, v), hin, by simp⟩ : (m'.toList.find? fun kv => kv.1 == k).isSome)
    have hkey := List.find?_some hfind
    have hget := HashMap.mem_toList.mp (List.mem_of_find?_eq_some hfind)
    simp only [beq_iff_eq] at hkey
    subst hkey
    rw [hk] at hget
    rw [hfind, Option.map_some, Option.some.inj hget]

theorem isOk_bind {ε : Type} {a b : Except ε Unit} :
    (a >>= fun _ => b).isOk = true ↔ a.isOk = true ∧ b.isOk = true := by
  cases a with
  | error err => exact ⟨fun h => (by cases h), fun h => (by cases h.1)⟩
  | ok u => exact ⟨fun h => ⟨rfl, h⟩, And.right⟩

/-- A list of checks passes if each of them does. -/
theorem isOk_forM {ε α : Type} {l : List α} {f : α → Except ε Unit} :
    (l.forM f).isOk = true ↔ ∀ a ∈ l, (f a).isOk = true := by
  induction l with
  | nil => exact ⟨fun _ a ha => (by cases ha), fun _ => rfl⟩
  | cons a l ih =>
    change (f a >>= fun _ => l.forM f).isOk = true ↔ _
    rw [isOk_bind, ih, List.forall_mem_cons]

variable [Crates]

/-! ### Property tables -/

/-- Every value fits the definition of its property, if it has one. -/
def Fit (typeName : String) (defs : BTreeMap String PropertyDef) (values : BTreeMap String Value) :
    Prop :=
  ∀ (k : String) (p : PropertyDef) (v : Value), defs[k]? = some p → values[k]? = some v →
    (validateValue typeName k p v).isOk = true

omit [Crates] in
/-- Every required property has a value, or one that is owed to it. -/
def Complete (defs : BTreeMap String PropertyDef) (values : BTreeMap String Value)
    (owed : String → Prop) : Prop :=
  ∀ (k : String) (p : PropertyDef), defs[k]? = some p → p.required = true → k ∈ values ∨ owed k

omit [Crates] in
theorem Complete.mono {defs : BTreeMap String PropertyDef} {values values' : BTreeMap String Value}
    {owed owed' : String → Prop} (h : Complete defs values owed)
    (hle : ∀ k, k ∈ values ∨ owed k → k ∈ values' ∨ owed' k) : Complete defs values' owed' :=
  fun k p hk hr => hle k (h k p hk hr)

variable {typeName : String} {defs : BTreeMap String PropertyDef} {values : BTreeMap String Value}
  {mode : ValidationMode}

omit [Crates] in
theorem isOk_checkRequired :
    (checkRequired typeName defs values).isOk = true ↔ Complete defs values fun _ => False := by
  rw [checkRequired, isOk_forM]
  constructor
  · intro h k p hk hr
    have hone := h (k, p) (HashMap.mem_toList.mpr hk)
    simp only [hr, Bool.true_and, Bool.not_eq_true', ] at hone
    split at hone
    · cases hone
    · rename_i hin
      exact .inl (Std.ExtTreeMap.contains_iff_mem.mp (by simpa using hin))
  · rintro h ⟨k, p⟩ hin
    simp only []
    split
    · rename_i hmiss
      obtain ⟨hr, hno⟩ := Bool.and_eq_true_iff.mp hmiss
      have hk := (h k p (HashMap.mem_toList.mp hin) hr).resolve_right id
      rw [Std.ExtTreeMap.contains_iff_mem.mpr hk] at hno
      cases hno
    · rfl

/-- What the check of a property table says. -/
theorem isOk_validateProperties : (validateProperties typeName defs values mode).isOk = true ↔
    (mode = .full → Complete defs values fun _ => False) ∧ Fit typeName defs values := by
  -- the loop over the values, by what it does where a definition is there and where none is
  have hfit : ∀ f : String × Value → Except ValidationError Unit,
      (∀ k v p, defs[k]? = some p → f (k, v) = validateValue typeName k p v) →
      (∀ k v, defs[k]? = none → f (k, v) = .ok ()) →
      ((values.toList.forM f).isOk = true ↔ Fit typeName defs values) := by
    intro f hdeclared hundeclared
    rw [isOk_forM]
    constructor
    · intro h k p v hk hv
      rw [← hdeclared k v p hk]
      exact h (k, v) (HashMap.mem_toList.mpr hv)
    · rintro h ⟨k, v⟩ hin
      cases hk : defs[k]? with
      | some p =>
        rw [hdeclared k v p hk]
        exact h k p v hk (HashMap.mem_toList.mp hin)
      | none => rw [hundeclared k v hk]; rfl
  rw [validateProperties]
  cases mode with
  | full =>
    simp only [if_true, true_implies]
    rw [isOk_bind, isOk_checkRequired]
    exact and_congr_right fun _ =>
      hfit _ (fun k v p hk => by dsimp only; rw [hk]) fun k v hk => by dsimp only; rw [hk]
  | skipRequired =>
    simp only [reduceCtorEq, if_false, false_implies, true_and]
    exact hfit _ (fun k v p hk => by dsimp only; rw [hk]) fun k v hk => by dsimp only; rw [hk]

namespace Ontology

variable {o : Ontology} {ty k : String} {st : Option String} {v : Value} {p : PropertyDef}

/-! ### Nodes -/

omit [Crates] in
/-- Definitions of a type, with those of a declared subtype over them. -/
def withSubtype (self : Ontology) (nodeType : String) (subtype : Option String)
    (props : BTreeMap String PropertyDef) : BTreeMap String PropertyDef :=
  match self.nodeTypes[nodeType]?.bind NodeTypeDef.subtypes, subtype with
  | some subtypes, some st =>
    match subtypes[st]? with
    | some stDef => props.extend stDef.properties
    | none => props
  | _, _ => props

omit [Crates] in
/-- The properties of a type and subtype: own, inherited, or of the subtype. -/
def declaredProperties (self : Ontology) (nodeType : String) (subtype : Option String) :
    BTreeMap String PropertyDef :=
  self.withSubtype nodeType subtype (self.effectiveProperties nodeType)

omit [Crates] in
/-- The properties of a type and subtype that an update is checked against. -/
def ownProperties (self : Ontology) (nodeType : String) (subtype : Option String) :
    BTreeMap String PropertyDef :=
  self.withSubtype nodeType subtype
    ((self.nodeTypes[nodeType]?.map NodeTypeDef.properties).getD ∅)

/-- A node that validates has a declared type and conforms to its definitions. -/
theorem properties_of_validateNodeMode
    (h : (o.validateNodeMode ty st values mode).isOk = true) :
    ty ∈ o.nodeTypes ∧ (mode = .full → Complete (o.declaredProperties ty st) values fun _ => False) ∧
      Fit ty (o.declaredProperties ty st) values := by
  rw [← isOk_validateProperties]
  unfold validateNodeMode at h
  unfold declaredProperties withSubtype
  cases hd : o.nodeTypes[ty]? with
  | none =>
    rw [hd] at h
    cases h
  | some d =>
    refine ⟨HashMap.mem_iff_getElem?.mpr ⟨d, hd⟩, ?_⟩
    rw [hd] at h
    rw [Option.bind_some]
    simp only [] at h
    cases hsub : d.subtypes with
    | none =>
      rw [hsub] at h
      exact h
    | some subtypes =>
      rw [hsub] at h
      cases st with
      | none => cases h
      | some st =>
        dsimp only at h ⊢
        generalize subtypes[st]? = found at h ⊢
        cases found with
        | none => exact h
        | some stDef => exact h

omit [Crates] in
theorem effectiveProperties_eq {d : NodeTypeDef} (hd : o.nodeTypes[ty]? = some d) :
    ∃ inherited : BTreeMap String PropertyDef,
      o.effectiveProperties ty = inherited.extend d.properties := by
  rw [effectiveProperties, List.foldl_append, List.foldl_cons, List.foldl_nil, hd]
  exact ⟨_, rfl⟩

omit [Crates] in
/-- What a type or its subtype declares is what counts. -/
theorem declaredProperties_of_own (hk : (o.ownProperties ty st)[k]? = some p) :
    (o.declaredProperties ty st)[k]? = some p := by
  unfold ownProperties withSubtype at hk
  unfold declaredProperties withSubtype
  cases hd : o.nodeTypes[ty]? with
  | none => simp [hd] at hk
  | some d =>
    obtain ⟨inherited, heff⟩ := effectiveProperties_eq hd
    have hown : d.properties[k]? = some p → (o.effectiveProperties ty)[k]? = some p := fun h => by
      rw [heff, BTreeMap.getElem?_extend, h, Option.some_or]
    rw [hd] at hk
    simp only [Option.map_some, Option.getD_some] at hk ⊢
    split at hk
    · split at hk
      · rw [BTreeMap.getElem?_extend] at hk ⊢
        cases hs : (_ : BTreeMap String PropertyDef)[k]? with
        | none =>
          rw [hs, Option.none_or] at hk
          rw [Option.none_or]
          exact hown hk
        | some q =>
          rw [hs, Option.some_or] at hk
          rw [Option.some_or]
          exact hk
      · exact hown hk
    · exact hown hk

/-- What the check of an update says. -/
theorem isOk_validatePropertyUpdate (hty : ty ∈ o.nodeTypes) :
    (o.validatePropertyUpdate ty st k v).isOk = true ↔
      ∀ p, (o.ownProperties ty st)[k]? = some p → (validateValue ty k p v).isOk = true := by
  obtain ⟨d, hd⟩ := HashMap.mem_iff_getElem?.mp hty
  have hcase : (o.ownProperties ty st)[k]? = none ∧ o.validatePropertyUpdate ty st k v = .ok () ∨
      ∃ p, (o.ownProperties ty st)[k]? = some p ∧
        o.validatePropertyUpdate ty st k v = validateValue ty k p v := by
    rw [validatePropertyUpdate, hd]
    dsimp only
    split <;> rename_i hk
    · exact .inl ⟨by unfold ownProperties withSubtype; rw [hd]; exact hk, rfl⟩
    · exact .inr ⟨_, by unfold ownProperties withSubtype; rw [hd]; exact hk, rfl⟩
  obtain ⟨hk, hrun⟩ | ⟨p, hk, hrun⟩ := hcase <;> rw [hk, hrun]
  · exact iff_of_true rfl fun p hp => by cases hp
  · constructor
    · intro h q hq
      exact Option.some.inj hq ▸ h
    · exact fun h => h p rfl

/-- An accepted update fits, unless the property is declared by an ancestor alone: there the
value has to fit of itself. -/
theorem fits_of_update (hty : ty ∈ o.nodeTypes) (h : (o.validatePropertyUpdate ty st k v).isOk = true)
    (inherited : (o.ownProperties ty st)[k]? = none →
      ∀ p, (o.declaredProperties ty st)[k]? = some p → (validateValue ty k p v).isOk = true)
    (hp : (o.declaredProperties ty st)[k]? = some p) : (validateValue ty k p v).isOk = true := by
  cases hk : (o.ownProperties ty st)[k]? with
  | none => exact inherited hk p hp
  | some q =>
    have hq := declaredProperties_of_own hk
    rw [hp] at hq
    obtain rfl := Option.some.inj hq
    exact (isOk_validatePropertyUpdate hty).mp h p hk

/-! ### Edges -/

/-- What the check of an edge says. -/
theorem isOk_validateEdgeMode {src tgt : String} :
    (o.validateEdgeMode ty src tgt values mode).isOk = true ↔ ∃ d, o.edgeTypes[ty]? = some d ∧
      d.sourceTypes.any (fun t => o.isSubtypeOf src t) = true ∧
      d.targetTypes.any (fun t => o.isSubtypeOf tgt t) = true ∧
      (mode = .full → Complete d.properties values fun _ => False) ∧ Fit ty d.properties values := by
  rw [validateEdgeMode]
  split <;> rename_i hd
  · simp [hd, Except.isOk, Except.toBool]
  · rename_i d
    simp only [hd, Option.some.injEq, exists_eq_left']
    split <;> rename_i hs
    · simp [Except.isOk, Except.toBool] at hs ⊢
      grind
    · split <;> rename_i ht
      · simp [Except.isOk, Except.toBool] at ht ⊢
        grind
      · rw [isOk_validateProperties]
        simp only [Bool.not_eq_true, Bool.not_eq_false'] at hs ht
        rw [hs, ht]
        simp

/-- What the check of an update on an edge says. -/
theorem isOk_validateEdgePropertyUpdate {d : EdgeTypeDef} (hd : o.edgeTypes[ty]? = some d) :
    (o.validateEdgePropertyUpdate ty k v).isOk = true ↔
      ∀ p, d.properties[k]? = some p → (validateValue ty k p v).isOk = true := by
  rw [validateEdgePropertyUpdate, hd]
  simp only []
  split <;> rename_i hk
  · simp [hk, Except.isOk, Except.toBool]
  · simp [hk]

end Ontology

end SilkGraph
