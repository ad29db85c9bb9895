import Mathlib.Data.List.Nodup
import SilkGraph.Ontology.Acceptance

/-!
# Fingerprints

The fingerprint of an ontology is the set of its facts, each of them a line of text.
`Ontology.facts` lists them before they are put into words, `Holds` says which they are, and
`Fact.render` words them. Names and values are joined by colons, so different facts may come
out alike; they do not in a pair of ontologies that is `Unambiguous`. There, one fingerprint is
within another if and only if one ontology is (`Includes`): types, parents, subtypes, bindings,
and every property with its type, its required flag and all its constraints.
-/

namespace SilkGraph

/-- What the fingerprint takes from `serde_json`. -/
class Serde where
  /-- The text of a JSON value. -/
  toText : Json → String

/-- Version of the fingerprint formula. -/
def fingerprintVersion : ℕ := 2

/-- What carries properties. -/
inductive Owner where
  | type (nodeType : String)
  | subtype (nodeType subtype : String)
  | edge (edgeType : String)

/-- An atomic fact about the structure of an ontology. -/
inductive Fact where
  | version
  | type (nodeType : String)
  | parent (nodeType parent : String)
  | subtype (nodeType subtype : String)
  | edge (edgeType : String)
  | source (edgeType nodeType : String)
  | target (edgeType nodeType : String)
  | property (owner : Owner) (name : String) (valueType : ValueType) (required : Bool)
  | constraint (owner : Owner) (name constraint : String) (value : Json)
  /-- Enum members are emitted individually, so that adding one is a superset. -/
  | enumMember (owner : Owner) (name : String) (member : Json)

/-- The owner of a constraint, in words. -/
def Owner.render : Owner → String
  | type t => t
  | subtype t st => s!"{t}:{st}"
  | edge e => s!"edge:{e}"

/-- A fact in words. -/
def Fact.render [Serde] : Fact → String
  | version => s!"fingerprint_version:{fingerprintVersion}"
  | type t => s!"type:{t}"
  | parent t p => s!"type:{t}:parent:{p}"
  | subtype t st => s!"subtype:{t}:{st}"
  | edge e => s!"edge:{e}"
  | source e t => s!"edge:{e}:src:{t}"
  | target e t => s!"edge:{e}:tgt:{t}"
  | property owner k vt required =>
    let req := if required then "required" else "optional"
    let head := match owner with
      | .type t => s!"prop:{t}"
      | .subtype t st => s!"subprop:{t}:{st}"
      | .edge e => s!"edgeprop:{e}"
    s!"{head}:{k}:{vt.debug.toLower}:{req}"
  | constraint owner k cname value => s!"constraint:{owner.render}:{k}:{cname}:{Serde.toText value}"
  | enumMember owner k member =>
    let rendered := member.asStr.getD (Serde.toText member)
    s!"constraint:{owner.render}:{k}:enum:{rendered}"

/-- One fact per declared constraint, and one per member of an enum. -/
def fingerprintConstraints (owner : Owner) (propName : String) (propDef : PropertyDef) : List Fact :=
  match propDef.constraints with
  | none => []
  | some constraints => constraints.toList.flatMap fun (cname, cvalue) =>
    match cvalue with
    | .array items =>
      if cname = "enum" then items.map (.enumMember owner propName)
      else [.constraint owner propName cname (.array items)]
    | other => [.constraint owner propName cname other]

/-- The facts of a table of properties. -/
def fingerprintProperties (owner : Owner) (props : BTreeMap String PropertyDef) : List Fact :=
  props.toList.flatMap fun (propName, propDef) =>
    .property owner propName propDef.valueType propDef.required ::
      fingerprintConstraints owner propName propDef

namespace Ontology

/-- The facts of an ontology. Properties are those of the resolved table of a type, so one
that is inherited is a fact of the type that carries it. -/
def facts (self : Ontology) : List Fact :=
  .version ::
    (self.nodeTypes.toList.flatMap fun (typeName, d) =>
      .type typeName :: d.parentType.toList.map (.parent typeName) ++
        fingerprintProperties (.type typeName) (self.effectiveProperties typeName) ++
        match d.subtypes with
        | some subtypes => subtypes.toList.flatMap fun (subName, subDef) =>
          .subtype typeName subName :: fingerprintProperties (.subtype typeName subName) subDef.properties
        | none => []) ++
    self.edgeTypes.toList.flatMap fun (edgeName, d) =>
      .edge edgeName :: d.sourceTypes.map (.source edgeName) ++ d.targetTypes.map (.target edgeName) ++
        fingerprintProperties (.edge edgeName) d.properties

/-- Set of atomic facts about the structure of an ontology, in words. -/
def fingerprint [Serde] (self : Ontology) : HashSet String :=
  Std.ExtTreeSet.ofList (self.facts.map Fact.render) compare

/-! ### Which facts there are -/

/-- The property table of an owner: the resolved one, if it is a type. -/
def defsOf (self : Ontology) : Owner → BTreeMap String PropertyDef
  | .type t => self.effectiveProperties t
  | .subtype t st => self.subtypeDefs t (some st)
  | .edge e => self.edgeDefs e

end Ontology

/-- The constraint of a name that is a fact of its own: not an enum by a list. -/
def PropertyDef.Constrains (p : PropertyDef) (cname : String) (value : Json) : Prop :=
  ∃ cs, p.constraints = some cs ∧ cs[cname]? = some value ∧ ∀ items, value = .array items → cname ≠ "enum"

/-- The value is in the list of an enum. -/
def PropertyDef.Lists (p : PropertyDef) (member : Json) : Prop :=
  ∃ cs items, p.constraints = some cs ∧ cs["enum"]? = some (.array items) ∧ member ∈ items

namespace Ontology

/-- What a fact says. -/
def Holds (o : Ontology) : Fact → Prop
  | .version => True
  | .type t => t ∈ o.nodeTypes
  | .parent t p => o.parentOf t = some p
  | .subtype t st => ∃ sub, o.nodeTypes[t]?.bind NodeTypeDef.subtypes = some sub ∧ st ∈ sub
  | .edge e => e ∈ o.edgeTypes
  | .source e t => ∃ d, o.edgeTypes[e]? = some d ∧ t ∈ d.sourceTypes
  | .target e t => ∃ d, o.edgeTypes[e]? = some d ∧ t ∈ d.targetTypes
  | .property owner k vt required =>
    ∃ p, (o.defsOf owner)[k]? = some p ∧ p.valueType = vt ∧ p.required = required
  | .constraint owner k cname value => ∃ p, (o.defsOf owner)[k]? = some p ∧ p.Constrains cname value
  | .enumMember owner k member => ∃ p, (o.defsOf owner)[k]? = some p ∧ p.Lists member

variable {o : Ontology} {ty k : String} {p : PropertyDef}

/-- What the facts of one table say. -/
def HoldsIn (owner : Owner) (props : BTreeMap String PropertyDef) : Fact → Prop
  | .property owner' k vt required =>
    owner' = owner ∧ ∃ p, props[k]? = some p ∧ p.valueType = vt ∧ p.required = required
  | .constraint owner' k cname value => owner' = owner ∧ ∃ p, props[k]? = some p ∧ p.Constrains cname value
  | .enumMember owner' k member => owner' = owner ∧ ∃ p, props[k]? = some p ∧ p.Lists member
  | _ => False

theorem mem_fingerprintConstraints {owner : Owner} {f : Fact} : f ∈ fingerprintConstraints owner k p ↔
    (∃ cname value, f = .constraint owner k cname value ∧ p.Constrains cname value) ∨
      ∃ member, f = .enumMember owner k member ∧ p.Lists member := by
  unfold fingerprintConstraints PropertyDef.Constrains PropertyDef.Lists
  cases hcs : p.constraints with
  | none => simp
  | some cs =>
    simp only [List.mem_flatMap, Option.some.injEq, exists_eq_left', exists_and_left]
    constructor
    · rintro ⟨⟨cname, value⟩, hin, hf⟩
      have hget := HashMap.mem_toList.mp hin
      dsimp only at hf
      split at hf
      · rename_i items
        split at hf
        · rename_i hname
          obtain ⟨member, hmember, rfl⟩ := List.mem_map.mp hf
          exact .inr ⟨member, rfl, items, hname ▸ hget, hmember⟩
        · rename_i hname
          obtain rfl := List.mem_singleton.mp hf
          exact .inl ⟨cname, _, rfl, hget, fun _ _ => hname⟩
      · rename_i hother
        obtain rfl := List.mem_singleton.mp hf
        exact .inl ⟨cname, value, rfl, hget, fun items hitems => absurd hitems (hother items)⟩
    · rintro (⟨cname, value, rfl, hget, hname⟩ | ⟨member, rfl, items, hget, hmember⟩)
      · refine ⟨(cname, value), HashMap.mem_toList.mpr hget, ?_⟩
        dsimp only
        split
        · rename_i items
          rw [if_neg (hname items rfl)]
          exact List.mem_singleton_self _
        · exact List.mem_singleton_self _
      · refine ⟨("enum", .array items), HashMap.mem_toList.mpr hget, ?_⟩
        dsimp only
        rw [if_pos rfl]
        exact List.mem_map_of_mem hmember

theorem mem_fingerprintProperties {owner : Owner} {props : BTreeMap String PropertyDef} {f : Fact} :
    f ∈ fingerprintProperties owner props ↔ HoldsIn owner props f := by
  have hmem : f ∈ fingerprintProperties owner props ↔ ∃ k p, props[k]? = some p ∧
      (f = .property owner k p.valueType p.required ∨ f ∈ fingerprintConstraints owner k p) := by
    simp only [fingerprintProperties, List.mem_flatMap, Prod.exists, HashMap.mem_toList, List.mem_cons]
  rw [hmem]
  simp only [mem_fingerprintConstraints]
  cases f with
  | property owner' k vt required =>
    simp only [HoldsIn, Fact.property.injEq, reduceCtorEq, false_and, exists_false, or_false]
    constructor
    · rintro ⟨k', p, hp, rfl, rfl, rfl, rfl⟩
      exact ⟨rfl, p, hp, rfl, rfl⟩
    · rintro ⟨rfl, p, hp, rfl, rfl⟩
      exact ⟨k, p, hp, rfl, rfl, rfl, rfl⟩
  | constraint owner' k cname value =>
    simp only [HoldsIn, Fact.constraint.injEq, reduceCtorEq, false_and, exists_false, or_false, false_or]
    constructor
    · rintro ⟨k', p, hp, cname', value', ⟨rfl, rfl, rfl, rfl⟩, hc⟩
      exact ⟨rfl, p, hp, hc⟩
    · rintro ⟨rfl, p, hp, hc⟩
      exact ⟨k, p, hp, cname, value, ⟨rfl, rfl, rfl, rfl⟩, hc⟩
  | enumMember owner' k member =>
    simp only [HoldsIn, Fact.enumMember.injEq, reduceCtorEq, false_and, exists_false, false_or]
    constructor
    · rintro ⟨k', p, hp, member', ⟨rfl, rfl, rfl⟩, hl⟩
      exact ⟨rfl, p, hp, hl⟩
    · rintro ⟨rfl, p, hp, hl⟩
      exact ⟨k, p, hp, member, ⟨rfl, rfl, rfl⟩, hl⟩
  | _ => simp [HoldsIn]

/-- Only declared types have properties. -/
theorem mem_nodeTypes_of_effective (hp : (o.effectiveProperties ty)[k]? = some p) : ty ∈ o.nodeTypes := by
  by_contra hno
  have hnone := HashMap.not_mem_iff_getElem?.mp hno
  have hparent : o.parentOf ty = none := by rw [parentOf, hnone, Option.bind_none]
  rw [getElem?_effectiveProperties, ancestors_eq_walk, Chain.walk_of_none hparent] at hp
  simp [ownDefs, hnone] at hp

theorem getElem?_subtypeDefs {st : String} : (o.subtypeDefs ty (some st))[k]? = some p ↔
    ∃ sub sd, o.nodeTypes[ty]?.bind NodeTypeDef.subtypes = some sub ∧ sub[st]? = some sd ∧
      sd.properties[k]? = some p := by
  unfold subtypeDefs
  cases o.nodeTypes[ty]?.bind NodeTypeDef.subtypes with
  | none => simp
  | some sub =>
    dsimp only
    cases hsd : sub[st]? with
    | none => simp [hsd]
    | some sd => simp [hsd]

theorem getElem?_edgeDefs : (o.edgeDefs ty)[k]? = some p ↔
    ∃ d, o.edgeTypes[ty]? = some d ∧ d.properties[k]? = some p := by
  unfold edgeDefs
  cases o.edgeTypes[ty]? <;> simp

/-- What is listed, part by part. -/
theorem mem_facts_cases {f : Fact} : f ∈ o.facts ↔ f = .version ∨
    (∃ t d, o.nodeTypes[t]? = some d ∧ (f = .type t ∨ d.parentType.map (.parent t) = some f ∨
      HoldsIn (.type t) (o.effectiveProperties t) f ∨
      ∃ sub, d.subtypes = some sub ∧ ∃ st sd, sub[st]? = some sd ∧
        (f = .subtype t st ∨ HoldsIn (.subtype t st) sd.properties f))) ∨
    ∃ e d, o.edgeTypes[e]? = some d ∧ (f = .edge e ∨ (∃ t ∈ d.sourceTypes, .source e t = f) ∨
      (∃ t ∈ d.targetTypes, .target e t = f) ∨ HoldsIn (.edge e) d.properties f) := by
  have hsub : ∀ (t : String) (d : NodeTypeDef), (f ∈ match d.subtypes with
      | some subtypes => subtypes.toList.flatMap fun x : String × SubtypeDef =>
        Fact.subtype t x.1 :: fingerprintProperties (.subtype t x.1) x.2.properties
      | none => []) ↔ ∃ sub, d.subtypes = some sub ∧ ∃ st sd, sub[st]? = some sd ∧
        (f = .subtype t st ∨ HoldsIn (.subtype t st) sd.properties f) := by
    intro t d
    cases d.subtypes with
    | none => simp
    | some sub =>
      simp only [List.mem_flatMap, Prod.exists, HashMap.mem_toList, List.mem_cons,
        mem_fingerprintProperties, Option.some.injEq, exists_eq_left']
  unfold facts
  simp only [List.mem_cons, List.mem_append, List.mem_flatMap, Prod.exists, HashMap.mem_toList,
    mem_fingerprintProperties, List.mem_map, or_assoc]
  refine or_congr_right (or_congr ?_ Iff.rfl)
  refine exists_congr fun t => exists_congr fun d => and_congr_right fun _ => or_congr_right ?_
  refine or_congr ?_ (or_congr_right (hsub t d))
  cases d.parentType <;> simp

/-- Facts about properties, owner by owner. -/
theorem exists_holdsIn_iff {f : Fact} : ((∃ t d, o.nodeTypes[t]? = some d ∧
      (HoldsIn (.type t) (o.effectiveProperties t) f ∨ ∃ sub, d.subtypes = some sub ∧
        ∃ st sd, sub[st]? = some sd ∧ HoldsIn (.subtype t st) sd.properties f)) ∨
    ∃ e d, o.edgeTypes[e]? = some d ∧ HoldsIn (.edge e) d.properties f) ↔
      ∃ owner, HoldsIn owner (o.defsOf owner) f := by
  have hentry : ∀ {owner : Owner} {props : BTreeMap String PropertyDef}, HoldsIn owner props f →
      ∃ (k : String) (p : PropertyDef), props[k]? = some p := by
    intro owner props h
    cases f with
    | property owner' k vt required =>
      obtain ⟨-, p, hp, -, -⟩ := h
      exact ⟨k, p, hp⟩
    | constraint owner' k cname value =>
      obtain ⟨-, p, hp, -⟩ := h
      exact ⟨k, p, hp⟩
    | enumMember owner' k member =>
      obtain ⟨-, p, hp, -⟩ := h
      exact ⟨k, p, hp⟩
    | _ => cases h
  have hsubtype : ∀ {t st : String} {d : NodeTypeDef} {sub : BTreeMap String SubtypeDef} {sd : SubtypeDef},
      o.nodeTypes[t]? = some d → d.subtypes = some sub → sub[st]? = some sd →
      o.subtypeDefs t (some st) = sd.properties := by
    intro t st d sub sd hd hsub hsd
    unfold subtypeDefs
    rw [hd, Option.bind_some, hsub]
    dsimp only
    rw [hsd, Option.map_some, Option.getD_some]
  constructor
  · rintro (⟨t, d, hd, h | ⟨sub, hsub, st, sd, hsd, h⟩⟩ | ⟨e, d, hd, h⟩)
    · exact ⟨.type t, h⟩
    · refine ⟨.subtype t st, ?_⟩
      rw [defsOf, hsubtype hd hsub hsd]
      exact h
    · refine ⟨.edge e, ?_⟩
      rw [defsOf, edgeDefs_of_some hd]
      exact h
  · rintro ⟨owner, h⟩
    obtain ⟨k, p, hp⟩ := hentry h
    cases owner with
    | type t =>
      obtain ⟨d, hd⟩ := HashMap.mem_iff_getElem?.mp (mem_nodeTypes_of_effective hp)
      exact .inl ⟨t, d, hd, .inl h⟩
    | subtype t st =>
      obtain ⟨sub, sd, hbind, hsd, -⟩ := getElem?_subtypeDefs.mp hp
      obtain ⟨d, hd, hsub⟩ := Option.bind_eq_some_iff.mp hbind
      rw [defsOf, hsubtype hd hsub hsd] at h
      exact .inl ⟨t, d, hd, .inr ⟨sub, hsub, st, sd, hsd, h⟩⟩
    | edge e =>
      obtain ⟨d, hd, -⟩ := getElem?_edgeDefs.mp hp
      rw [defsOf, edgeDefs_of_some hd] at h
      exact .inr ⟨e, d, hd, h⟩

/-- **The facts** are those that hold. -/
theorem mem_facts {f : Fact} : f ∈ o.facts ↔ o.Holds f := by
  rw [mem_facts_cases]
  cases f with
  | version => simp [Holds]
  | type t => simp [Holds, HoldsIn, HashMap.mem_iff_getElem?]
  | parent t q =>
    simp only [Holds, HoldsIn, parentOf, reduceCtorEq, false_or, or_false, and_false, exists_false,
      Option.map_eq_some_iff, Fact.parent.injEq, Option.bind_eq_some_iff]
    constructor
    · rintro ⟨t, d, hd, q, hq, rfl, rfl⟩
      exact ⟨d, hd, hq⟩
    · rintro ⟨d, hd, hq⟩
      exact ⟨t, d, hd, q, hq, rfl, rfl⟩
  | subtype t st =>
    simp only [Holds, HoldsIn, reduceCtorEq, false_or, or_false, and_false, exists_false,
      Option.map_eq_some_iff, Fact.subtype.injEq, Option.bind_eq_some_iff, HashMap.mem_iff_getElem?]
    constructor
    · rintro ⟨t, d, hd, sub, hsub, st, sd, hsd, rfl, rfl⟩
      exact ⟨sub, ⟨d, hd, hsub⟩, sd, hsd⟩
    · rintro ⟨sub, ⟨d, hd, hsub⟩, sd, hsd⟩
      exact ⟨t, d, hd, sub, hsub, st, sd, hsd, rfl, rfl⟩
  | edge e => simp [Holds, HoldsIn, HashMap.mem_iff_getElem?]
  | source e t => simp [Holds, HoldsIn]
  | target e t => simp [Holds, HoldsIn]
  | property owner k vt required =>
    simp only [reduceCtorEq, false_or, and_false, exists_false, Option.map_eq_some_iff, exists_holdsIn_iff]
    simp [Holds, HoldsIn]
  | constraint owner k cname value =>
    simp only [reduceCtorEq, false_or, and_false, exists_false, Option.map_eq_some_iff, exists_holdsIn_iff]
    simp [Holds, HoldsIn]
  | enumMember owner k member =>
    simp only [reduceCtorEq, false_or, and_false, exists_false, Option.map_eq_some_iff, exists_holdsIn_iff]
    simp [Holds, HoldsIn]

/-! ### Ontologies within others -/

/-- The second definition has the type, the required flag, and every constraint and enum
member of the first. -/
structure CarriedBy (p p' : PropertyDef) : Prop where
  valueType : p'.valueType = p.valueType
  required : p'.required = p.required
  constraints : ∀ cname value, p.Constrains cname value → p'.Constrains cname value
  members : ∀ member, p.Lists member → p'.Lists member

/-- All that one ontology says, the other says. -/
structure Includes (o o' : Ontology) : Prop where
  nodeTypes : ∀ ty ∈ o.nodeTypes, ty ∈ o'.nodeTypes
  parents : ∀ a b, o.parentOf a = some b → o'.parentOf a = some b
  subtypes : ∀ (ty : String) sub, o.nodeTypes[ty]?.bind NodeTypeDef.subtypes = some sub → ∀ st ∈ sub,
    ∃ sub', o'.nodeTypes[ty]?.bind NodeTypeDef.subtypes = some sub' ∧ st ∈ sub'
  edgeTypes : ∀ (ty : String) d, o.edgeTypes[ty]? = some d → ∃ d', o'.edgeTypes[ty]? = some d' ∧
    d.sourceTypes ⊆ d'.sourceTypes ∧ d.targetTypes ⊆ d'.targetTypes
  properties : ∀ owner (k : String) p, (o.defsOf owner)[k]? = some p →
    ∃ p', (o'.defsOf owner)[k]? = some p' ∧ CarriedBy p p'

theorem includes_iff {o' : Ontology} : (∀ f, o.Holds f → o'.Holds f) ↔ o.Includes o' := by
  constructor
  · intro h
    refine ⟨fun ty hty => h (.type ty) hty, fun a b hab => h (.parent a b) hab,
      fun ty sub hsub st hst => h (.subtype ty st) ⟨sub, hsub, hst⟩, fun ty d hd => ?_,
      fun owner k p hp => ?_⟩
    · obtain ⟨d', hd'⟩ := HashMap.mem_iff_getElem?.mp (h (.edge ty) (HashMap.mem_iff_getElem?.mpr ⟨d, hd⟩))
      refine ⟨d', hd', fun t ht => ?_, fun t ht => ?_⟩
      · obtain ⟨d₁, hd₁, hin⟩ := h (.source ty t) ⟨d, hd, ht⟩
        obtain rfl := Option.some.inj (hd'.symm.trans hd₁)
        exact hin
      · obtain ⟨d₁, hd₁, hin⟩ := h (.target ty t) ⟨d, hd, ht⟩
        obtain rfl := Option.some.inj (hd'.symm.trans hd₁)
        exact hin
    · obtain ⟨p', hp', hvt, hreq⟩ := h (.property owner k p.valueType p.required) ⟨p, hp, rfl, rfl⟩
      refine ⟨p', hp', hvt, hreq, fun cname value hc => ?_, fun member hl => ?_⟩
      · obtain ⟨p₁, hp₁, hc₁⟩ := h (.constraint owner k cname value) ⟨p, hp, hc⟩
        obtain rfl := Option.some.inj (hp'.symm.trans hp₁)
        exact hc₁
      · obtain ⟨p₁, hp₁, hl₁⟩ := h (.enumMember owner k member) ⟨p, hp, hl⟩
        obtain rfl := Option.some.inj (hp'.symm.trans hp₁)
        exact hl₁
  · intro h f hf
    cases f with
    | version => trivial
    | type ty => exact h.nodeTypes ty hf
    | parent a b => exact h.parents a b hf
    | subtype ty st =>
      obtain ⟨sub, hsub, hst⟩ := hf
      exact h.subtypes ty sub hsub st hst
    | edge ty =>
      obtain ⟨d, hd⟩ := HashMap.mem_iff_getElem?.mp hf
      obtain ⟨d', hd', -⟩ := h.edgeTypes ty d hd
      exact HashMap.mem_iff_getElem?.mpr ⟨d', hd'⟩
    | source ty t =>
      obtain ⟨d, hd, ht⟩ := hf
      obtain ⟨d', hd', hsrc, -⟩ := h.edgeTypes ty d hd
      exact ⟨d', hd', hsrc ht⟩
    | target ty t =>
      obtain ⟨d, hd, ht⟩ := hf
      obtain ⟨d', hd', -, htgt⟩ := h.edgeTypes ty d hd
      exact ⟨d', hd', htgt ht⟩
    | property owner k vt required =>
      obtain ⟨p, hp, rfl, rfl⟩ := hf
      obtain ⟨p', hp', hcarried⟩ := h.properties owner k p hp
      exact ⟨p', hp', hcarried.valueType, hcarried.required⟩
    | constraint owner k cname value =>
      obtain ⟨p, hp, hc⟩ := hf
      obtain ⟨p', hp', hcarried⟩ := h.properties owner k p hp
      exact ⟨p', hp', hcarried.constraints cname value hc⟩
    | enumMember owner k member =>
      obtain ⟨p, hp, hl⟩ := hf
      obtain ⟨p', hp', hcarried⟩ := h.properties owner k p hp
      exact ⟨p', hp', hcarried.members member hl⟩

/-! ### In words -/

section Words

variable [Serde] {o' : Ontology}

theorem mem_fingerprint {s : String} : s ∈ o.fingerprint ↔ ∃ f, o.Holds f ∧ f.render = s := by
  rw [fingerprint, HashSet.mem_ofList, List.mem_map]
  simp only [mem_facts]

/-- No two different facts of the two ontologies are worded alike. -/
def Unambiguous (o o' : Ontology) : Prop :=
  ∀ f g, (o.Holds f ∨ o'.Holds f) → (o.Holds g ∨ o'.Holds g) → f.render = g.render → f = g

theorem Unambiguous.symm (h : Unambiguous o o') : Unambiguous o' o :=
  fun f g hf hg => h f g hf.symm hg.symm

/-- It is enough that the facts of the larger one are worded differently. -/
theorem unambiguous_of_nodup (h : o.Includes o') (hnodup : (o'.facts.map Fact.render).Nodup) :
    Unambiguous o o' := by
  have hmem : ∀ f, o.Holds f ∨ o'.Holds f → f ∈ o'.facts := fun f hf =>
    mem_facts.mpr (hf.elim (includes_iff.mpr h f) id)
  exact fun f g hf hg hrender => List.inj_on_of_nodup_map hnodup (hmem f hf) (hmem g hg) hrender

/-- One ontology is within another: so are their fingerprints. -/
theorem Includes.fingerprint_subset (h : o.Includes o') : ∀ s ∈ o.fingerprint, s ∈ o'.fingerprint := by
  intro s hs
  obtain ⟨f, hf, rfl⟩ := mem_fingerprint.mp hs
  exact mem_fingerprint.mpr ⟨f, includes_iff.mpr h f hf, rfl⟩

/-- **Fingerprints** of an unambiguous pair are within each other as the ontologies are. -/
theorem fingerprint_subset_iff (hu : Unambiguous o o') :
    (∀ s ∈ o.fingerprint, s ∈ o'.fingerprint) ↔ o.Includes o' := by
  refine ⟨fun h => includes_iff.mp fun f hf => ?_, Includes.fingerprint_subset⟩
  obtain ⟨g, hg, hrender⟩ := mem_fingerprint.mp (h _ (mem_fingerprint.mpr ⟨f, hf, rfl⟩))
  exact hu g f (.inr hg) (.inl hf) hrender ▸ hg

end Words

end Ontology

/-! ### Verdicts -/

namespace Ontology

section Verdicts

variable [Crates] [Serde] {o : Ontology} {foreignHash : Hash} {foreignFingerprint : HashSet String}

end Verdicts

end Ontology

end SilkGraph
