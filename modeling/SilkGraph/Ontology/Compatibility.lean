import SilkGraph.Ontology.Evolution

/-!
# The compatibility of two ontologies

`check_compatibility` compares content hashes and fingerprints. What a verdict says about
data is decided by what the fingerprints are silent about. If the facts of one ontology are
among those of another, then whatever the first accepts the second accepts if and only if it
adds no rules (`acceptsAll_iff`): a fact may as well be one that narrows what is accepted. And
two ontologies with the same facts accept the same if and only if they are `Alike` in three
things that are no facts: whether a type has a table of subtypes, be it empty; whether a
property is declared by the type itself or inherited as it is; and whether there is an enum
without members.
-/

namespace SilkGraph

namespace Ontology

section

variable [Crates] {o o' : Ontology} {ty k : String} {st : Option String} {v : Value}

/-- Whatever is accepted under the first ontology is accepted under the second. -/
structure AcceptsAll (o o' : Ontology) : Prop where
  nodes : ∀ ty st values, (o.validateNode ty st values).isOk = true →
    (o'.validateNode ty st values).isOk = true
  edges : ∀ ty src tgt values, (o.validateEdge ty src tgt values).isOk = true →
    (o'.validateEdge ty src tgt values).isOk = true
  updates : ∀ ty st k v, (o.validatePropertyUpdate ty st k v).isOk = true →
    (o'.validatePropertyUpdate ty st k v).isOk = true
  edgeUpdates : ∀ ty k v, (o.validateEdgePropertyUpdate ty k v).isOk = true →
    (o'.validateEdgePropertyUpdate ty k v).isOk = true

/-- The second ontology adds no rules to the first. No type of the first gets a table of
subtypes; the resolved table of each type is weaker, and so is what a subtype puts over it;
the tables that updates go by admit what those of the first admit, also for types and edge
types that the first does not have; and an edge type gets no required property unless there
can be no edge of it. -/
structure AddsNoRules (o o' : Ontology) : Prop where
  subtypes : ∀ (ty : String) d d', o.nodeTypes[ty]? = some d → o'.nodeTypes[ty]? = some d' →
    d.subtypes = none → d'.subtypes = none
  effective : ∀ ty ∈ o.nodeTypes, ∀ k : String,
    Weaker (o.effectiveProperties ty)[k]? (o'.effectiveProperties ty)[k]?
  subtypeProperties : ∀ ty ∈ o.nodeTypes, ∀ (st k : String) q, (o'.subtypeDefs ty (some st))[k]? = some q →
    Weaker (o.declaredProperties ty (some st))[k]? (some q)
  own : ∀ (ty k : String) v, Admits (o.ownDefs ty)[k]? v → Admits (o'.ownDefs ty)[k]? v
  ownSubtype : ∀ (ty st k : String) q, (o'.subtypeDefs ty (some st))[k]? = some q →
    ∀ v, Admits (o.ownProperties ty (some st))[k]? v → q.allows v = true
  edges : ∀ (ty k : String) v, Admits (o.edgeDefs ty)[k]? v → Admits (o'.edgeDefs ty)[k]? v
  edgesRequired : ∀ (ty : String) d, o.edgeTypes[ty]? = some d → d.sourceTypes ≠ [] → d.targetTypes ≠ [] →
    ∀ k : String, Requires (o'.edgeDefs ty)[k]? → Requires (o.edgeDefs ty)[k]?

omit [Crates] in
/-- A property of a subtype is one of the subtype in what includes the ontology. -/
theorem Includes.subtypeDefs_none (h : o.Includes o') {s : String} (hnone : (o'.subtypeDefs ty (some s))[k]? = none) :
    (o.subtypeDefs ty (some s))[k]? = none := by
  cases hp : (o.subtypeDefs ty (some s))[k]? with
  | none => rfl
  | some p =>
    obtain ⟨p', hp', -⟩ := h.properties (.subtype ty s) k p hp
    rw [defsOf, hnone] at hp'
    cases hp'

omit [Crates] in
theorem Includes.binds (h : o.Includes o') {src tgt : String} (hbinds : o.Binds ty src tgt) :
    o'.Binds ty src tgt := by
  obtain ⟨d, hd, ⟨s, hs, hsrc⟩, t, ht, htgt⟩ := hbinds
  obtain ⟨d', hd', hsources, htargets⟩ := h.edgeTypes ty d hd
  exact ⟨d', hd', ⟨s, hsources hs, isSubtypeOf_mono h.parents hsrc⟩,
    t, htargets ht, isSubtypeOf_mono h.parents htgt⟩

theorem AcceptsAll.addsNoRules (h : AcceptsAll o o') : AddsNoRules o o' := by
  have hnodes := nodes_iff.mp h.nodes
  have hedges := edges_iff.mp h.edges
  have hupdates := h.updates
  simp only [isOk_validatePropertyUpdate_iff, getElem?_ownProperties] at hupdates
  have hedgeUpdates := h.edgeUpdates
  simp only [isOk_validateEdgePropertyUpdate_iff] at hedgeUpdates
  refine ⟨fun ty d d' hd hd' hnone => ?_, fun ty hty k => ?_, fun ty hty st k q hq => ?_,
    fun ty k v hv => ?_, fun ty st k q hq v hv => ?_, hedgeUpdates, fun ty d hd hsrc htgt k hr => ?_⟩
  · obtain ⟨d₁, hd₁, hnone'⟩ := (hnodes ty none ⟨d, hd, fun _ => hnone⟩).1
    obtain rfl := Option.some.inj (hd'.symm.trans hd₁)
    exact hnone' rfl
  · obtain ⟨st, htakes, hplain, hplain'⟩ := exists_plain_subtype o o' hty
    have hweaker := (hnodes ty st htakes).2 k
    rw [getElem?_declaredProperties, getElem?_declaredProperties, hplain, hplain',
      Std.ExtTreeMap.getElem?_empty, Option.none_or, Option.none_or] at hweaker
    exact hweaker
  · obtain ⟨d, hd⟩ := HashMap.mem_iff_getElem?.mp hty
    have hweaker := (hnodes ty (some st) ⟨d, hd, fun hnone => by cases hnone⟩).2 k
    rw [o'.getElem?_declaredProperties, hq, Option.some_or] at hweaker
    exact hweaker
  · have hupdate := hupdates ty none k v
    rw [subtypeDefs_none, subtypeDefs_none, Std.ExtTreeMap.getElem?_empty, Option.none_or,
      Option.none_or] at hupdate
    exact hupdate hv
  · have hupdate := hupdates ty (some st) k v
    rw [hq, Option.some_or, ← getElem?_ownProperties] at hupdate
    exact hupdate hv q rfl
  · obtain ⟨s, hs⟩ := List.exists_mem_of_ne_nil _ hsrc
    obtain ⟨t, ht⟩ := List.exists_mem_of_ne_nil _ htgt
    have hself : ∀ a, o.isSubtypeOf a a = true := fun a => isSubtypeOf_iff.mpr (.inl rfl)
    exact ((hedges ty s t ⟨d, hd, ⟨s, hs, hself s⟩, t, ht, hself t⟩).2 k).requires hr

theorem AddsNoRules.acceptsAll (h : AddsNoRules o o') (hincl : o.Includes o') : AcceptsAll o o' := by
  refine ⟨nodes_iff.mpr fun ty st ⟨d, hd, hst⟩ => ?_, edges_iff.mpr fun ty src tgt hbinds => ?_,
    fun ty st k v hv => ?_, fun ty k v hv => ?_⟩
  · have hty : ty ∈ o.nodeTypes := HashMap.mem_iff_getElem?.mpr ⟨d, hd⟩
    obtain ⟨d', hd'⟩ := HashMap.mem_iff_getElem?.mp (hincl.nodeTypes ty hty)
    refine ⟨⟨d', hd', fun hnone => h.subtypes ty d d' hd hd' (hst hnone)⟩, fun k => ?_⟩
    cases st with
    | none =>
      simp only [getElem?_declaredProperties, subtypeDefs_none, Std.ExtTreeMap.getElem?_empty,
        Option.none_or]
      exact h.effective ty hty k
    | some s =>
      rw [o'.getElem?_declaredProperties]
      cases hq : (o'.subtypeDefs ty (some s))[k]? with
      | some q => exact h.subtypeProperties ty hty s k q hq
      | none =>
        rw [getElem?_declaredProperties, hincl.subtypeDefs_none hq, Option.none_or, Option.none_or]
        exact h.effective ty hty k
  · refine ⟨hincl.binds hbinds, fun k => ⟨fun hr => ?_, h.edges ty k⟩⟩
    obtain ⟨d, hd, ⟨s, hs, -⟩, t, ht, -⟩ := hbinds
    exact h.edgesRequired ty d hd (List.ne_nil_of_mem hs) (List.ne_nil_of_mem ht) k hr
  · rw [isOk_validatePropertyUpdate_iff] at hv ⊢
    cases st with
    | none =>
      simp only [getElem?_ownProperties, subtypeDefs_none, Std.ExtTreeMap.getElem?_empty,
        Option.none_or] at hv ⊢
      exact h.own ty k v hv
    | some s =>
      rw [o'.getElem?_ownProperties]
      cases hq : (o'.subtypeDefs ty (some s))[k]? with
      | some q =>
        intro p hp
        obtain rfl := Option.some.inj hp
        exact h.ownSubtype ty s k q hq v hv
      | none =>
        rw [getElem?_ownProperties, hincl.subtypeDefs_none hq, Option.none_or] at hv
        rw [Option.none_or]
        exact h.own ty k v hv
  · rw [isOk_validateEdgePropertyUpdate_iff] at hv ⊢
    exact h.edges ty k v hv

/-- **What is included** accepts no more than what includes it if and only if the latter adds
no rules. -/
theorem acceptsAll_iff (hincl : o.Includes o') : AcceptsAll o o' ↔ AddsNoRules o o' :=
  ⟨AcceptsAll.addsNoRules, fun h => h.acceptsAll hincl⟩

/-! ### Definitions with the same facts -/

variable {p p' : PropertyDef}

omit [Crates] in
/-- The constraints of a definition; no constraints are an empty map. -/
def constraintsOf (p : PropertyDef) : BTreeMap String Json := p.constraints.getD ∅

omit [Crates] in
theorem getElem?_constraintsOf {cname : String} {value : Json} :
    (constraintsOf p)[cname]? = some value ↔ ∃ cs, p.constraints = some cs ∧ cs[cname]? = some value := by
  unfold constraintsOf
  cases p.constraints <;> simp

/-- A value is allowed if its type fits and all checks pass. -/
theorem allows_iff : p.allows v = true ↔ (p.valueType = .any ∨ valueMatchesType v p.valueType = true) ∧
    (validateConstraints "" "" v (constraintsOf p)).isOk = true := by
  have hempty : (validateConstraints "" "" v ∅).isOk = true := by
    unfold validateConstraints checkEnum checkNumericBound checkStringLength checkPattern
    simp only [Std.ExtTreeMap.getElem?_empty, Option.bind_none]
    rfl
  have htype : ¬ (p.valueType ≠ .any ∧ (!valueMatchesType v p.valueType) = true) ↔
      (p.valueType = .any ∨ valueMatchesType v p.valueType = true) := by
    rw [not_and_or, not_not, Bool.not_eq_true', Bool.not_eq_false]
  unfold PropertyDef.allows validateValue constraintsOf
  split
  · rename_i hno
    exact iff_of_false (fun h => by cases h) fun h => htype.mpr h.1 hno
  · rename_i hyes
    rw [and_iff_right (htype.mp hyes)]
    cases p.constraints with
    | none => exact iff_of_true rfl hempty
    | some cs => exact Iff.rfl

/-- The enum check asks that a string be in the list. -/
theorem isOk_checkEnum_iff {cs : BTreeMap String Json} : (checkEnum "" "" v cs).isOk = true ↔
    ∀ items s, cs["enum"]? = some (.array items) → v = .string s → Json.string s ∈ items := by
  have hmem : ∀ (items : List Json) (s : String), s ∈ items.filterMap Json.asStr ↔ Json.string s ∈ items := by
    intro items s
    rw [List.mem_filterMap]
    constructor
    · rintro ⟨j, hj, hs⟩
      cases j with
      | string t => exact Option.some.inj hs ▸ hj
      | _ => cases hs
    · exact fun h => ⟨_, h, rfl⟩
  unfold checkEnum
  split
  · rename_i items s hcs
    have hone : (∀ items' s', cs["enum"]? = some (.array items') → Value.string s = .string s' →
        Json.string s' ∈ items') ↔ Json.string s ∈ items := by
      refine ⟨fun h => h items s hcs rfl, fun h items' s' hcs' hv => ?_⟩
      obtain rfl := Json.array.inj (Option.some.inj (hcs.symm.trans hcs'))
      obtain rfl := Value.string.inj hv
      exact h
    rw [hone, ← hmem, ← List.contains_iff_mem]
    dsimp only
    cases (items.filterMap Json.asStr).contains s with
    | true => exact ⟨fun _ => rfl, fun _ => rfl⟩
    | false => exact ⟨fun h => (by cases h), fun h => (by cases h)⟩
  · rename_i hno
    exact iff_of_true rfl fun items s hcs hv => absurd hv (hno items s hcs)

/-- Only the enum check reads the enum. -/
theorem isOk_validateConstraints_congr {cs cs' : BTreeMap String Json}
    (hother : ∀ cname : String, cname ≠ "enum" → cs[cname]? = cs'[cname]?)
    (henum : (checkEnum "" "" v cs).isOk = true ↔ (checkEnum "" "" v cs').isOk = true) :
    (validateConstraints "" "" v cs).isOk = true ↔ (validateConstraints "" "" v cs').isOk = true := by
  have hnumber : ∀ (key : String) (violates : F64 → F64 → Bool) (msg : F64 → F64 → String), key ≠ "enum" →
      checkNumericBound "" "" v cs key violates msg = checkNumericBound "" "" v cs' key violates msg := by
    intro key violates msg hkey
    unfold checkNumericBound
    rw [hother key hkey]
  have hlength : ∀ (key : String) (violates : ℕ → ℕ → Bool) (msg : ℕ → ℕ → String), key ≠ "enum" →
      checkStringLength "" "" v cs key violates msg = checkStringLength "" "" v cs' key violates msg := by
    intro key violates msg hkey
    unfold checkStringLength
    rw [hother key hkey]
  have hpattern : checkPattern "" "" v cs = checkPattern "" "" v cs' := by
    unfold checkPattern
    rw [hother "pattern" (by decide)]
  unfold validateConstraints
  simp only [isOk_bind, henum, hpattern, hnumber "min" _ _ (by decide), hnumber "max" _ _ (by decide),
    hnumber "min_exclusive" _ _ (by decide), hnumber "max_exclusive" _ _ (by decide),
    hlength "min_length" _ _ (by decide), hlength "max_length" _ _ (by decide)]

omit [Crates] in
/-- An enum without members, which is no fact. -/
def EmptyEnum (p : PropertyDef) : Prop := (constraintsOf p)["enum"]? = some (.array [])

omit [Crates] in
theorem constrains_iff {cname : String} {value : Json} : p.Constrains cname value ↔
    (constraintsOf p)[cname]? = some value ∧ ∀ items, value = .array items → cname ≠ "enum" := by
  rw [getElem?_constraintsOf, PropertyDef.Constrains]
  simp only [← and_assoc, exists_and_right]

omit [Crates] in
theorem lists_iff {member : Json} : p.Lists member ↔
    ∃ items, (constraintsOf p)["enum"]? = some (.array items) ∧ member ∈ items := by
  simp only [getElem?_constraintsOf, PropertyDef.Lists]
  constructor
  · rintro ⟨cs, items, hcs, hget, hmem⟩
    exact ⟨items, ⟨cs, hcs, hget⟩, hmem⟩
  · rintro ⟨items, ⟨cs, hcs, hget⟩, hmem⟩
    exact ⟨cs, items, hcs, hget, hmem⟩

omit [Crates] in
theorem CarriedBy.constraint (h : CarriedBy p p') {cname : String} {value : Json} (hname : cname ≠ "enum")
    (hv : (constraintsOf p)[cname]? = some value) : (constraintsOf p')[cname]? = some value :=
  (constrains_iff.mp (h.constraints cname value (constrains_iff.mpr ⟨hv, fun _ _ => hname⟩))).1

omit [Crates] in
/-- Definitions with the same facts have the same constraints, apart from their enums. -/
theorem CarriedBy.constraint_eq (h : CarriedBy p p') (h' : CarriedBy p' p) (cname : String)
    (hname : cname ≠ "enum") : (constraintsOf p)[cname]? = (constraintsOf p')[cname]? := by
  cases hv : (constraintsOf p)[cname]? with
  | some value => exact (h.constraint hname hv).symm
  | none =>
    cases hv' : (constraintsOf p')[cname]? with
    | none => rfl
    | some value =>
      rw [h'.constraint hname hv'] at hv
      cases hv

omit [Crates] in
/-- An enum with members is a fact, so what carries it lists the same strings. -/
theorem CarriedBy.exists_items (h : CarriedBy p p') (h' : CarriedBy p' p)
    (hempty : EmptyEnum p → EmptyEnum p') {items : List Json}
    (hitems : (constraintsOf p)["enum"]? = some (.array items)) :
    ∃ items', (constraintsOf p')["enum"]? = some (.array items') ∧ ∀ m, m ∈ items' ↔ m ∈ items := by
  cases items with
  | nil => exact ⟨[], hempty hitems, fun m => Iff.rfl⟩
  | cons m rest =>
    obtain ⟨items', hitems', -⟩ := lists_iff.mp (h.members m (lists_iff.mpr ⟨_, hitems, List.mem_cons_self⟩))
    refine ⟨items', hitems', fun m' => ⟨fun hm => ?_, fun hm => ?_⟩⟩
    · obtain ⟨items₁, hitems₁, hm₁⟩ := lists_iff.mp (h'.members m' (lists_iff.mpr ⟨_, hitems', hm⟩))
      obtain rfl := Json.array.inj (Option.some.inj (hitems.symm.trans hitems₁))
      exact hm₁
    · obtain ⟨items₁, hitems₁, hm₁⟩ := lists_iff.mp (h.members m' (lists_iff.mpr ⟨_, hitems, hm⟩))
      obtain rfl := Json.array.inj (Option.some.inj (hitems'.symm.trans hitems₁))
      exact hm₁

/-- What one definition allows, another with the same facts allows, if they agree on the enum
or the value is no string. -/
theorem CarriedBy.allows_of (h : CarriedBy p p') (h' : CarriedBy p' p)
    (henum : (EmptyEnum p' → EmptyEnum p) ∨ ∀ s, v ≠ .string s) (hv : p.allows v = true) :
    p'.allows v = true := by
  rw [allows_iff] at hv ⊢
  rw [h.valueType]
  refine ⟨hv.1, ?_⟩
  have hchecks : (checkEnum "" "" v (constraintsOf p)).isOk = true := by
    have hall := hv.2
    unfold validateConstraints at hall
    exact (isOk_bind.mp hall).1
  have hchecks' : (checkEnum "" "" v (constraintsOf p')).isOk = true := by
    rw [isOk_checkEnum_iff] at hchecks ⊢
    intro items' s hitems' hs
    obtain hempty | hno := henum
    · obtain ⟨items, hitems, hsame⟩ := h'.exists_items h hempty hitems'
      exact (hsame _).mp (hchecks items s hitems hs)
    · exact absurd hs (hno s)
  exact (isOk_validateConstraints_congr (h.constraint_eq h') (iff_of_true hchecks hchecks')).mp hv.2

/-- Two definitions agree on whether there is an enum without members, or allow no strings
anyway. -/
def EnumAlike (p p' : PropertyDef) : Prop :=
  (EmptyEnum p ↔ EmptyEnum p') ∨
    ∀ s : String, p.allows (.string s) = false ∧ p'.allows (.string s) = false

theorem EmptyEnum.allows_string (h : EmptyEnum p) (s : String) : p.allows (.string s) = false := by
  rw [Bool.eq_false_iff]
  intro hs
  have hall := (allows_iff.mp hs).2
  unfold validateConstraints at hall
  exact List.not_mem_nil (isOk_checkEnum_iff.mp (isOk_bind.mp hall).1 [] s h rfl)

/-- **Definitions with the same facts** allow the same if and only if they are alike in their
enums. -/
theorem CarriedBy.allows_iff_enumAlike (h : CarriedBy p p') (h' : CarriedBy p' p) :
    (∀ v, p.allows v = true ↔ p'.allows v = true) ↔ EnumAlike p p' := by
  constructor
  · intro hall
    by_cases hempty : EmptyEnum p ↔ EmptyEnum p'
    · exact .inl hempty
    refine .inr fun s => ?_
    have hs : p.allows (.string s) = p'.allows (.string s) := Bool.eq_iff_iff.mpr (hall _)
    by_cases hp : EmptyEnum p
    · rw [← hs]
      exact ⟨hp.allows_string s, hp.allows_string s⟩
    · have hp' : EmptyEnum p' := by
        by_contra hp'
        exact hempty ⟨fun hc => absurd hc hp, fun hc => absurd hc hp'⟩
      rw [hs]
      exact ⟨hp'.allows_string s, hp'.allows_string s⟩
  · rintro (hempty | hstrings) v
    · exact ⟨h.allows_of h' (.inl hempty.mpr), h'.allows_of h (.inl hempty.mp)⟩
    · by_cases hv : ∃ s, v = .string s
      · obtain ⟨s, rfl⟩ := hv
        rw [(hstrings s).1, (hstrings s).2]
      · have hno : ∀ s, v ≠ .string s := fun s hs => hv ⟨s, hs⟩
        exact ⟨h.allows_of h' (.inr hno), h'.allows_of h (.inr hno)⟩

/-! ### Ontologies with the same facts -/

/-- Alike in what is no fact: whether a type has a table of subtypes, whether an enum has no
members, and, where a property does not allow everything, whether a type declares it itself. -/
structure Alike (o o' : Ontology) : Prop where
  subtypes : ∀ (ty : String) d d', o.nodeTypes[ty]? = some d → o'.nodeTypes[ty]? = some d' →
    (d.subtypes = none ↔ d'.subtypes = none)
  enums : ∀ (owner : Owner) (k : String) p p', (o.defsOf owner)[k]? = some p →
    (o'.defsOf owner)[k]? = some p' → EnumAlike p p'
  own : ∀ (ty k : String) p, (o.effectiveProperties ty)[k]? = some p →
    ((o.ownDefs ty)[k]? = none ↔ (o'.ownDefs ty)[k]? = none) ∨ ∀ v, p.allows v = true

omit [Crates] in
/-- Definitions of two ontologies that include each other. -/
theorem Includes.exists_same (h : o.Includes o') (h' : o'.Includes o) (owner : Owner)
    (hp : (o.defsOf owner)[k]? = some p) :
    ∃ p', (o'.defsOf owner)[k]? = some p' ∧ CarriedBy p p' ∧ CarriedBy p' p := by
  obtain ⟨p', hp', hcarried⟩ := h.properties owner k p hp
  obtain ⟨p₁, hp₁, hcarried'⟩ := h'.properties owner k p' hp'
  obtain rfl := Option.some.inj (hp.symm.trans hp₁)
  exact ⟨p', hp', hcarried, hcarried'⟩

theorem Alike.symm (h : Alike o o') (hincl : o.Includes o') (hback : o'.Includes o) : Alike o' o := by
  refine ⟨fun ty d d' hd hd' => (h.subtypes ty d' d hd' hd).symm, fun owner k p p' hp hp' => ?_,
    fun ty k p' hp' => ?_⟩
  · exact (h.enums owner k p' p hp' hp).imp Iff.symm fun hno s => (hno s).symm
  · obtain ⟨p, hp, hcarried', hcarried⟩ := hback.exists_same hincl (.type ty) hp'
    have hallows := (hcarried.allows_iff_enumAlike hcarried').mpr (h.enums (.type ty) k p p' hp hp')
    exact (h.own ty k p hp).imp Iff.symm fun hall v => (hallows v).mp (hall v)

/-- The definition of an owner, and what it allows, in an ontology that is alike. -/
theorem Alike.exists_same (h : Alike o o') (hincl : o.Includes o') (hback : o'.Includes o) (owner : Owner)
    (hp' : (o'.defsOf owner)[k]? = some p') : ∃ p, (o.defsOf owner)[k]? = some p ∧
      p'.required = p.required ∧ ∀ v, p.allows v = true ↔ p'.allows v = true := by
  obtain ⟨p, hp, hcarried', hcarried⟩ := hback.exists_same hincl owner hp'
  exact ⟨p, hp, hcarried.required, (hcarried.allows_iff_enumAlike hcarried').mpr (h.enums owner k p p' hp hp')⟩

theorem weaker_of_same (hreq : p'.required = p.required) (hallows : ∀ v, p.allows v = true ↔ p'.allows v = true) :
    Weaker (some p) (some p') := by
  refine ⟨fun ⟨q, hq, hr⟩ => ⟨p, rfl, ?_⟩, fun v hv q hq => ?_⟩
  · obtain rfl := Option.some.inj hq
    rw [← hreq, hr]
  · obtain rfl := Option.some.inj hq
    exact (hallows v).mp (hv p rfl)

theorem Alike.addsNoRules (h : Alike o o') (hincl : o.Includes o') (hback : o'.Includes o) :
    AddsNoRules o o' := by
  refine ⟨fun ty d d' hd hd' => (h.subtypes ty d d' hd hd').mp, fun ty _ k => ?_,
    fun ty _ st k q hq => ?_, fun ty k v hv q hq => ?_, fun ty st k q hq v hv => ?_,
    fun ty k v hv q hq => ?_, fun ty _ _ _ _ k ⟨q, hq, hr⟩ => ?_⟩
  · cases hp' : (o'.effectiveProperties ty)[k]? with
    | none => exact weaker_none _
    | some p' =>
      obtain ⟨p, hp, hreq, hallows⟩ := h.exists_same hincl hback (.type ty) hp'
      rw [show (o.effectiveProperties ty)[k]? = some p from hp]
      exact weaker_of_same hreq hallows
  · obtain ⟨p, hp, hreq, hallows⟩ := h.exists_same hincl hback (.subtype ty st) hq
    rw [getElem?_declaredProperties, show (o.subtypeDefs ty (some st))[k]? = some p from hp, Option.some_or]
    exact weaker_of_same hreq hallows
  · obtain ⟨p, hp, -, hallows⟩ := h.exists_same hincl hback (.type ty) (effective_of_ownDefs hq)
    obtain hown | hall := h.own ty k p hp
    · cases hold : (o.ownDefs ty)[k]? with
      | none =>
        rw [hown.mp hold] at hq
        cases hq
      | some p₁ =>
        obtain rfl := Option.some.inj (hp.symm.trans (effective_of_ownDefs hold))
        exact (hallows v).mp (hv p hold)
    · exact (hallows v).mp (hall v)
  · obtain ⟨p, hp, -, hallows⟩ := h.exists_same hincl hback (.subtype ty st) hq
    refine (hallows v).mp (hv p ?_)
    rw [getElem?_ownProperties, show (o.subtypeDefs ty (some st))[k]? = some p from hp, Option.some_or]
  · obtain ⟨p, hp, -, hallows⟩ := h.exists_same hincl hback (.edge ty) hq
    exact (hallows v).mp (hv p hp)
  · obtain ⟨p, hp, hreq, -⟩ := h.exists_same hincl hback (.edge ty) hq
    exact ⟨p, hp, hreq ▸ hr⟩

/-- What each of two ontologies adds no rules to has the same definitions, as to what they
allow. -/
theorem AddsNoRules.allows (h : AddsNoRules o o') (owner : Owner) (hp : (o.defsOf owner)[k]? = some p)
    (hp' : (o'.defsOf owner)[k]? = some p') (hv : p.allows v = true) : p'.allows v = true := by
  have hadmits : ∀ e : Option PropertyDef, e = some p → Admits e v := by
    rintro e rfl q hq
    exact Option.some.inj hq ▸ hv
  cases owner with
  | type ty => exact (h.effective ty (mem_nodeTypes_of_effective hp) k).admits v (hadmits _ hp) p' hp'
  | subtype ty st =>
    refine h.ownSubtype ty st k p' hp' v (hadmits _ ?_)
    rw [getElem?_ownProperties, show (o.subtypeDefs ty (some st))[k]? = some p from hp, Option.some_or]
  | edge ty => exact h.edges ty k v (hadmits _ hp) p' hp'

theorem alike_of_addsNoRules (h : AddsNoRules o o') (h' : AddsNoRules o' o) (hincl : o.Includes o')
    (hback : o'.Includes o) : Alike o o' := by
  refine ⟨fun ty d d' hd hd' => ⟨h.subtypes ty d d' hd hd', h'.subtypes ty d' d hd' hd⟩,
    fun owner k p p' hp hp' => ?_, fun ty k p hp => ?_⟩
  · obtain ⟨p₁, hp₁, hcarried, hcarried'⟩ := hincl.exists_same hback owner hp
    obtain rfl := Option.some.inj (hp'.symm.trans hp₁)
    exact (hcarried.allows_iff_enumAlike hcarried').mp fun v =>
      ⟨h.allows owner hp hp', h'.allows owner hp' hp⟩
  · by_contra hno
    rw [not_or] at hno
    refine hno.2 fun v => ?_
    cases hold : (o.ownDefs ty)[k]? with
    | none =>
      cases hnew : (o'.ownDefs ty)[k]? with
      | none => exact absurd (iff_of_true hold hnew) hno.1
      | some p' =>
        refine h'.allows (.type ty) (effective_of_ownDefs hnew) hp (h.own ty k v ?_ p' hnew)
        rw [hold]
        exact fun q hq => by cases hq
    | some p₁ =>
      obtain rfl := Option.some.inj (hp.symm.trans (effective_of_ownDefs hold))
      cases hnew : (o'.ownDefs ty)[k]? with
      | some p' =>
        refine absurd (iff_of_false ?_ ?_) hno.1
        · rw [hold]
          exact Option.some_ne_none p
        · rw [hnew]
          exact Option.some_ne_none p'
      | none =>
        refine h'.own ty k v ?_ p hold
        rw [hnew]
        exact fun q hq => by cases hq

/-- **Equal fingerprints.** Two ontologies with the same facts, in other words, accept the
same if and only if they are alike in what is no fact. -/
theorem same_fingerprint_iff [Serde] (o o' : Ontology) (hfp : o.fingerprint = o'.fingerprint)
    (hu : Unambiguous o o') : AcceptsAll o o' ∧ AcceptsAll o' o ↔ Alike o o' := by
  have hincl : o.Includes o' := (fingerprint_subset_iff hu).mp fun s hs => hfp ▸ hs
  have hback : o'.Includes o := (fingerprint_subset_iff hu.symm).mp fun s hs => hfp ▸ hs
  rw [acceptsAll_iff hincl, acceptsAll_iff hback]
  constructor
  · rintro ⟨h, h'⟩
    exact alike_of_addsNoRules h h' hincl hback
  · exact fun h => ⟨h.addsNoRules hincl hback, (h.symm hincl hback).addsNoRules hback hincl⟩

end

end Ontology

namespace Sample

/-- Pets, with the animals that may bite. -/
def pack (biters : List String) : Ontology :=
  { pets with
    edgeTypes := (∅ : BTreeMap String EdgeTypeDef).insert "bites"
      { sourceTypes := biters, targetTypes := ["animal"] } }

/-- Pets whose dogs repeat that they have an age. -/
def redeclared : Ontology :=
  { pets with
    nodeTypes := pets.nodeTypes.insert "dog"
      { parentType := some "animal"
        properties := (∅ : BTreeMap String PropertyDef).insert "age" ⟨.int, false, none, none⟩ } }

end Sample

namespace Ontology

section

open Sample

theorem getElem?_edgeDefs_pack (biters : List String) (ty k : String) :
    ((pack biters).edgeDefs ty)[k]? = none := by
  rw [edgeDefs, pack, HashMap.getElem?_insert]
  split <;> simp

theorem includes_pack {a b : List String} (h : a ⊆ b) : (pack a).Includes (pack b) := by
  refine ⟨fun _ => id, fun _ _ => id, fun _ sub hsub st hst => ⟨sub, hsub, hst⟩, fun ty d hd => ?_,
    fun owner k p hp => ?_⟩
  · rw [pack, HashMap.getElem?_insert] at hd
    rw [pack, HashMap.getElem?_insert]
    split at hd
    · rename_i hty
      obtain rfl := Option.some.inj hd
      rw [if_pos hty]
      exact ⟨_, rfl, h, List.Subset.refl _⟩
    · simp at hd
  · cases owner with
    | type ty => exact ⟨p, hp, .refl p⟩
    | subtype ty st => exact ⟨p, hp, .refl p⟩
    | edge ty =>
      rw [defsOf, getElem?_edgeDefs_pack] at hp
      cases hp

theorem alike_pack (a b : List String) : Alike (pack a) (pack b) := by
  refine ⟨fun ty d d' hd hd' => ?_, fun owner k p p' hp hp' => ?_, fun ty k p _ => .inl Iff.rfl⟩
  · obtain rfl := Option.some.inj (hd.symm.trans hd')
    exact Iff.rfl
  · have hsame : p = p' := by
      cases owner with
      | type ty => exact Option.some.inj (hp.symm.trans hp')
      | subtype ty st => exact Option.some.inj (hp.symm.trans hp')
      | edge ty =>
        rw [defsOf, getElem?_edgeDefs_pack] at hp
        cases hp
    rw [hsame]
    exact .inl Iff.rfl

/-- Who may bite can be listed in any order. -/
theorem same_fingerprint_pack : AcceptsAll (pack ["dog", "animal"]) (pack ["animal", "dog"]) ∧
    AcceptsAll (pack ["animal", "dog"]) (pack ["dog", "animal"]) :=
  (same_fingerprint_iff _ _ (by decide +kernel)
    (unambiguous_of_nodup (includes_pack (by decide)) (by decide +kernel))).mpr (alike_pack _ _)

/-- An update of a dog's age is checked only if dogs declare it. -/
theorem redeclared_unlike : ¬ ∀ o o' : Ontology, o.validateSelf.isOk = true → o'.validateSelf.isOk = true →
    o.fingerprint = o'.fingerprint → AcceptsAll o o' ∧ AcceptsAll o' o := fun h =>
  absurd ((h pets redeclared (by decide) (by decide) (by decide +kernel)).1.updates "dog" none "age"
    (.string "three") (by decide)) (by decide)

end

section

variable [Crates]

/-! ### Verdicts -/

end

end Ontology

end SilkGraph
