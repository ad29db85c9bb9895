import SilkGraph.Ontology.Extensions

/-!
# What an extension does to data

An accepted extension can take away as well as give: it may require a property of a type that
has been there, give a type or an edge type a property that not every value meets, add
subtypes to a type that had none, or override what was inherited. All that was accepted stays
accepted if and only if it does none of that (`acceptsMore_merge_iff`).
-/

namespace SilkGraph

namespace Ontology

variable {o o' : Ontology} {x : OntologyExtension} {ty k : String} {st : Option String}

/-! ### What a type has after an extension -/

/-- Parents stay, except that a type that is new may have one. -/
theorem Merged.parentOf_eq (h : Merged o x o') (hty : ty ∉ x.nodeTypes) : o'.parentOf ty = o.parentOf ty := by
  rw [parentOf, parentOf, h.nodeTypes, HashMap.not_mem_iff_getElem?.mp hty, Option.none_or]
  cases o.nodeTypes[ty]? <;> rfl

theorem Merged.parentOf_of_some (h : Merged o x o') (a b : String) (hab : o.parentOf a = some b) :
    o'.parentOf a = some b := by
  obtain ⟨d, hd, -⟩ := Option.bind_eq_some_iff.mp hab
  rw [h.parentOf_eq fun hin => h.newNodes a hin (HashMap.mem_iff_getElem?.mpr ⟨d, hd⟩)]
  exact hab

/-- No parent is new. -/
def OldParents (o : Ontology) (x : OntologyExtension) : Prop :=
  ∀ a b, o.parentOf a = some b → b ∉ x.nodeTypes

/-- In a consistent ontology, parents are declared. -/
theorem Merged.oldParents (h : Merged o x o') (hself : o.validateSelf.isOk = true) : OldParents o x :=
  fun _ b hab hin => h.newNodes b hin (parent_declared hself hab)

theorem Merged.ancestors_eq (h : Merged o x o') (hold : OldParents o x) (hty : ty ∉ x.nodeTypes) :
    o'.ancestors ty = o.ancestors ty := by
  rw [ancestors_eq_walk, ancestors_eq_walk]
  exact Chain.walk_congr (fun a ha => h.parentOf_eq ha) (fun a b _ hab => hold a b hab) 100 hty

/-- The line of a type is old if its parents are. -/
theorem OldParents.line (hold : OldParents o x) (hty : ty ∉ x.nodeTypes) :
    ∀ t ∈ ty :: o.ancestors ty, t ∉ x.nodeTypes := by
  intro t ht
  obtain rfl | ht := List.mem_cons.mp ht
  · exact hty
  · obtain ⟨c, -, hc⟩ := Relation.TransGen.tail'_iff.mp (transGen_of_mem_ancestors ht)
    exact hold c t hc

/-- Subtypes stay subtypes. -/
theorem Merged.isSubtypeOf_mono (h : Merged o x o') {a b : String} (hab : o.isSubtypeOf a b = true) :
    o'.isSubtypeOf a b = true := Ontology.isSubtypeOf_mono h.parentOf_of_some hab

/-- What a type declares itself: what it is given, or what it had, relaxed perhaps. -/
theorem Merged.getElem?_ownDefs (h : Merged o x o') (hty : ty ∉ x.nodeTypes) (k : String) :
    (o'.ownDefs ty)[k]? = ((x.nodeUpdate ty).addProperties[k]?.or (o.ownDefs ty)[k]?).map fun p =>
      if k ∈ (x.nodeUpdate ty).relaxProperties then { p with required := false } else p := by
  cases hd : o.nodeTypes[ty]? with
  | some d => rw [ownDefs_of_some (h.nodeType hd), ownDefs_of_some hd, getElem?_updateNodeType]
  | none =>
    have hblank := OntologyExtension.nodeUpdate_of_not_mem fun hin =>
      HashMap.not_mem_iff_getElem?.mpr hd (h.nodeUpdates ty hin)
    have hnone : o'.nodeTypes[ty]? = none := by
      rw [h.nodeTypes, HashMap.not_mem_iff_getElem?.mp hty, hd]
      rfl
    rw [hblank, ownDefs, ownDefs, hnone, hd]
    simp

/-- A property that is given was not there, and is as it was given. -/
theorem Merged.getElem?_ownDefs_added (h : Merged o x o') {q : PropertyDef}
    (hq : (x.nodeUpdate ty).addProperties[k]? = some q) :
    ty ∈ o.nodeTypes ∧ (o.ownDefs ty)[k]? = none ∧ (o'.ownDefs ty)[k]? = some q := by
  have hty : ty ∈ o.nodeTypes := by
    by_contra hno
    rw [OntologyExtension.nodeUpdate_of_not_mem fun hin => hno (h.nodeUpdates ty hin)] at hq
    simp at hq
  obtain ⟨d, hd⟩ := HashMap.mem_iff_getElem?.mp hty
  have hfits := h.nodeFits ty d hd
  have hnew : k ∉ d.properties := hfits.properties k (HashMap.mem_iff_getElem?.mpr ⟨q, hq⟩)
  refine ⟨hty, ?_, ?_⟩
  · rw [ownDefs_of_some hd]
    exact HashMap.not_mem_iff_getElem?.mp hnew
  · rw [h.getElem?_ownDefs (fun hin => h.newNodes ty hin hty), hq, Option.some_or, Option.map_some,
      if_neg fun hin => hnew (hfits.relaxes k hin)]

/-- A property that was there is there, relaxed perhaps. -/
theorem Merged.getElem?_ownDefs_old (h : Merged o x o') {p : PropertyDef} (hp : (o.ownDefs ty)[k]? = some p) :
    (o'.ownDefs ty)[k]? =
      some (if k ∈ (x.nodeUpdate ty).relaxProperties then { p with required := false } else p) := by
  have hty : ty ∉ x.nodeTypes := by
    intro hin
    have hnone := HashMap.not_mem_iff_getElem?.mp (h.newNodes ty hin)
    rw [ownDefs, hnone] at hp
    simp at hp
  have hadded : (x.nodeUpdate ty).addProperties[k]? = none := by
    cases hq : (x.nodeUpdate ty).addProperties[k]? with
    | none => rfl
    | some q =>
      obtain ⟨-, hno, -⟩ := h.getElem?_ownDefs_added hq
      rw [hp] at hno
      cases hno
  rw [h.getElem?_ownDefs hty, hadded, Option.none_or, hp, Option.map_some]

/-- The subtype that an extension gives to a type. -/
def addedSubtype (x : OntologyExtension) (nodeType : String) (subtype : Option String) : Option SubtypeDef :=
  subtype.bind fun st => (x.nodeUpdate nodeType).addSubtypes[st]?

theorem updateNodeType_subtypes_of_empty {d : NodeTypeDef} {u : NodeTypeUpdate}
    (hadd : ∀ st, st ∉ u.addSubtypes) : (updateNodeType d u).subtypes = d.subtypes := by
  rw [updateNodeType]
  exact if_pos (Std.ExtTreeMap.isEmpty_iff.mpr (Std.ExtTreeMap.eq_empty_iff_forall_not_mem.mpr hadd))

/-- Subtypes given to a type that has subtypes join the others. -/
theorem updateNodeType_subtypes_of_some {d : NodeTypeDef} {u : NodeTypeUpdate}
    {sub : BTreeMap String SubtypeDef} (hsub : d.subtypes = some sub) :
    (updateNodeType d u).subtypes = some (sub.extend u.addSubtypes) := by
  rw [updateNodeType]
  dsimp only
  split
  · rename_i hempty
    rw [hsub, BTreeMap.extend_of_forall_not_mem]
    rw [Std.ExtTreeMap.isEmpty_iff.mp hempty]
    exact fun _ => Std.ExtTreeMap.not_mem_empty
  · rw [hsub, Option.getD_some]

/-- The properties of a subtype: those it is given, if it is new, else those it had. -/
theorem Merged.subtypeDefs_eq (h : Merged o x o') {d : NodeTypeDef} (hd : o.nodeTypes[ty]? = some d)
    (hadd : d.subtypes = none → ∀ st, st ∉ (x.nodeUpdate ty).addSubtypes) (st : Option String) :
    o'.subtypeDefs ty st = ((addedSubtype x ty st).map SubtypeDef.properties).getD (o.subtypeDefs ty st) := by
  unfold subtypeDefs addedSubtype
  rw [h.nodeType hd, hd, Option.bind_some, Option.bind_some]
  cases hsub : d.subtypes with
  | none =>
    have hnone : ∀ s : String, (x.nodeUpdate ty).addSubtypes[s]? = none := fun s =>
      HashMap.not_mem_iff_getElem?.mp (hadd hsub s)
    rw [updateNodeType_subtypes_of_empty (hadd hsub), hsub]
    cases st with
    | none => rfl
    | some s =>
      rw [Option.bind_some, hnone]
      rfl
  | some sub =>
    rw [updateNodeType_subtypes_of_some hsub]
    cases st with
    | none => rfl
    | some s =>
      dsimp only
      rw [BTreeMap.getElem?_extend, Option.bind_some]
      cases (x.nodeUpdate ty).addSubtypes[s]? <;> rfl

/-- A subtype that is given was not there. -/
theorem Merged.subtypeDefs_added (h : Merged o x o') {d : NodeTypeDef} (hd : o.nodeTypes[ty]? = some d)
    {sub : SubtypeDef} (hsub : addedSubtype x ty st = some sub) : o.subtypeDefs ty st = ∅ := by
  obtain ⟨s, rfl, hs⟩ := Option.bind_eq_some_iff.mp hsub
  unfold subtypeDefs
  rw [hd, Option.bind_some]
  cases hold : d.subtypes with
  | none => rfl
  | some old =>
    have hnew := (h.nodeFits ty d hd).subtypes old hold s (HashMap.mem_iff_getElem?.mpr ⟨sub, hs⟩)
    dsimp only
    rw [HashMap.not_mem_iff_getElem?.mp hnew]
    rfl

/-! ### Extensions that only give -/

section

variable [Crates]

/-- Whatever is accepted under the first ontology is accepted under the second: nodes, edges,
and updates of declared types. -/
structure AcceptsMore (o o' : Ontology) : Prop where
  nodes : ∀ ty st values, (o.validateNode ty st values).isOk = true →
    (o'.validateNode ty st values).isOk = true
  edges : ∀ ty src tgt values, (o.validateEdge ty src tgt values).isOk = true →
    (o'.validateEdge ty src tgt values).isOk = true
  updates : ∀ ty st k v, ty ∈ o.nodeTypes → (o.validatePropertyUpdate ty st k v).isOk = true →
    (o'.validatePropertyUpdate ty st k v).isOk = true
  edgeUpdates : ∀ ty k v, ty ∈ o.edgeTypes → (o.validateEdgePropertyUpdate ty k v).isOk = true →
    (o'.validateEdgePropertyUpdate ty k v).isOk = true

omit [Crates] in
/-- The nearest type in the line of a type that has the property, or is given it. -/
def bearer (o : Ontology) (x : OntologyExtension) (nodeType k : String) : Option String :=
  (nodeType :: o.ancestors nodeType).find? fun t =>
    (o.ownDefs t).contains k || (x.nodeUpdate t).addProperties.contains k

/-- The extension takes nothing away. No type gets its first subtypes; a property that is
given allows every value, and is required only where it was required before; one that comes
with a subtype allows what the type's own allows; and an edge type that gets a required
property has no endpoints yet. -/
structure Harmless (o : Ontology) (x : OntologyExtension) : Prop where
  subtypes : ∀ ty d, o.nodeTypes[ty]? = some d → d.subtypes = none →
    ∀ st, st ∉ (x.nodeUpdate ty).addSubtypes
  properties : ∀ (ty k : String) (q : PropertyDef), (x.nodeUpdate ty).addProperties[k]? = some q → ∀ v, q.allows v = true
  required : ∀ ty ∈ o.nodeTypes, ∀ (t k : String) (q : PropertyDef), o.bearer x ty k = some t →
    (x.nodeUpdate t).addProperties[k]? = some q → q.required = true →
    Requires (o.effectiveProperties ty)[k]?
  subtypeProperties : ∀ ty ∈ o.nodeTypes, ∀ (st k : String) (sub : SubtypeDef) (q : PropertyDef),
    (x.nodeUpdate ty).addSubtypes[st]? = some sub → sub.properties[k]? = some q → (∀ v, Admits (o.ownDefs ty)[k]? v → q.allows v = true) ∧
      (q.required = true → Requires (o.effectiveProperties ty)[k]?)
  edgeProperties : ∀ ty d, o.edgeTypes[ty]? = some d → ∀ (k : String) (q : PropertyDef),
    (x.edgeUpdate ty).addProperties[k]? = some q → (∀ v, q.allows v = true) ∧
      (q.required = true → d.sourceTypes = [] ∨ d.targetTypes = [])

omit [Crates] in
/-- Without a bearer there is no such property, before or after. -/
theorem Merged.effective_of_bearer_none (h : Merged o x o') (hbearer : o.bearer x ty k = none) :
    (o.effectiveProperties ty)[k]? = none ∧
      (OldParents o x → ty ∉ x.nodeTypes → (o'.effectiveProperties ty)[k]? = none) := by
  have hneither : ∀ t ∈ ty :: o.ancestors ty,
      (o.ownDefs t)[k]? = none ∧ (x.nodeUpdate t).addProperties[k]? = none := by
    intro t ht
    have hno := List.find?_eq_none.mp hbearer t ht
    rw [Bool.or_eq_true, not_or, Std.ExtTreeMap.contains_iff_mem, Std.ExtTreeMap.contains_iff_mem,
      HashMap.not_mem_iff_getElem?, HashMap.not_mem_iff_getElem?] at hno
    exact hno
  rw [getElem?_effectiveProperties, getElem?_effectiveProperties]
  refine ⟨List.findSome?_eq_none_iff.mpr fun t ht => (hneither t ht).1, fun hold hty => ?_⟩
  rw [h.ancestors_eq hold hty]
  refine List.findSome?_eq_none_iff.mpr fun t ht => ?_
  rw [h.getElem?_ownDefs (hold.line hty t ht), (hneither t ht).1, (hneither t ht).2]
  rfl

omit [Crates] in
/-- With a bearer, the property is the one it is given, or the one it had, relaxed perhaps. -/
theorem Merged.effective_of_bearer (h : Merged o x o') {t : String} (hbearer : o.bearer x ty k = some t) :
    (∀ q, (x.nodeUpdate t).addProperties[k]? = some q → (o'.effectiveProperties ty)[k]? = some q) ∧
      ((x.nodeUpdate t).addProperties[k]? = none → ∃ p, (o.ownDefs t)[k]? = some p ∧
        (o.effectiveProperties ty)[k]? = some p ∧ (o'.effectiveProperties ty)[k]? =
          some (if k ∈ (x.nodeUpdate t).relaxProperties then { p with required := false } else p)) := by
  obtain ⟨hhas, nearer, further, hsplit, hnearer⟩ := List.find?_eq_some_iff_append.mp hbearer
  -- the nearer types have parents, so they are declared, and none of them has the property
  have hbefore : ∀ a ∈ nearer, (o.ownDefs a)[k]? = none ∧ (o'.ownDefs a)[k]? = none := by
    intro a ha
    have hchain : List.IsChain o.Parent (ty :: o.ancestors ty) := by
      rw [ancestors_eq_walk]
      exact Chain.isChain_walk 100 ty
    rw [hsplit] at hchain
    obtain ⟨c, hc⟩ := Chain.exists_step_of_isChain hchain ha
    obtain ⟨d, hd, -⟩ := Option.bind_eq_some_iff.mp hc
    have hno := hnearer a ha
    rw [Bool.not_eq_true', Bool.or_eq_false_iff] at hno
    have hown : (o.ownDefs a)[k]? = none := HashMap.not_mem_iff_getElem?.mp fun hin => by
      rw [Std.ExtTreeMap.contains_iff_mem.mpr hin] at hno
      cases hno.1
    have hadd : (x.nodeUpdate a).addProperties[k]? = none := HashMap.not_mem_iff_getElem?.mp fun hin => by
      rw [Std.ExtTreeMap.contains_iff_mem.mpr hin] at hno
      cases hno.2
    refine ⟨hown, ?_⟩
    rw [h.getElem?_ownDefs fun hin => h.newNodes a hin (HashMap.mem_iff_getElem?.mpr ⟨d, hd⟩), hown, hadd]
    rfl
  obtain ⟨rest, hrest⟩ : ty :: o.ancestors ty <+: ty :: o'.ancestors ty := by
    rw [ancestors_eq_walk, ancestors_eq_walk]
    exact List.cons_prefix_cons.mpr ⟨rfl, Chain.walk_isPrefix h.parentOf_of_some 100 ty⟩
  have hskip : ∀ (f : String → Option PropertyDef) (r : List String), (∀ a ∈ nearer, f a = none) →
      (nearer ++ t :: further ++ r).findSome? f = (t :: (further ++ r)).findSome? f := by
    intro f r hf
    rw [List.append_assoc, List.findSome?_append, List.findSome?_eq_none_iff.mpr hf, Option.none_or,
      List.cons_append]
  have hold := hskip (fun a => (o.ownDefs a)[k]?) [] fun a ha => (hbefore a ha).1
  have hnew := hskip (fun a => (o'.ownDefs a)[k]?) rest fun a ha => (hbefore a ha).2
  rw [List.append_nil, ← hsplit, ← getElem?_effectiveProperties, List.append_nil] at hold
  rw [← hsplit, hrest, ← getElem?_effectiveProperties] at hnew
  rw [hold, hnew, List.findSome?_cons, List.findSome?_cons]
  refine ⟨fun q hq => ?_, fun hnone => ?_⟩
  · rw [(h.getElem?_ownDefs_added hq).2.2]
  · rw [Bool.or_eq_true, Std.ExtTreeMap.contains_iff_mem, Std.ExtTreeMap.contains_iff_mem,
      HashMap.mem_iff_getElem?, HashMap.mem_iff_getElem?, hnone] at hhas
    obtain ⟨p, hp⟩ | ⟨q, hq⟩ := hhas
    · refine ⟨p, hp, ?_, ?_⟩
      · rw [hp]
      · rw [h.getElem?_ownDefs_old hp]
    · cases hq

/-! ### Harmless extensions -/

variable {v : Value}

theorem Harmless.weaker_effective (hx : Harmless o x) (h : Merged o x o') (hself : o.validateSelf.isOk = true)
    (hty : ty ∈ o.nodeTypes) (k : String) :
    Weaker (o.effectiveProperties ty)[k]? (o'.effectiveProperties ty)[k]? := by
  cases hbearer : o.bearer x ty k with
  | none =>
    rw [(h.effective_of_bearer_none hbearer).2 (h.oldParents hself) fun hin => h.newNodes ty hin hty]
    exact weaker_none _
  | some t =>
    obtain ⟨hgiven, hkept⟩ := h.effective_of_bearer hbearer
    cases hq : (x.nodeUpdate t).addProperties[k]? with
    | some q =>
      rw [hgiven q hq]
      refine ⟨fun ⟨p, hp, hr⟩ => ?_, fun v _ p hp => ?_⟩
      · obtain rfl := Option.some.inj hp
        exact hx.required ty hty t k q hbearer hq hr
      · obtain rfl := Option.some.inj hp
        exact hx.properties t k q hq v
    | none =>
      obtain ⟨p, -, hp, hp'⟩ := hkept hq
      rw [hp, hp']
      split
      · exact weaker_relaxed p
      · exact .refl _

theorem Harmless.admits_ownDefs (hx : Harmless o x) (h : Merged o x o') (hty : ty ∈ o.nodeTypes)
    (hv : Admits (o.ownDefs ty)[k]? v) : Admits (o'.ownDefs ty)[k]? v := by
  cases hq : (x.nodeUpdate ty).addProperties[k]? with
  | some q =>
    rw [(h.getElem?_ownDefs_added hq).2.2]
    intro p hp
    obtain rfl := Option.some.inj hp
    exact hx.properties ty k q hq v
  | none =>
    rw [h.getElem?_ownDefs (fun hin => h.newNodes ty hin hty), hq, Option.none_or]
    cases hold : (o.ownDefs ty)[k]? with
    | none => exact fun p hp => (by cases hp)
    | some p =>
      rw [Option.map_some]
      rw [hold] at hv
      split
      · exact (weaker_relaxed p).admits v hv
      · exact hv

theorem Harmless.takes (hx : Harmless o x) (h : Merged o x o') (htakes : o.Takes ty st) : o'.Takes ty st := by
  obtain ⟨d, hd, hst⟩ := htakes
  refine ⟨_, h.nodeType hd, fun hnone => ?_⟩
  rw [updateNodeType_subtypes_of_empty (hx.subtypes ty d hd (hst hnone))]
  exact hst hnone

omit [Crates] in
/-- What a value or a type admits under its own definition it admits as an effective one. -/
theorem effective_of_ownDefs {p : PropertyDef} (hp : (o.ownDefs ty)[k]? = some p) :
    (o.effectiveProperties ty)[k]? = some p := by
  rw [getElem?_effectiveProperties, List.findSome?_cons, hp]

theorem Harmless.weaker_declared (hx : Harmless o x) (h : Merged o x o') (hself : o.validateSelf.isOk = true)
    (hty : ty ∈ o.nodeTypes) (st : Option String) (k : String) :
    Weaker (o.declaredProperties ty st)[k]? (o'.declaredProperties ty st)[k]? := by
  obtain ⟨d, hd⟩ := HashMap.mem_iff_getElem?.mp hty
  have heffective := hx.weaker_effective h hself hty k
  rw [getElem?_declaredProperties, getElem?_declaredProperties, h.subtypeDefs_eq hd (hx.subtypes ty d hd)]
  cases hsub : addedSubtype x ty st with
  | none =>
    rw [Option.map_none, Option.getD_none]
    cases (o.subtypeDefs ty st)[k]? with
    | some q => exact .refl (some q)
    | none => exact heffective
  | some sub =>
    rw [Option.map_some, Option.getD_some, h.subtypeDefs_added hd hsub, Std.ExtTreeMap.getElem?_empty,
      Option.none_or]
    cases hq : sub.properties[k]? with
    | none => exact heffective
    | some q =>
      obtain ⟨s, rfl, hs⟩ := Option.bind_eq_some_iff.mp hsub
      obtain ⟨hallows, hrequired⟩ := hx.subtypeProperties ty hty s k sub q hs hq
      refine ⟨fun ⟨p, hp, hr⟩ => ?_, fun v hv p hp => ?_⟩
      · obtain rfl := Option.some.inj hp
        exact hrequired hr
      · obtain rfl := Option.some.inj hp
        exact hallows v fun p' hp' => hv p' (effective_of_ownDefs hp')

theorem Harmless.admits_own (hx : Harmless o x) (h : Merged o x o') (hty : ty ∈ o.nodeTypes)
    (hv : Admits (o.ownProperties ty st)[k]? v) : Admits (o'.ownProperties ty st)[k]? v := by
  obtain ⟨d, hd⟩ := HashMap.mem_iff_getElem?.mp hty
  rw [getElem?_ownProperties] at hv ⊢
  rw [h.subtypeDefs_eq hd (hx.subtypes ty d hd)]
  cases hsub : addedSubtype x ty st with
  | none =>
    rw [Option.map_none, Option.getD_none]
    cases hq : (o.subtypeDefs ty st)[k]? with
    | some q =>
      rw [hq] at hv
      exact hv
    | none =>
      rw [hq] at hv
      exact hx.admits_ownDefs h hty hv
  | some sub =>
    rw [h.subtypeDefs_added hd hsub, Std.ExtTreeMap.getElem?_empty, Option.none_or] at hv
    rw [Option.map_some, Option.getD_some]
    cases hq : sub.properties[k]? with
    | none => exact hx.admits_ownDefs h hty hv
    | some q =>
      obtain ⟨s, rfl, hs⟩ := Option.bind_eq_some_iff.mp hsub
      intro p hp
      obtain rfl := Option.some.inj hp
      exact (hx.subtypeProperties ty hty s k sub q hs hq).1 v hv

omit [Crates] in
theorem Merged.binds (h : Merged o x o') {src tgt : String} (hbinds : o.Binds ty src tgt) :
    o'.Binds ty src tgt := by
  obtain ⟨d, hd, ⟨s, hs, hsrc⟩, t, ht, htgt⟩ := hbinds
  exact ⟨_, h.edgeType hd, ⟨s, List.mem_append_left _ hs, h.isSubtypeOf_mono hsrc⟩,
    t, List.mem_append_left _ ht, h.isSubtypeOf_mono htgt⟩

omit [Crates] in
/-- The properties of an edge type: those it is given, and those it had. -/
theorem Merged.getElem?_edgeDefs (h : Merged o x o') {d : EdgeTypeDef} (hd : o.edgeTypes[ty]? = some d)
    (k : String) : (o'.edgeDefs ty)[k]? = (x.edgeUpdate ty).addProperties[k]?.or (o.edgeDefs ty)[k]? := by
  rw [edgeDefs_of_some (h.edgeType hd), edgeDefs_of_some hd, widenEdgeType, BTreeMap.getElem?_extend]

omit [Crates] in
theorem Merged.edgeDefs_added (h : Merged o x o') {d : EdgeTypeDef} (hd : o.edgeTypes[ty]? = some d)
    {q : PropertyDef} (hq : (x.edgeUpdate ty).addProperties[k]? = some q) : (o.edgeDefs ty)[k]? = none := by
  rw [edgeDefs_of_some hd]
  exact HashMap.not_mem_iff_getElem?.mp
    ((h.edgeFits ty d hd).properties k (HashMap.mem_iff_getElem?.mpr ⟨q, hq⟩))

theorem Harmless.acceptsMore (hx : Harmless o x) (h : Merged o x o') (hself : o.validateSelf.isOk = true) :
    AcceptsMore o o' := by
  refine ⟨nodes_iff.mpr fun ty st htakes => ⟨hx.takes h htakes, ?_⟩,
    edges_iff.mpr fun ty src tgt hbinds => ⟨h.binds hbinds, ?_⟩, fun ty st k v hty hv => ?_,
    fun ty k v hty hv => ?_⟩
  · obtain ⟨d, hd, -⟩ := htakes
    exact hx.weaker_declared h hself (HashMap.mem_iff_getElem?.mpr ⟨d, hd⟩) st
  · intro k
    obtain ⟨d, hd, ⟨s, hs, -⟩, t, ht, -⟩ := hbinds
    rw [h.getElem?_edgeDefs hd]
    cases hq : (x.edgeUpdate ty).addProperties[k]? with
    | none => exact .refl _
    | some q =>
      obtain ⟨hallows, hrequired⟩ := hx.edgeProperties ty d hd k q hq
      refine ⟨fun ⟨p, hp, hr⟩ => ?_, fun v _ p hp => ?_⟩
      · obtain rfl := Option.some.inj hp
        obtain hnone | hnone := hrequired hr
        · rw [hnone] at hs
          cases hs
        · rw [hnone] at ht
          cases ht
      · obtain rfl := Option.some.inj hp
        exact hallows v
  · rw [isOk_validatePropertyUpdate_iff] at hv ⊢
    exact hx.admits_own h hty hv
  · obtain ⟨d, hd⟩ := HashMap.mem_iff_getElem?.mp hty
    rw [isOk_validateEdgePropertyUpdate_iff] at hv ⊢
    rw [h.getElem?_edgeDefs hd]
    cases hq : (x.edgeUpdate ty).addProperties[k]? with
    | none => exact hv
    | some q =>
      intro p hp
      obtain rfl := Option.some.inj hp
      exact (hx.edgeProperties ty d hd k q hq).1 v

/-! ### Extensions that take away -/

theorem AcceptsMore.harmless (ha : AcceptsMore o o') (h : Merged o x o') : Harmless o x := by
  have hnodes := nodes_iff.mp ha.nodes
  have hedges := edges_iff.mp ha.edges
  have hsubtypes : ∀ ty d, o.nodeTypes[ty]? = some d → d.subtypes = none →
      ∀ st, st ∉ (x.nodeUpdate ty).addSubtypes := by
    intro ty d hd hnone st hst
    obtain ⟨d', hd', hnone'⟩ := (hnodes ty none ⟨d, hd, fun _ => hnone⟩).1
    obtain rfl := Option.some.inj ((h.nodeType hd).symm.trans hd')
    have hsome := hnone' rfl
    rw [updateNodeType] at hsome
    dsimp only at hsome
    rw [if_neg] at hsome
    · cases hsome
    · intro hempty
      rw [Std.ExtTreeMap.isEmpty_iff.mp hempty] at hst
      exact Std.ExtTreeMap.not_mem_empty hst
  refine ⟨hsubtypes, fun ty k q hq v => ?_, fun ty hty t k q hbearer hq hr => ?_,
    fun ty hty st k sub q hsub hq => ?_, fun ty d hd k q hq => ⟨fun v => ?_, fun hr => ?_⟩⟩
  · -- an update of a property that was not declared
    obtain ⟨hty, hold, hnew⟩ := h.getElem?_ownDefs_added hq
    have hupdate := ha.updates ty none k v hty
    rw [isOk_validatePropertyUpdate_iff, isOk_validatePropertyUpdate_iff, getElem?_ownProperties,
      getElem?_ownProperties, subtypeDefs_none, subtypeDefs_none, Std.ExtTreeMap.getElem?_empty,
      Option.none_or, Option.none_or, hold, hnew] at hupdate
    exact hupdate (fun p hp => by cases hp) q rfl
  · -- a node of a subtype that declares nothing
    obtain ⟨st, htakes, hplain, hplain'⟩ := exists_plain_subtype o o' hty
    have hweaker := (hnodes ty st htakes).2 k
    rw [getElem?_declaredProperties, getElem?_declaredProperties, hplain, hplain',
      Std.ExtTreeMap.getElem?_empty, Option.none_or, Option.none_or] at hweaker
    exact hweaker.requires ⟨q, (h.effective_of_bearer hbearer).1 q hq, hr⟩
  · -- a node, and an update, of a subtype that was not declared
    obtain ⟨d, hd⟩ := HashMap.mem_iff_getElem?.mp hty
    have hadded : addedSubtype x ty (some st) = some sub := hsub
    have hnew : (o'.subtypeDefs ty (some st))[k]? = some q := by
      rw [h.subtypeDefs_eq hd (hsubtypes ty d hd), hadded, Option.map_some, Option.getD_some, hq]
    have hold := h.subtypeDefs_added hd hadded
    have hweaker := (hnodes ty (some st) ⟨d, hd, fun hnone => by cases hnone⟩).2 k
    rw [getElem?_declaredProperties, getElem?_declaredProperties, hold, hnew,
      Std.ExtTreeMap.getElem?_empty, Option.none_or, Option.some_or] at hweaker
    refine ⟨fun v hv => ?_, fun hr => hweaker.requires ⟨q, rfl, hr⟩⟩
    have hupdate := ha.updates ty (some st) k v hty
    rw [isOk_validatePropertyUpdate_iff, isOk_validatePropertyUpdate_iff, getElem?_ownProperties,
      getElem?_ownProperties, hold, hnew, Std.ExtTreeMap.getElem?_empty, Option.none_or,
      Option.some_or] at hupdate
    exact hupdate hv q rfl
  · -- an update of an edge
    have hupdate := ha.edgeUpdates ty k v (HashMap.mem_iff_getElem?.mpr ⟨d, hd⟩)
    rw [isOk_validateEdgePropertyUpdate_iff, isOk_validateEdgePropertyUpdate_iff, h.getElem?_edgeDefs hd,
      h.edgeDefs_added hd hq, hq, Option.some_or] at hupdate
    exact hupdate (fun p hp => by cases hp) q rfl
  · -- an edge, if there can be one
    by_contra hno
    rw [not_or] at hno
    obtain ⟨s, hs⟩ := List.exists_mem_of_ne_nil _ hno.1
    obtain ⟨t, ht⟩ := List.exists_mem_of_ne_nil _ hno.2
    have hself : ∀ a, o.isSubtypeOf a a = true := fun a => isSubtypeOf_iff.mpr (.inl rfl)
    have hweaker := (hedges ty s t ⟨d, hd, ⟨s, hs, hself s⟩, t, ht, hself t⟩).2 k
    rw [h.getElem?_edgeDefs hd, h.edgeDefs_added hd hq, hq, Option.some_or] at hweaker
    obtain ⟨p, hp, -⟩ := hweaker.requires ⟨q, rfl, hr⟩
    cases hp

/-- **Extensions only accept more** if and only if they are harmless. -/
theorem acceptsMore_merge_iff (o : Ontology) (x : OntologyExtension) (hself : o.validateSelf.isOk = true)
    (hok : (o.mergeExtension x).1.isOk = true) : AcceptsMore o (o.mergeExtension x).2 ↔ Harmless o x :=
  ⟨fun h => h.harmless (merged_of_isOk hok), fun h => h.acceptsMore (merged_of_isOk hok) hself⟩

end

end Ontology

namespace Sample

/-- Dogs may have a note, of any kind. -/
def notes : OntologyExtension where
  nodeTypeUpdates := (∅ : BTreeMap String NodeTypeUpdate).insert "dog"
    { addProperties := (∅ : BTreeMap String PropertyDef).insert "note" ⟨.any, false, none, none⟩ }

/-- Animals must have a name. -/
def names : OntologyExtension where
  nodeTypeUpdates := (∅ : BTreeMap String NodeTypeUpdate).insert "animal"
    { addProperties := (∅ : BTreeMap String PropertyDef).insert "name" ⟨.string, true, none, none⟩ }

end Sample

namespace Ontology

open Sample in
theorem acceptsMore_notes : AcceptsMore pets (pets.mergeExtension notes).2 := by
  have hnode : ∀ (ty k : String) (q : PropertyDef), (notes.nodeUpdate ty).addProperties[k]? = some q →
      q = ⟨.any, false, none, none⟩ := by
    intro ty k q hq
    rw [OntologyExtension.nodeUpdate, notes, HashMap.getElem?_insert] at hq
    split at hq
    · rw [Option.getD_some, HashMap.getElem?_insert] at hq
      split at hq
      · exact (Option.some.inj hq).symm
      · simp at hq
    · simp at hq
  have hsubtypes : ∀ ty st, st ∉ (notes.nodeUpdate ty).addSubtypes := by
    intro ty st hst
    rw [OntologyExtension.nodeUpdate, notes, HashMap.getElem?_insert] at hst
    split at hst
    · exact Std.ExtTreeMap.not_mem_empty hst
    · simp at hst
  refine (acceptsMore_merge_iff pets notes (by decide) (by decide)).mpr ⟨fun ty _ _ _ => hsubtypes ty,
    fun ty k q hq v => ?_, fun _ _ t k q _ hq hr => ?_, fun ty _ st k sub q hsub _ => ?_,
    fun ty d _ k q hq => ?_⟩
  · obtain rfl := hnode ty k q hq
    rfl
  · obtain rfl := hnode t k q hq
    cases hr
  · exact absurd (HashMap.mem_iff_getElem?.mpr ⟨sub, hsub⟩) (hsubtypes ty st)
  · rw [OntologyExtension.edgeUpdate_of_not_mem Std.ExtTreeMap.not_mem_empty] at hq
    simp at hq

open Sample in
/-- An animal without a name was valid, and is not any longer. -/
theorem names_not_acceptsMore : ¬ ∀ (o : Ontology) (x : OntologyExtension), o.validateSelf.isOk = true →
    (o.mergeExtension x).1.isOk = true → AcceptsMore o (o.mergeExtension x).2 := fun h =>
  absurd ((h pets names (by decide) (by decide)).nodes "animal" none ∅ (by decide)) (by decide)

end Ontology

end SilkGraph
