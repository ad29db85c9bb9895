import SilkGraph.Ontology.Rules

/-!
# What an extension leads to

`Merged` says all that an accepted extension does, type by type: the new types are new, and a
type that is there is widened by the update of its name (`merged_of_isOk`). Three laws follow.
An accepted extension leaves the ontology as it is only if it relaxes what is optional
already (`mergeExtension_eq_self_iff`); a rejected one leaves it alone only if it fails a
check that is made before anything is written (`rejected_eq_self_iff`); and two extensions
lead to the same ontology in either order unless both bind new endpoints of one edge type,
because bindings are kept in the order in which they came (`merges_commute_iff`).
-/

namespace SilkGraph

namespace OntologyExtension

/-- The update of a node type; an empty one if the extension has none. -/
def nodeUpdate (self : OntologyExtension) (nodeType : String) : NodeTypeUpdate :=
  self.nodeTypeUpdates[nodeType]?.getD {}

/-- The update of an edge type; an empty one if the extension has none. -/
def edgeUpdate (self : OntologyExtension) (edgeType : String) : EdgeTypeUpdate :=
  self.edgeTypeUpdates[edgeType]?.getD {}

theorem nodeUpdate_of_not_mem {x : OntologyExtension} {ty : String} (h : ty ∉ x.nodeTypeUpdates) :
    x.nodeUpdate ty = {} := by
  rw [nodeUpdate, HashMap.not_mem_iff_getElem?.mp h, Option.getD_none]

theorem edgeUpdate_of_not_mem {x : OntologyExtension} {ty : String} (h : ty ∉ x.edgeTypeUpdates) :
    x.edgeUpdate ty = {} := by
  rw [edgeUpdate, HashMap.not_mem_iff_getElem?.mp h, Option.getD_none]

end OntologyExtension

namespace Ontology

variable {o o' : Ontology} {x y : OntologyExtension} {ty : String}

/-! ### Empty updates -/

theorem nodeUpdateFits_empty (d : NodeTypeDef) : NodeUpdateFits d {} :=
  ⟨fun _ hk => absurd hk Std.ExtTreeMap.not_mem_empty, fun _ hk => absurd hk List.not_mem_nil,
    fun _ _ _ hk => absurd hk Std.ExtTreeMap.not_mem_empty⟩

theorem edgeUpdateFits_empty (d : EdgeTypeDef) : EdgeUpdateFits o x d {} :=
  ⟨fun _ ht => absurd ht List.not_mem_nil, fun _ ht => absurd ht List.not_mem_nil,
    fun _ hk => absurd hk Std.ExtTreeMap.not_mem_empty⟩

theorem updateNodeType_empty (d : NodeTypeDef) : updateNodeType d {} = d :=
  updateNodeType_of_within (nodeUpdateFits_empty d) (fun _ hk => absurd hk Std.ExtTreeMap.not_mem_empty)
    (fun _ hk => absurd hk List.not_mem_nil) fun _ hk => absurd hk Std.ExtTreeMap.not_mem_empty

theorem widenEdgeType_empty (d : EdgeTypeDef) : widenEdgeType d {} = d := by
  simp [widenEdgeType, BTreeMap.extend_of_forall_not_mem]

/-! ### The checks -/

/-- What is checked before the new node types go in. -/
structure NodesFit (o : Ontology) (x : OntologyExtension) : Prop where
  changes : x.isEmpty = false
  newNodes : ∀ ty ∈ x.nodeTypes, ty ∉ o.nodeTypes
  newEdges : ∀ ty ∈ x.edgeTypes, ty ∉ o.edgeTypes
  nodeUpdates : ∀ ty ∈ x.nodeTypeUpdates, ty ∈ o.nodeTypes
  nodeFits : ∀ ty d, o.nodeTypes[ty]? = some d → NodeUpdateFits d (x.nodeUpdate ty)

/-- What is checked after they went in, and before the rest does. -/
structure EdgesFit (o : Ontology) (x : OntologyExtension) : Prop where
  edgeUpdates : ∀ ty ∈ x.edgeTypeUpdates, ty ∈ o.edgeTypes
  edgeFits : ∀ ty d, o.edgeTypes[ty]? = some d → EdgeUpdateFits o x d (x.edgeUpdate ty)

/-- A condition on every update, of a type that has to be there. -/
theorem forall_updates_iff {D U : Type} {types : BTreeMap String D} {updates : BTreeMap String U}
    {fits : D → U → Prop} {blank : U} (hnone : ∀ d, fits d blank) :
    (∀ (ty : String) (u : U), updates[ty]? = some u → ∃ d, types[ty]? = some d ∧ fits d u) ↔
      (∀ ty ∈ updates, ty ∈ types) ∧
        ∀ (ty : String) (d : D), types[ty]? = some d → fits d (updates[ty]?.getD blank) := by
  constructor
  · refine fun h => ⟨fun ty hty => ?_, fun ty d hd => ?_⟩
    · obtain ⟨u, hu⟩ := HashMap.mem_iff_getElem?.mp hty
      obtain ⟨d, hd, -⟩ := h ty u hu
      exact HashMap.mem_iff_getElem?.mpr ⟨d, hd⟩
    · cases hu : updates[ty]? with
      | none => exact hnone d
      | some u =>
        obtain ⟨d', hd', hfits⟩ := h ty u hu
        obtain rfl := Option.some.inj (hd.symm.trans hd')
        exact hfits
  · rintro ⟨hmem, hfits⟩ ty u hu
    obtain ⟨d, hd⟩ := HashMap.mem_iff_getElem?.mp (hmem ty (HashMap.mem_iff_getElem?.mpr ⟨u, hu⟩))
    refine ⟨d, hd, ?_⟩
    have hfit := hfits ty d hd
    rw [hu] at hfit
    exact hfit

theorem nodesFit_iff : (o.checkNodeExtension x).isOk = true ↔ NodesFit o x := by
  rw [isOk_checkNodeExtension, forall_updates_iff nodeUpdateFits_empty]
  exact ⟨fun ⟨h, hn, he, hu, hf⟩ => ⟨h, hn, he, hu, hf⟩,
    fun h => ⟨h.changes, h.newNodes, h.newEdges, h.nodeUpdates, h.nodeFits⟩⟩

/-- The new node types may be bound whether or not they are in already. -/
theorem edgeUpdateFits_typed {d : EdgeTypeDef} {u : EdgeTypeUpdate} :
    EdgeUpdateFits { o with nodeTypes := o.nodeTypes.extend x.nodeTypes } x d u ↔ EdgeUpdateFits o x d u := by
  have hknown : ∀ t, (t ∈ o.nodeTypes.extend x.nodeTypes ∨ t ∈ x.nodeTypes) ↔
      (t ∈ o.nodeTypes ∨ t ∈ x.nodeTypes) := by
    intro t
    simp only [HashMap.mem_iff_getElem?, BTreeMap.getElem?_extend]
    cases x.nodeTypes[t]? <;> simp
  constructor
  · exact fun h => ⟨fun t ht => (h.sources t ht).imp_left (hknown t).mp,
      fun t ht => (h.targets t ht).imp_left (hknown t).mp, h.properties⟩
  · exact fun h => ⟨fun t ht => (h.sources t ht).imp_left (hknown t).mpr,
      fun t ht => (h.targets t ht).imp_left (hknown t).mpr, h.properties⟩

theorem edgesFit_iff :
    (({ o with nodeTypes := o.nodeTypes.extend x.nodeTypes } : Ontology).checkEdgeUpdates x).isOk = true ↔
      EdgesFit o x := by
  rw [isOk_checkEdgeUpdates, forall_updates_iff edgeUpdateFits_empty]
  exact ⟨fun ⟨hu, hf⟩ => ⟨hu, fun ty d hd => edgeUpdateFits_typed.mp (hf ty d hd)⟩,
    fun h => ⟨h.edgeUpdates, fun ty d hd => edgeUpdateFits_typed.mpr (h.edgeFits ty d hd)⟩⟩

/-! ### The result -/

/-- The second ontology has what the first has and what the extension brings. -/
structure Merged (o : Ontology) (x : OntologyExtension) (o' : Ontology) : Prop extends
    NodesFit o x, EdgesFit o x where
  nodeTypes : ∀ ty, o'.nodeTypes[ty]? = (x.nodeTypes[ty]?.or o.nodeTypes[ty]?).map fun d =>
    updateNodeType d (x.nodeUpdate ty)
  edgeTypes : ∀ ty, o'.edgeTypes[ty]? = (x.edgeTypes[ty]?.or o.edgeTypes[ty]?).map fun d =>
    widenEdgeType d (x.edgeUpdate ty)

/-- Once all checks are passed, everything is written. -/
theorem merged_applyUpdates (hnodes : NodesFit o x) (hedges : EdgesFit o x) :
    Merged o x (({ o with nodeTypes := o.nodeTypes.extend x.nodeTypes } : Ontology).applyUpdates x) := by
  refine ⟨hnodes, hedges, fun ty => ?_, fun ty => ?_⟩
  · rw [applyUpdates, BTreeMap.getElem?_foldl_updateAt, BTreeMap.getElem?_extend]
    refine congrArg (fun f => Option.map f _) (funext fun d => ?_)
    rw [OntologyExtension.nodeUpdate]
    cases x.nodeTypeUpdates[ty]? with
    | none => exact (updateNodeType_empty d).symm
    | some u => rfl
  · rw [applyUpdates, BTreeMap.getElem?_foldl_updateAt, BTreeMap.getElem?_extend]
    refine congrArg (fun f => Option.map f _) (funext fun d => ?_)
    rw [OntologyExtension.edgeUpdate]
    cases x.edgeTypeUpdates[ty]? with
    | none => exact (widenEdgeType_empty d).symm
    | some u => rfl

/-- **The result of an accepted extension.** -/
theorem merged_of_isOk (hok : (o.mergeExtension x).1.isOk = true) : Merged o x (o.mergeExtension x).2 := by
  obtain ⟨-, herr, -⟩ | ⟨hnode, ⟨-, herr, -⟩ | ⟨hedge, hrun⟩⟩ := mergeExtension_cases o x
  · rw [herr] at hok
    cases hok
  · rw [herr] at hok
    cases hok
  · rw [hrun]
    exact merged_applyUpdates (nodesFit_iff.mp hnode) (edgesFit_iff.mp hedge)

namespace Merged

variable (h : Merged o x o')

include h

theorem nodeType {d : NodeTypeDef} (hd : o.nodeTypes[ty]? = some d) :
    o'.nodeTypes[ty]? = some (updateNodeType d (x.nodeUpdate ty)) := by
  have hnew : x.nodeTypes[ty]? = none := by
    refine HashMap.not_mem_iff_getElem?.mp fun hin => ?_
    exact h.newNodes ty hin (HashMap.mem_iff_getElem?.mpr ⟨d, hd⟩)
  rw [h.nodeTypes, hnew, hd]
  rfl

theorem edgeType {d : EdgeTypeDef} (hd : o.edgeTypes[ty]? = some d) :
    o'.edgeTypes[ty]? = some (widenEdgeType d (x.edgeUpdate ty)) := by
  have hnew : x.edgeTypes[ty]? = none := by
    refine HashMap.not_mem_iff_getElem?.mp fun hin => ?_
    exact h.newEdges ty hin (HashMap.mem_iff_getElem?.mpr ⟨d, hd⟩)
  rw [h.edgeTypes, hnew, hd]
  rfl

end Merged

/-! ### Extensions that change nothing -/

/-- The extension brings nothing new: all it does is relax properties that are optional
already. -/
structure OnlyRelaxes (o : Ontology) (x : OntologyExtension) : Prop where
  nodeTypes : ∀ ty, ty ∉ x.nodeTypes
  edgeTypes : ∀ ty, ty ∉ x.edgeTypes
  properties : ∀ ty k, k ∉ (x.nodeUpdate ty).addProperties
  subtypes : ∀ ty st, st ∉ (x.nodeUpdate ty).addSubtypes
  relaxes : ∀ ty d, o.nodeTypes[ty]? = some d → ∀ k ∈ (x.nodeUpdate ty).relaxProperties,
    ∀ p, d.properties[k]? = some p → p.required = false
  sources : ∀ ty, (x.edgeUpdate ty).addSourceTypes = []
  targets : ∀ ty, (x.edgeUpdate ty).addTargetTypes = []
  edgeProperties : ∀ ty k, k ∉ (x.edgeUpdate ty).addProperties

theorem NodeUpdateFits.of_updateNodeType_eq {d : NodeTypeDef} {u : NodeTypeUpdate} (h : NodeUpdateFits d u)
    (heq : updateNodeType d u = d) : (∀ k, k ∉ u.addProperties) ∧ (∀ st, st ∉ u.addSubtypes) ∧
      ∀ k ∈ u.relaxProperties, ∀ p, d.properties[k]? = some p → p.required = false := by
  have hproperties : u.relaxProperties.foldl relaxProperty (d.properties.extend u.addProperties) =
      d.properties := congrArg NodeTypeDef.properties heq
  refine ⟨fun k hk => h.properties k hk ?_, fun st hst => ?_, fun k hk p hp => ?_⟩
  · obtain ⟨p, hp⟩ := HashMap.mem_iff_getElem?.mp (BTreeMap.mem_extend hk :
      k ∈ d.properties.extend u.addProperties)
    rw [← hproperties, HashMap.mem_iff_getElem?, getElem?_foldl_relaxProperty, hp]
    exact ⟨_, rfl⟩
  · have hsubtypes : d.subtypes = some ((d.subtypes.getD ∅).extend u.addSubtypes) := by
      have hsub := congrArg NodeTypeDef.subtypes heq
      rw [updateNodeType] at hsub
      dsimp only at hsub
      rw [if_neg] at hsub
      · exact hsub.symm
      · intro hempty
        rw [Std.ExtTreeMap.isEmpty_iff.mp hempty] at hst
        exact Std.ExtTreeMap.not_mem_empty hst
    exact h.subtypes _ hsubtypes st hst (BTreeMap.mem_extend hst)
  · have hadded : u.addProperties[k]? = none :=
      HashMap.not_mem_iff_getElem?.mp fun hin => h.properties k hin (h.relaxes k hk)
    have hkey : (u.relaxProperties.foldl relaxProperty (d.properties.extend u.addProperties))[k]? =
        d.properties[k]? := by rw [hproperties]
    rw [getElem?_foldl_relaxProperty, BTreeMap.getElem?_extend, hadded, Option.none_or, hp, Option.map_some,
      if_pos hk] at hkey
    rw [← Option.some.inj hkey]

theorem EdgeUpdateFits.of_widenEdgeType_eq {d : EdgeTypeDef} {u : EdgeTypeUpdate}
    (h : EdgeUpdateFits o x d u) (heq : widenEdgeType d u = d) :
    u.addSourceTypes = [] ∧ u.addTargetTypes = [] ∧ ∀ k, k ∉ u.addProperties := by
  have hsources : d.sourceTypes ++ u.addSourceTypes = d.sourceTypes := congrArg EdgeTypeDef.sourceTypes heq
  have htargets : d.targetTypes ++ u.addTargetTypes = d.targetTypes := congrArg EdgeTypeDef.targetTypes heq
  have hproperties : d.properties.extend u.addProperties = d.properties :=
    congrArg EdgeTypeDef.properties heq
  refine ⟨List.append_right_eq_self.mp hsources, List.append_right_eq_self.mp htargets, fun k hk => ?_⟩
  exact h.properties k hk (hproperties ▸ BTreeMap.mem_extend hk)

/-- What leads back to the ontology only relaxes. -/
theorem Merged.onlyRelaxes (h : Merged o x o) : OnlyRelaxes o x := by
  have hnode : ∀ ty d, o.nodeTypes[ty]? = some d → updateNodeType d (x.nodeUpdate ty) = d :=
    fun ty d hd => Option.some.inj ((h.nodeType hd).symm.trans hd)
  have hedge : ∀ ty d, o.edgeTypes[ty]? = some d → widenEdgeType d (x.edgeUpdate ty) = d :=
    fun ty d hd => Option.some.inj ((h.edgeType hd).symm.trans hd)
  have hnodes : ∀ ty, (∀ k, k ∉ (x.nodeUpdate ty).addProperties) ∧ ∀ st, st ∉ (x.nodeUpdate ty).addSubtypes := by
    intro ty
    by_cases hty : ty ∈ x.nodeTypeUpdates
    · obtain ⟨d, hd⟩ := HashMap.mem_iff_getElem?.mp (h.nodeUpdates ty hty)
      obtain ⟨hadd, hsub, -⟩ := (h.nodeFits ty d hd).of_updateNodeType_eq (hnode ty d hd)
      exact ⟨hadd, hsub⟩
    · rw [OntologyExtension.nodeUpdate_of_not_mem hty]
      exact ⟨fun _ => Std.ExtTreeMap.not_mem_empty, fun _ => Std.ExtTreeMap.not_mem_empty⟩
  have hedges : ∀ ty, (x.edgeUpdate ty).addSourceTypes = [] ∧ (x.edgeUpdate ty).addTargetTypes = [] ∧
      ∀ k, k ∉ (x.edgeUpdate ty).addProperties := by
    intro ty
    by_cases hty : ty ∈ x.edgeTypeUpdates
    · obtain ⟨d, hd⟩ := HashMap.mem_iff_getElem?.mp (h.edgeUpdates ty hty)
      exact (h.edgeFits ty d hd).of_widenEdgeType_eq (hedge ty d hd)
    · rw [OntologyExtension.edgeUpdate_of_not_mem hty]
      exact ⟨rfl, rfl, fun _ => Std.ExtTreeMap.not_mem_empty⟩
  refine ⟨fun ty hty => h.newNodes ty hty ?_, fun ty hty => h.newEdges ty hty ?_, fun ty => (hnodes ty).1,
    fun ty => (hnodes ty).2, fun ty d hd =>
      ((h.nodeFits ty d hd).of_updateNodeType_eq (hnode ty d hd)).2.2,
    fun ty => (hedges ty).1, fun ty => (hedges ty).2.1, fun ty => (hedges ty).2.2⟩
  · obtain ⟨d, hd⟩ := HashMap.mem_iff_getElem?.mp hty
    rw [HashMap.mem_iff_getElem?, h.nodeTypes, hd]
    exact ⟨_, rfl⟩
  · obtain ⟨d, hd⟩ := HashMap.mem_iff_getElem?.mp hty
    rw [HashMap.mem_iff_getElem?, h.edgeTypes, hd]
    exact ⟨_, rfl⟩

/-- What only relaxes is in the ontology already. -/
theorem OnlyRelaxes.within (h : OnlyRelaxes o x) (hnodes : NodesFit o x) (hedges : EdgesFit o x) :
    Within x o := by
  refine ⟨fun ty hty => absurd hty (h.nodeTypes ty), fun ty hty => absurd hty (h.edgeTypes ty),
    fun ty u hu => ?_, fun ty u hu => ?_⟩
  · obtain ⟨d, hd⟩ := HashMap.mem_iff_getElem?.mp
      (hnodes.nodeUpdates ty (HashMap.mem_iff_getElem?.mpr ⟨u, hu⟩))
    have hupdate : x.nodeUpdate ty = u := by rw [OntologyExtension.nodeUpdate, hu]; rfl
    have hfits := hupdate ▸ hnodes.nodeFits ty d hd
    refine ⟨d, hd, fun k hk => absurd hk (hupdate ▸ h.properties ty k), fun k hk => ?_,
      fun st hst => absurd hst (hupdate ▸ h.subtypes ty st)⟩
    obtain ⟨p, hp⟩ := HashMap.mem_iff_getElem?.mp (hfits.relaxes k hk)
    exact ⟨p, hp, h.relaxes ty d hd k (hupdate ▸ hk) p hp⟩
  · obtain ⟨d, hd⟩ := HashMap.mem_iff_getElem?.mp
      (hedges.edgeUpdates ty (HashMap.mem_iff_getElem?.mpr ⟨u, hu⟩))
    have hupdate : x.edgeUpdate ty = u := by rw [OntologyExtension.edgeUpdate, hu]; rfl
    have hsources : u.addSourceTypes = [] := hupdate ▸ h.sources ty
    have htargets : u.addTargetTypes = [] := hupdate ▸ h.targets ty
    refine ⟨d, hd, ?_, ?_, fun k hk => absurd hk (hupdate ▸ h.edgeProperties ty k)⟩
    · rw [hsources]
      exact List.nil_subset _
    · rw [htargets]
      exact List.nil_subset _

/-! ### Rejected extensions -/

/-- A rejected extension comes to nothing: it fails a check that is made before anything is
written, or what was written by the time it failed is nothing new. -/
def LeavesNothing (o : Ontology) (x : OntologyExtension) : Prop :=
  ¬ NodesFit o x ∨ (∀ ty, ty ∉ x.nodeTypes) ∧ (¬ EdgesFit o x ∨ OnlyRelaxes o x)

theorem typed_eq_self_iff (hnodes : NodesFit o x) :
    ({ o with nodeTypes := o.nodeTypes.extend x.nodeTypes } : Ontology) = o ↔ ∀ ty, ty ∉ x.nodeTypes := by
  constructor
  · intro heq ty hty
    have hnodeTypes : o.nodeTypes.extend x.nodeTypes = o.nodeTypes := congrArg Ontology.nodeTypes heq
    exact hnodes.newNodes ty hty (hnodeTypes ▸ BTreeMap.mem_extend hty)
  · intro h
    rw [BTreeMap.extend_of_forall_not_mem h]

/-- **Rejected extensions** leave the ontology as it was if and only if they fail before
anything is written, or nothing that was written is new. -/
theorem rejected_eq_self_iff (o : Ontology) (x : OntologyExtension)
    (_herr : (o.mergeExtension x).1.isOk = false) : (o.mergeExtension x).2 = o ↔ LeavesNothing o x := by
  obtain ⟨hnode, -, hrun⟩ | ⟨hnode, ⟨hedge, -, hrun⟩ | ⟨hedge, hrun⟩⟩ := mergeExtension_cases o x
  · refine iff_of_true hrun (.inl fun hfit => ?_)
    rw [nodesFit_iff.mpr hfit] at hnode
    cases hnode
  · have hnodes := nodesFit_iff.mp hnode
    have hedges : ¬ EdgesFit o x := fun hfit => by
      rw [edgesFit_iff.mpr hfit] at hedge
      cases hedge
    rw [hrun, typed_eq_self_iff hnodes]
    exact ⟨fun h => .inr ⟨h, .inl hedges⟩, fun h => (h.resolve_left (not_not_intro hnodes)).1⟩
  · have hnodes := nodesFit_iff.mp hnode
    have hedges := edgesFit_iff.mp hedge
    have hmerged := merged_applyUpdates hnodes hedges
    constructor
    · intro heq
      rw [hrun] at heq
      rw [heq] at hmerged
      exact .inr ⟨hmerged.onlyRelaxes.nodeTypes, .inr hmerged.onlyRelaxes⟩
    · intro h
      have hrelaxes := (h.resolve_left (not_not_intro hnodes)).2.resolve_left (not_not_intro hedges)
      exact (hrelaxes.within hnodes hedges).absorbed

/-! ### Accepted extensions -/

end Ontology

namespace Ontology

variable {o o₁ o₂ o₁₂ o₂₁ : Ontology} {x y : OntologyExtension} {ty : String}

/-! ### Two extensions in either order -/

/-- Extensions of a map by maps without common keys commute. -/
theorem extend_comm {V : Type} {m a b : BTreeMap String V} (h : ∀ k ∈ b, k ∉ a) :
    (m.extend a).extend b = (m.extend b).extend a := by
  refine Std.ExtTreeMap.ext_getElem? fun k => ?_
  simp only [BTreeMap.getElem?_extend]
  cases hb : b[k]? with
  | none => rw [Option.none_or, Option.none_or]
  | some v =>
    have ha : a[k]? = none := HashMap.not_mem_iff_getElem?.mp (h k (HashMap.mem_iff_getElem?.mpr ⟨v, hb⟩))
    rw [ha, Option.none_or, Option.none_or, Option.some_or]

/-- Lists without common members commute only if one of them is empty. -/
theorem append_comm_iff {a b : List String} (h : ∀ t ∈ b, t ∉ a) : a ++ b = b ++ a ↔ a = [] ∨ b = [] := by
  constructor
  · intro heq
    cases a with
    | nil => exact .inl rfl
    | cons s a =>
      cases b with
      | nil => exact .inr rfl
      | cons t b =>
        obtain ⟨rfl, -⟩ := List.cons.inj heq
        exact absurd List.mem_cons_self (h s List.mem_cons_self)
  · rintro (rfl | rfl) <;> simp

/-- The properties of a type after an update. -/
theorem getElem?_updateNodeType (d : NodeTypeDef) (u : NodeTypeUpdate) (k : String) :
    (updateNodeType d u).properties[k]? = (u.addProperties[k]?.or d.properties[k]?).map fun p =>
      if k ∈ u.relaxProperties then { p with required := false } else p := by
  rw [updateNodeType, getElem?_foldl_relaxProperty, BTreeMap.getElem?_extend]

theorem updateNodeType_comm {d : NodeTypeDef} {u w : NodeTypeUpdate} (hu : NodeUpdateFits d u)
    (hw : NodeUpdateFits d w) (hwu : NodeUpdateFits (updateNodeType d u) w) :
    updateNodeType (updateNodeType d u) w = updateNodeType (updateNodeType d w) u := by
  have hproperties : (updateNodeType (updateNodeType d u) w).properties =
      (updateNodeType (updateNodeType d w) u).properties := by
    refine Std.ExtTreeMap.ext_getElem? fun k => ?_
    simp only [getElem?_updateNodeType]
    cases hd : d.properties[k]? with
    | some p =>
      have hmem : k ∈ d.properties := HashMap.mem_iff_getElem?.mpr ⟨p, hd⟩
      have hau : u.addProperties[k]? = none :=
        HashMap.not_mem_iff_getElem?.mp fun hin => hu.properties k hin hmem
      have haw : w.addProperties[k]? = none :=
        HashMap.not_mem_iff_getElem?.mp fun hin => hw.properties k hin hmem
      rw [hau, haw]
      by_cases hru : k ∈ u.relaxProperties <;> by_cases hrw : k ∈ w.relaxProperties <;> simp [hru, hrw]
    | none =>
      have hmem : k ∉ d.properties := HashMap.not_mem_iff_getElem?.mpr hd
      have hru : k ∉ u.relaxProperties := fun hin => hmem (hu.relaxes k hin)
      have hrw : k ∉ w.relaxProperties := fun hin => hmem (hw.relaxes k hin)
      simp only [if_neg hru, if_neg hrw, Option.map_id', Option.or_none]
      cases haw : w.addProperties[k]? with
      | none => rw [Option.none_or, Option.or_none]
      | some q =>
        have hnot : k ∉ (updateNodeType d u).properties :=
          hwu.properties k (HashMap.mem_iff_getElem?.mpr ⟨q, haw⟩)
        rw [HashMap.not_mem_iff_getElem?, getElem?_updateNodeType, hd, Option.or_none,
          Option.map_eq_none_iff] at hnot
        rw [hnot, Option.none_or, Option.or_none]
  have hsubtypes : (updateNodeType (updateNodeType d u) w).subtypes =
      (updateNodeType (updateNodeType d w) u).subtypes := by
    simp only [updateNodeType]
    by_cases hau : u.addSubtypes.isEmpty = true
    · rw [if_pos hau, if_pos hau]
    · by_cases haw : w.addSubtypes.isEmpty = true
      · rw [if_pos haw, if_pos haw]
      · simp only [if_neg hau, if_neg haw, Option.getD_some]
        refine congrArg some (extend_comm fun k hk hin => ?_)
        refine hwu.subtypes ((d.subtypes.getD ∅).extend u.addSubtypes) ?_ k hk (BTreeMap.mem_extend hin)
        rw [updateNodeType, if_neg hau]
  simp only [updateNodeType] at hproperties hsubtypes ⊢
  rw [hproperties, hsubtypes]

/-- Both orders widen an edge type alike, but for the order of its bindings. -/
theorem widenEdgeType_comm_iff {d : EdgeTypeDef} {u w : EdgeTypeUpdate}
    (hwu : EdgeUpdateFits o y (widenEdgeType d u) w) :
    widenEdgeType (widenEdgeType d u) w = widenEdgeType (widenEdgeType d w) u ↔
      (u.addSourceTypes = [] ∨ w.addSourceTypes = []) ∧ (u.addTargetTypes = [] ∨ w.addTargetTypes = []) := by
  have hsources : ∀ t ∈ w.addSourceTypes, t ∉ u.addSourceTypes := fun t ht hin =>
    (hwu.sources t ht).2 (List.mem_append_right _ hin)
  have htargets : ∀ t ∈ w.addTargetTypes, t ∉ u.addTargetTypes := fun t ht hin =>
    (hwu.targets t ht).2 (List.mem_append_right _ hin)
  have hproperties : (d.properties.extend u.addProperties).extend w.addProperties =
      (d.properties.extend w.addProperties).extend u.addProperties :=
    extend_comm fun k hk hin => hwu.properties k hk (BTreeMap.mem_extend hin)
  rw [← append_comm_iff hsources, ← append_comm_iff htargets]
  simp only [widenEdgeType, EdgeTypeDef.mk.injEq, true_and, hproperties, and_true, List.append_assoc,
    List.append_cancel_left_eq]

/-- What two extensions bind an edge type to does not come from both. -/
def BindApart (x y : OntologyExtension) : Prop :=
  ∀ ty, ((x.edgeUpdate ty).addSourceTypes = [] ∨ (y.edgeUpdate ty).addSourceTypes = []) ∧
    ((x.edgeUpdate ty).addTargetTypes = [] ∨ (y.edgeUpdate ty).addTargetTypes = [])

/-- Two extensions that fit in either order lead to the same node types. -/
theorem Merged.nodeTypes_comm (hx : Merged o x o₁) (hxy : Merged o₁ y o₁₂) (hy : Merged o y o₂)
    (hyx : Merged o₂ x o₂₁) : o₁₂.nodeTypes = o₂₁.nodeTypes := by
  refine Std.ExtTreeMap.ext_getElem? fun ty => ?_
  cases hd : o.nodeTypes[ty]? with
  | some d =>
    rw [hxy.nodeType (hx.nodeType hd), hyx.nodeType (hy.nodeType hd)]
    exact congrArg some (updateNodeType_comm (hx.nodeFits ty d hd) (hy.nodeFits ty d hd)
      (hxy.nodeFits ty _ (hx.nodeType hd)))
  | none =>
    -- a type that is new has no updates
    have hmem : ty ∉ o.nodeTypes := HashMap.not_mem_iff_getElem?.mpr hd
    have hblankX := OntologyExtension.nodeUpdate_of_not_mem fun hin => hmem (hx.nodeUpdates ty hin)
    have hblankY := OntologyExtension.nodeUpdate_of_not_mem fun hin => hmem (hy.nodeUpdates ty hin)
    rw [hxy.nodeTypes, hx.nodeTypes, hyx.nodeTypes, hy.nodeTypes, hd, hblankX, hblankY]
    simp only [updateNodeType_empty, Option.map_id', Option.or_none]
    cases hnew : y.nodeTypes[ty]? with
    | none => rw [Option.none_or, Option.or_none]
    | some d =>
      have hno := hxy.newNodes ty (HashMap.mem_iff_getElem?.mpr ⟨d, hnew⟩)
      rw [HashMap.not_mem_iff_getElem?, hx.nodeTypes, hd, Option.or_none, Option.map_eq_none_iff] at hno
      rw [hno, Option.none_or, Option.or_none]

/-- They lead to the same edge types if and only if they bind apart. -/
theorem Merged.edgeTypes_comm_iff (hx : Merged o x o₁) (hxy : Merged o₁ y o₁₂) (hy : Merged o y o₂)
    (hyx : Merged o₂ x o₂₁) : o₁₂.edgeTypes = o₂₁.edgeTypes ↔ BindApart x y := by
  have hsome : ∀ (ty : String) (d : EdgeTypeDef), o.edgeTypes[ty]? = some d →
      (o₁₂.edgeTypes[ty]? = o₂₁.edgeTypes[ty]? ↔
        ((x.edgeUpdate ty).addSourceTypes = [] ∨ (y.edgeUpdate ty).addSourceTypes = []) ∧
          ((x.edgeUpdate ty).addTargetTypes = [] ∨ (y.edgeUpdate ty).addTargetTypes = [])) := by
    intro ty d hd
    rw [hxy.edgeType (hx.edgeType hd), hyx.edgeType (hy.edgeType hd), Option.some.injEq]
    exact widenEdgeType_comm_iff (hxy.edgeFits ty _ (hx.edgeType hd))
  constructor
  · intro heq ty
    cases hd : o.edgeTypes[ty]? with
    | some d => exact (hsome ty d hd).mp (by rw [heq])
    | none =>
      have hmem : ty ∉ o.edgeTypes := HashMap.not_mem_iff_getElem?.mpr hd
      rw [OntologyExtension.edgeUpdate_of_not_mem fun hin => hmem (hx.edgeUpdates ty hin)]
      exact ⟨.inl rfl, .inl rfl⟩
  · refine fun h => Std.ExtTreeMap.ext_getElem? fun ty => ?_
    cases hd : o.edgeTypes[ty]? with
    | some d => exact (hsome ty d hd).mpr (h ty)
    | none =>
      have hmem : ty ∉ o.edgeTypes := HashMap.not_mem_iff_getElem?.mpr hd
      have hblankX := OntologyExtension.edgeUpdate_of_not_mem fun hin => hmem (hx.edgeUpdates ty hin)
      have hblankY := OntologyExtension.edgeUpdate_of_not_mem fun hin => hmem (hy.edgeUpdates ty hin)
      rw [hxy.edgeTypes, hx.edgeTypes, hyx.edgeTypes, hy.edgeTypes, hd, hblankX, hblankY]
      simp only [widenEdgeType_empty, Option.map_id', Option.or_none]
      cases hnew : y.edgeTypes[ty]? with
      | none => rw [Option.none_or, Option.or_none]
      | some d =>
        have hno := hxy.newEdges ty (HashMap.mem_iff_getElem?.mpr ⟨d, hnew⟩)
        rw [HashMap.not_mem_iff_getElem?, hx.edgeTypes, hd, Option.or_none, Option.map_eq_none_iff] at hno
        rw [hno, Option.none_or, Option.or_none]

/-- **Two extensions in either order** lead to the same ontology if and only if they bind
apart; and to the same content hash, unless the hashes of the two results collide. -/
theorem merges_commute_iff [Crates] (o : Ontology) (x y : OntologyExtension)
    (hx : (o.mergeExtension x).1.isOk = true)
    (hxy : ((o.mergeExtension x).2.mergeExtension y).1.isOk = true)
    (hy : (o.mergeExtension y).1.isOk = true)
    (hyx : ((o.mergeExtension y).2.mergeExtension x).1.isOk = true) :
    let o₁₂ := ((o.mergeExtension x).2.mergeExtension y).2
    let o₂₁ := ((o.mergeExtension y).2.mergeExtension x).2
    (o₁₂ = o₂₁ ↔ BindApart x y) ∧
      ((Crates.ontologyHash o₁₂ = Crates.ontologyHash o₂₁ → o₁₂ = o₂₁) →
        (Crates.ontologyHash o₁₂ = Crates.ontologyHash o₂₁ ↔ BindApart x y)) := by
  intro o₁₂ o₂₁
  have hnodes : o₁₂.nodeTypes = o₂₁.nodeTypes := (merged_of_isOk hx).nodeTypes_comm (merged_of_isOk hxy)
    (merged_of_isOk hy) (merged_of_isOk hyx)
  have hedges : o₁₂.edgeTypes = o₂₁.edgeTypes ↔ BindApart x y :=
    (merged_of_isOk hx).edgeTypes_comm_iff (merged_of_isOk hxy) (merged_of_isOk hy) (merged_of_isOk hyx)
  have hvalues : o₁₂ = o₂₁ ↔ BindApart x y := by
    rw [← hedges]
    refine ⟨congrArg Ontology.edgeTypes, fun h => ?_⟩
    generalize o₁₂ = a at hnodes h ⊢
    generalize o₂₁ = b at hnodes h ⊢
    cases a
    cases b
    obtain rfl := hnodes
    obtain rfl := h
    rfl
  refine ⟨hvalues, fun hcollision => ⟨fun h => hvalues.mp (hcollision h), fun h => ?_⟩⟩
  rw [hvalues.mpr h]

end Ontology

namespace Sample

/-- Cats, which are animals. -/
def cats : OntologyExtension where
  nodeTypes := (∅ : BTreeMap String NodeTypeDef).insert "cat" { parentType := some "animal" }

/-- Any animal may bite. -/
def biters : OntologyExtension where
  edgeTypeUpdates := (∅ : BTreeMap String EdgeTypeUpdate).insert "bites" { addSourceTypes := ["animal"] }

/-- Cats, and that they may bite. -/
def bitingCats : OntologyExtension where
  nodeTypes := cats.nodeTypes
  edgeTypeUpdates := (∅ : BTreeMap String EdgeTypeUpdate).insert "bites" { addSourceTypes := ["cat"] }

/-- A digest of what edge types bind, in their order. -/
def bindingDigest : Crates :=
  { crates with
    ontologyHash := fun o => BitVec.ofNat 256
      (stringCode (String.join (o.edgeTypes.toList.flatMap fun kv => kv.2.sourceTypes))) }

end Sample

namespace Ontology

open Sample in
/-- Cats do not mind who may bite. -/
theorem merges_commute_cats :
    ((pets.mergeExtension cats).2.mergeExtension biters).2 =
      ((pets.mergeExtension biters).2.mergeExtension cats).2 := by
  refine (merges_commute_iff pets cats biters (by decide) (by decide) (by decide) (by decide)).1.mpr ?_
  intro ty
  exact ⟨.inl (congrArg EdgeTypeUpdate.addSourceTypes (OntologyExtension.edgeUpdate_of_not_mem
    Std.ExtTreeMap.not_mem_empty)), .inl (congrArg EdgeTypeUpdate.addTargetTypes
    (OntologyExtension.edgeUpdate_of_not_mem Std.ExtTreeMap.not_mem_empty))⟩

open Sample in
/-- Who may bite is listed in the order in which it was allowed. -/
theorem merges_order_matters : ¬ ∀ (c : Crates) (o : Ontology) (x y : OntologyExtension),
    (o.mergeExtension x).1.isOk = true → ((o.mergeExtension x).2.mergeExtension y).1.isOk = true →
    (o.mergeExtension y).1.isOk = true → ((o.mergeExtension y).2.mergeExtension x).1.isOk = true →
    c.ontologyHash ((o.mergeExtension x).2.mergeExtension y).2 =
      c.ontologyHash ((o.mergeExtension y).2.mergeExtension x).2 := fun h =>
  absurd (h bindingDigest pets biters bitingCats (by decide) (by decide) (by decide) (by decide)) (by decide)

end Ontology

end SilkGraph
