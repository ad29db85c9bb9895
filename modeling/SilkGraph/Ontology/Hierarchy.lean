import SilkGraph.Ontology.Growth
import SilkGraph.Lib.Chain

/-!
# The class hierarchy

`ancestors` follows the parents of a type for a hundred steps, and `validate_self` asks only
that a parent is declared, not that parents come to an end. So the hierarchy is computed
exactly on the ontologies in which every line of parents does end within those steps
(`hierarchyExact_iff`); of the others, a type that is its own parent is the smallest.
-/

namespace SilkGraph

namespace Ontology

variable {o : Ontology} {a b ty : String}

/-! ### Parents and ancestors -/

/-- The parent of a type that is declared and has one. -/
def parentOf (self : Ontology) (nodeType : String) : Option String :=
  self.nodeTypes[nodeType]?.bind NodeTypeDef.parentType

/-- The second type is the parent of the first. -/
abbrev Parent (self : Ontology) : String → String → Prop := Chain.Step self.parentOf

theorem ancestorsLoop_eq_walk (o : Ontology) (n : ℕ) (ty : String) :
    o.ancestorsLoop n ty = Chain.walk o.parentOf n ty := by
  induction n generalizing ty with
  | zero => rfl
  | succ n ih =>
    rw [ancestorsLoop, Chain.walk, parentOf]
    cases o.nodeTypes[ty]?.bind NodeTypeDef.parentType with
    | none => rfl
    | some parent => exact congrArg (parent :: ·) (ih parent)

theorem ancestors_eq_walk (o : Ontology) (ty : String) :
    o.ancestors ty = Chain.walk o.parentOf 100 ty := ancestorsLoop_eq_walk o 100 ty

theorem isSubtypeOf_iff : o.isSubtypeOf a b = true ↔ a = b ∨ b ∈ o.ancestors a := by
  rw [isSubtypeOf, Bool.or_eq_true, beq_iff_eq, List.contains_iff_mem]

/-- Every ancestor is one by way of parents. -/
theorem transGen_of_mem_ancestors (h : b ∈ o.ancestors a) : Relation.TransGen o.Parent a b := by
  rw [ancestors_eq_walk] at h
  exact Chain.transGen_of_mem_walk h

/-- More parents make more subtypes. -/
theorem isSubtypeOf_mono {o' : Ontology} (hparents : ∀ a b, o.parentOf a = some b → o'.parentOf a = some b)
    (h : o.isSubtypeOf a b = true) : o'.isSubtypeOf a b = true := by
  rw [isSubtypeOf_iff, ancestors_eq_walk] at h ⊢
  exact h.imp_right fun hmem => (Chain.walk_isPrefix hparents 100 a).subset hmem

/-- The descendants are what is a subtype of the type, other than the type. -/
theorem mem_descendants : a ∈ o.descendants b ↔ a ≠ b ∧ o.isSubtypeOf a b = true := by
  rw [isSubtypeOf_iff, descendants, List.mem_filter, Std.ExtTreeMap.mem_keys, Bool.and_eq_true,
    bne_iff_ne, List.contains_iff_mem]
  constructor
  · rintro ⟨-, hne, hmem⟩
    exact ⟨hne, .inr hmem⟩
  · rintro ⟨hne, heq | hmem⟩
    · exact absurd heq hne
    · obtain ⟨c, hc, -⟩ := Relation.TransGen.head'_iff.mp (transGen_of_mem_ancestors hmem)
      obtain ⟨d, hd, -⟩ := Option.bind_eq_some_iff.mp (hc : o.parentOf a = some c)
      exact ⟨HashMap.mem_iff_getElem?.mpr ⟨d, hd⟩, hne, hmem⟩

/-! ### Effective properties -/

/-- The properties a type itself declares. -/
def ownDefs (self : Ontology) (nodeType : String) : BTreeMap String PropertyDef :=
  (self.nodeTypes[nodeType]?.map NodeTypeDef.properties).getD ∅

theorem ownDefs_of_some {d : NodeTypeDef} (hd : o.nodeTypes[ty]? = some d) :
    o.ownDefs ty = d.properties := by
  rw [ownDefs, hd]
  rfl

/-- The nearest declaration of a property counts. -/
theorem getElem?_effectiveProperties (o : Ontology) (ty k : String) :
    (o.effectiveProperties ty)[k]? = (ty :: o.ancestors ty).findSome? fun t => (o.ownDefs t)[k]? := by
  -- a step puts a type's own definitions over those already there
  have hfold : ∀ (f : BTreeMap String PropertyDef → String → BTreeMap String PropertyDef),
      (∀ props t, (f props t)[k]? = (o.ownDefs t)[k]?.or props[k]?) → ∀ (l : List String) m,
      (l.foldl f m)[k]? = (l.reverse.findSome? fun t => (o.ownDefs t)[k]?).or m[k]? := by
    intro f hf l
    induction l with
    | nil => simp
    | cons t l ih =>
      intro m
      rw [List.foldl_cons, ih, List.reverse_cons, List.findSome?_append, Option.or_assoc, hf]
      simp
  rw [effectiveProperties, hfold]
  swap
  · intro props t
    split <;> rename_i hd
    · rw [ownDefs_of_some hd, BTreeMap.getElem?_extend]
    · simp [ownDefs, hd]
  rw [List.reverse_append, List.reverse_reverse, List.reverse_singleton, List.singleton_append,
    Std.ExtTreeMap.getElem?_empty, Option.or_none]

/-! ### When the hierarchy is exact -/

/-- The class hierarchy is what the parents say: every type has its whole line of parents,
without repetition and up to a type without parent, all of them declared; and subtypes are
the reflexive and transitive closure of parents. -/
structure HierarchyExact (o : Ontology) : Prop where
  chain : ∀ ty, List.IsChain o.Parent (ty :: o.ancestors ty)
  nodup : ∀ ty, (ty :: o.ancestors ty).Nodup
  ends : ∀ ty, o.parentOf ((ty :: o.ancestors ty).getLast (List.cons_ne_nil _ _)) = none
  declared : ∀ ty, ∀ t ∈ o.ancestors ty, t ∈ o.nodeTypes
  subtypes : ∀ a b, o.isSubtypeOf a b = true ↔ Relation.ReflTransGen o.Parent a b
  antisymm : ∀ a b, o.isSubtypeOf a b = true → o.isSubtypeOf b a = true → a = b
  descendants : ∀ ty t, t ∈ o.descendants ty ↔ t ≠ ty ∧ Relation.ReflTransGen o.Parent t ty

/-- Lines of parents that end are computed exactly. -/
theorem isSubtypeOf_iff_of_stops (h : Chain.Stops o.parentOf 100 a) :
    o.isSubtypeOf a b = true ↔ Relation.ReflTransGen o.Parent a b := by
  rw [isSubtypeOf_iff, ancestors_eq_walk, h.mem_walk_iff, Relation.reflTransGen_iff_eq_or_transGen,
    eq_comm]

/-- In an ontology that is consistent, every ancestor is declared. -/
theorem parent_declared (hself : o.validateSelf.isOk = true) (h : o.parentOf a = some b) :
    b ∈ o.nodeTypes := by
  obtain ⟨d, hd, hparent⟩ := Option.bind_eq_some_iff.mp h
  rw [validateSelf, isOk_bind, isOk_bind, isOk_forM (l := o.nodeTypes.toList)] at hself
  have hone := hself.2.1 (a, d) (HashMap.mem_toList.mpr hd)
  dsimp only at hone
  rw [hparent] at hone
  dsimp only at hone
  split at hone
  · rename_i hin
    exact Std.ExtTreeMap.contains_iff_mem.mp hin
  · cases hone

theorem declared_of_mem_ancestors (hself : o.validateSelf.isOk = true) (h : a ∈ o.ancestors ty) :
    a ∈ o.nodeTypes := by
  obtain ⟨c, -, hc⟩ := Relation.TransGen.tail'_iff.mp (transGen_of_mem_ancestors h)
  exact parent_declared hself hc

/-- **The class hierarchy** of a consistent ontology is exact if and only if every line of
parents ends within a hundred steps. What it does compute is sound in any case, and
descendants are always the inverse of subtypes. -/
theorem hierarchyExact_iff (o : Ontology) (hself : o.validateSelf.isOk = true) :
    (o.HierarchyExact ↔ ∀ ty, Chain.Stops o.parentOf 100 ty) ∧
      (∀ a b, o.isSubtypeOf a b = true → Relation.ReflTransGen o.Parent a b) ∧
      ∀ a b, a ∈ o.descendants b ↔ a ≠ b ∧ o.isSubtypeOf a b = true := by
  refine ⟨⟨fun h ty => ?_, fun h => ?_⟩, fun a b hab => ?_, fun a b => mem_descendants⟩
  · have hends := h.ends ty
    simp only [ancestors_eq_walk] at hends
    exact (Chain.stops_iff_getLast 100 ty).mpr hends
  · refine ⟨fun ty => ?_, fun ty => ?_, fun ty => ?_, fun ty t ht => ?_,
      fun a b => isSubtypeOf_iff_of_stops (h a), fun a b hab hba => ?_, fun ty t => ?_⟩
    · rw [ancestors_eq_walk]
      exact Chain.isChain_walk 100 ty
    · rw [ancestors_eq_walk]
      exact (h ty).nodup
    · simp only [ancestors_eq_walk]
      exact (Chain.stops_iff_getLast 100 ty).mp (h ty)
    · exact declared_of_mem_ancestors hself ht
    · rw [isSubtypeOf_iff_of_stops (h a), Relation.reflTransGen_iff_eq_or_transGen] at hab
      rw [isSubtypeOf_iff_of_stops (h b)] at hba
      obtain heq | hab := hab
      · exact heq.symm
      · exact absurd (h a) (Chain.not_stops_of_cycle (hab.trans_left hba) 100)
    · rw [mem_descendants, isSubtypeOf_iff_of_stops (h t)]
  · obtain rfl | hmem := isSubtypeOf_iff.mp hab
    · exact .refl
    · exact (transGen_of_mem_ancestors hmem).to_reflTransGen

/-- Two types, one the parent of the other. -/
def kennel : Ontology where
  nodeTypes := (∅ : BTreeMap String NodeTypeDef) |>.insert "animal" {} |>.insert "dog"
    { parentType := some "animal" }
  edgeTypes := ∅

theorem parentOf_kennel (h : kennel.parentOf a = some b) : a = "dog" ∧ b = "animal" := by
  obtain ⟨d, hd, hparent⟩ := Option.bind_eq_some_iff.mp h
  rw [kennel, HashMap.getElem?_insert, HashMap.getElem?_insert] at hd
  split at hd
  · rename_i hdog
    obtain rfl := Option.some.inj hd
    exact ⟨hdog.symm, (Option.some.inj hparent).symm⟩
  · split at hd
    · obtain rfl := Option.some.inj hd
      cases hparent
    · rw [Std.ExtTreeMap.getElem?_empty] at hd
      cases hd

theorem hierarchyExact_kennel : kennel.HierarchyExact ∧ "dog" ∈ kennel.descendants "animal" := by
  refine ⟨(hierarchyExact_iff kennel (by decide)).1.mpr fun ty => ?_, by decide⟩
  intro b hb
  obtain ⟨-, rfl⟩ := parentOf_kennel hb
  intro c hc
  exact absurd (parentOf_kennel hc).1 (by decide)

/-- An extension by a type that is its own parent. -/
def ouroboros : OntologyExtension where
  nodeTypes := (∅ : BTreeMap String NodeTypeDef).insert "snake" { parentType := some "snake" }

/-- It is accepted, and the line of parents repeats itself until the walk is cut. -/
theorem ouroboros_accepted :
    ¬ (∀ o : Ontology, o.validateSelf.isOk = true → o.HierarchyExact) ∧
      ¬ (∀ (o : Ontology) (x : OntologyExtension), o.validateSelf.isOk = true →
        (o.mergeExtension x).1.isOk = true → (o.mergeExtension x).2.HierarchyExact) := by
  have hsnake : ¬ (kennel.mergeExtension ouroboros).2.HierarchyExact := fun h =>
    absurd (h.nodup "snake") (by decide)
  exact ⟨fun h => hsnake (h _ (by decide)),
    fun h => hsnake (h kennel ouroboros (by decide) (by decide))⟩

end Ontology

end SilkGraph
