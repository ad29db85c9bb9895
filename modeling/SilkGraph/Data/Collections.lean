import Mathlib.Algebra.Order.Ring.Nat
import Mathlib.Data.Int.Notation
import Mathlib.Data.List.Perm.Basic
import Mathlib.Data.Nat.Notation
import Std.Data.ExtTreeMap
import Std.Data.ExtTreeSet

/-!
# Maps and sets of the source

`BTreeMap`, `HashMap` and `HashSet` are modelled by the extensional ordered maps and sets
of the standard library: two of them are equal exactly when they hold the same contents,
and `toList` walks them in key order. That walk *is* the iteration order of a `BTreeMap`.
The iteration order of a `HashMap` or a `HashSet` is unspecified, so wherever the source
walks one and the order can be observed, the model takes a `HashOrder`: an arbitrary
rearrangement of the key-ordered walk.
-/

namespace SilkGraph

/-- `std::collections::BTreeMap`. -/
abbrev BTreeMap (K V : Type) [Ord K] := Std.ExtTreeMap K V compare

/-- `std::collections::HashMap`, up to its iteration order (see `HashOrder`). -/
abbrev HashMap (K V : Type) [Ord K] := Std.ExtTreeMap K V compare

/-- `std::collections::HashSet`, up to its iteration order (see `HashOrder`). -/
abbrev HashSet (K : Type) [Ord K] := Std.ExtTreeSet K compare

/-- The order in which one call walks its hash maps and hash sets: some rearrangement of
the contents, chosen by the hasher and not by the program. -/
structure HashOrder where
  /-- The rearrangement. -/
  walk : {α : Type} → List α → List α
  /-- Nothing is skipped and nothing is visited twice. -/
  perm : ∀ {α : Type} (l : List α), (walk l).Perm l

/-- The walk in key order, one of the possible ones. -/
def HashOrder.keyOrder : HashOrder := ⟨fun l => l, fun l => List.Perm.refl l⟩

@[simp]
theorem HashOrder.mem_walk (σ : HashOrder) {α : Type} {l : List α} {a : α} :
    a ∈ σ.walk l ↔ a ∈ l :=
  (σ.perm l).mem_iff

section Lemmas

variable {K V : Type} [Ord K] [Std.TransOrd K] [Std.LawfulEqOrd K] {m : HashMap K V}
  {s : HashSet K} {k a : K} {v : V}

theorem HashMap.getElem?_insert [DecidableEq K] :
    (m.insert k v)[a]? = if k = a then some v else m[a]? := by
  rw [Std.ExtTreeMap.getElem?_insert]
  simp only [Std.compare_eq_iff_eq]

theorem HashMap.getElem?_erase [DecidableEq K] :
    (m.erase k)[a]? = if k = a then none else m[a]? := by
  rw [Std.ExtTreeMap.getElem?_erase]
  simp only [Std.compare_eq_iff_eq]

theorem HashMap.mem_insert : a ∈ m.insert k v ↔ k = a ∨ a ∈ m := by
  rw [Std.ExtTreeMap.mem_insert, Std.compare_eq_iff_eq]

omit [Std.LawfulEqOrd K] in
theorem HashMap.mem_iff_getElem? : a ∈ m ↔ ∃ v, m[a]? = some v := by
  rw [Std.ExtTreeMap.mem_iff_isSome_getElem?, Option.isSome_iff_exists]

omit [Std.LawfulEqOrd K] in
theorem HashMap.not_mem_iff_getElem? : a ∉ m ↔ m[a]? = none := by
  rw [Std.ExtTreeMap.mem_iff_isSome_getElem?, Option.not_isSome_iff_eq_none]

theorem HashMap.mem_toList : (a, v) ∈ m.toList ↔ m[a]? = some v :=
  Std.ExtTreeMap.mem_toList_iff_getElem?_eq_some

theorem HashSet.mem_insert : a ∈ s.insert k ↔ k = a ∨ a ∈ s := by
  rw [Std.ExtTreeSet.mem_insert, Std.compare_eq_iff_eq]

theorem HashSet.mem_erase : a ∈ s.erase k ↔ k ≠ a ∧ a ∈ s := by
  rw [Std.ExtTreeSet.mem_erase, Ne, Ne, Std.compare_eq_iff_eq]

theorem HashSet.mem_ofList [DecidableEq K] {l : List K} :
    a ∈ Std.ExtTreeSet.ofList l (compare : K → K → Ordering) ↔ a ∈ l := by
  rw [Std.ExtTreeSet.mem_ofList, List.contains_iff_mem]

theorem HashSet.mem_filter {keep : K → Bool} : a ∈ s.filter keep ↔ a ∈ s ∧ keep a = true := by
  rw [Std.ExtTreeSet.mem_filter]
  constructor
  · rintro ⟨h, hkeep⟩
    rw [Std.ExtTreeSet.get_eq] at hkeep
    exact ⟨h, hkeep⟩
  · rintro ⟨h, hkeep⟩
    refine ⟨h, ?_⟩
    rw [Std.ExtTreeSet.get_eq]
    exact hkeep

omit [Std.LawfulEqOrd K] in
theorem HashSet.contains_eq_false : s.contains a = false ↔ a ∉ s := by
  rw [← Bool.not_eq_true, Std.ExtTreeSet.contains_iff_mem]

theorem HashSet.nodup_toList : s.toList.Nodup :=
  Std.ExtTreeSet.distinct_toList.imp fun h heq => h (Std.compare_eq_iff_eq.mpr heq)

/-- A list in key order is the walk of the map that is collected from it. -/
theorem BTreeMap.toList_ofList [DecidableEq K] {l : List (K × V)}
    (h : l.Pairwise fun a b => compare a.1 b.1 = .lt) :
    (Std.ExtTreeMap.ofList l compare).toList = l := by
  have hdistinct : ∀ a b : K × V, compare a.1 b.1 = .lt → ¬ compare a.1 b.1 = .eq := by
    intro a b hab heq
    rw [hab] at heq
    cases heq
  have hne : ∀ a b : K × V, compare a.1 b.1 = .lt → a ≠ b := by
    rintro a b hab rfl
    exact hdistinct a a hab Std.ReflCmp.compare_self
  have hget : ∀ k v, (k, v) ∈ l → (Std.ExtTreeMap.ofList l compare)[k]? = some v := fun k v hv =>
    Std.ExtTreeMap.getElem?_ofList_of_mem Std.ReflCmp.compare_self (h.imp (hdistinct _ _)) hv
  have horder : (Std.ExtTreeMap.ofList l compare).toList.Pairwise
      fun a b => compare a.1 b.1 = .lt := Std.ExtTreeMap.ordered_keys_toList
  -- both lists are in key order, so it is enough that they have the same members
  refine List.Perm.eq_of_pairwise (fun a b _ _ hab hba => ?_) horder h ?_
  · exact absurd hba (Std.OrientedCmp.not_lt_of_lt hab)
  · rw [List.perm_ext_iff_of_nodup (horder.imp (hne _ _)) (h.imp (hne _ _))]
    rintro ⟨k, v⟩
    rw [HashMap.mem_toList]
    refine ⟨fun hv => ?_, hget k v⟩
    have hk : k ∈ Std.ExtTreeMap.ofList l compare := HashMap.mem_iff_getElem?.mpr ⟨v, hv⟩
    rw [Std.ExtTreeMap.mem_ofList, List.contains_iff_mem] at hk
    obtain ⟨⟨k', v'⟩, hmem, rfl⟩ := List.mem_map.mp hk
    rw [hget k' v' hmem] at hv
    exact Option.some.inj hv ▸ hmem

/-- The map collected from the walk of a map is that map. -/
theorem BTreeMap.ofList_toList [DecidableEq K] (m : BTreeMap K V) :
    Std.ExtTreeMap.ofList m.toList compare = m :=
  Std.ExtTreeMap.toList_inj.mp (toList_ofList Std.ExtTreeMap.ordered_keys_toList)

end Lemmas

end SilkGraph
