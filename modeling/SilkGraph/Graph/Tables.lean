import SilkGraph.Data.ClockOrder
import SilkGraph.Graph.Basic

/-!
# Property tables, key by key

A write to a property table only concerns one key, and what it does there depends on the
clock alone. So a table is studied one key at a time: `cell` is the value and the clock under
a key, `writeCell` what a write does to it, and every operation on tables is determined by
its action on cells. Writes commute unless they compete for a key with one clock
(`write_comm`, `mergeLww_write_comm`, `mergeLww_comm`), and a write that is older than
what it meets changes nothing (`mergeLww_eq_self`).
-/

namespace SilkGraph

theorem laterClock_eq_max (existing new : HybridClock) : laterClock existing new = max existing new := by
  rw [laterClock, clockWins_eq]
  rcases lt_or_ge existing new with h | h
  · simp [h, h.le]
  · simp [not_lt.mpr h, h]

/-- What a table holds under a key. -/
abbrev Cell := Option Value × Option HybridClock

/-- A write to a cell goes through if it has no clock or an earlier one. -/
def writeCell (p : Cell) (value : Value) (clock : HybridClock) : Cell :=
  if ∀ c ∈ p.2, c < clock then (some value, some clock) else p

/-- A clock that does not beat the one of the cell. -/
def Covers (p : Cell) (clock : HybridClock) : Prop := ∃ c ∈ p.2, clock ≤ c

section Cells

variable {p : Cell} {v v₁ v₂ : Value} {c c₁ c₂ : HybridClock}

theorem writeCell_of_covers (h : Covers p c) : writeCell p v c = p := by
  obtain ⟨c', hc', hle⟩ := h
  exact if_neg fun hall => absurd (hall c' hc') (not_lt.mpr hle)

/-- After a write the cell covers its clock. -/
theorem covers_writeCell : Covers (writeCell p v c) c := by
  rw [writeCell]
  split
  · exact ⟨c, rfl, le_rfl⟩
  · rename_i h
    push Not at h
    exact h

/-- What was covered stays covered. -/
theorem Covers.writeCell (h : Covers p c) : Covers (writeCell p v c₁) c := by
  rw [SilkGraph.writeCell]
  split
  · rename_i hall
    obtain ⟨c', hc', hle⟩ := h
    exact ⟨c₁, rfl, hle.trans (hall c' hc').le⟩
  · exact h

theorem writeCell_comm (hne : c₁ ≠ c₂) :
    writeCell (writeCell p v₁ c₁) v₂ c₂ = writeCell (writeCell p v₂ c₂) v₁ c₁ := by
  wlog hlt : c₁ < c₂ generalizing c₁ c₂ v₁ v₂
  · exact (this hne.symm (lt_of_le_of_ne (not_lt.mp hlt) hne.symm)).symm
  -- the earlier write never overwrites the later one
  have hright : writeCell (writeCell p v₂ c₂) v₁ c₁ = writeCell p v₂ c₂ := by
    obtain ⟨c', hc', hle⟩ := covers_writeCell (p := p) (v := v₂) (c := c₂)
    exact writeCell_of_covers ⟨c', hc', hlt.le.trans hle⟩
  rw [hright]
  by_cases h₁ : ∀ c ∈ p.2, c < c₁
  · have h₂ : ∀ c ∈ p.2, c < c₂ := fun c hc => (h₁ c hc).trans hlt
    have hw : writeCell p v₁ c₁ = (some v₁, some c₁) := if_pos h₁
    rw [hw, writeCell, writeCell, if_pos h₂, if_pos]
    simpa using hlt
  · rw [show writeCell p v₁ c₁ = p from if_neg h₁]

end Cells

namespace PropertyTable

variable {t : PropertyTable} {k k₁ k₂ : String} {v v₁ v₂ : Value} {c c₁ c₂ : HybridClock}
  {ps ps₁ ps₂ : BTreeMap String Value}

/-- The cell of a key. -/
def cell (self : PropertyTable) (k : String) : Cell := (self.properties[k]?, self.clocks[k]?)

theorem ext_cell {t t' : PropertyTable} (h : ∀ k, t.cell k = t'.cell k) : t = t' := by
  obtain ⟨p, cl⟩ := t
  obtain ⟨p', cl'⟩ := t'
  have hp : p = p' := Std.ExtTreeMap.ext_getElem? fun {k} => (Prod.mk.inj (h k)).1
  have hc : cl = cl' := Std.ExtTreeMap.ext_getElem? fun {k} => (Prod.mk.inj (h k)).2
  rw [hp, hc]

theorem cell_write (t : PropertyTable) (k : String) (v : Value) (c : HybridClock) (k' : String) :
    (t.write k v c).cell k' = if k = k' then writeCell (t.cell k') v c else t.cell k' := by
  have hopen : (t.clocks[k]?.map fun c' => clockWins c c').getD true = true ↔
      ∀ c' ∈ (t.cell k).2, c' < c := by
    rw [cell]
    cases t.clocks[k]? <;> simp
  by_cases hkk : k = k'
  · subst hkk
    rw [if_pos rfl, write, writeCell]
    split <;> rename_i h
    · rw [if_pos (hopen.mp h)]
      simp [cell]
    · rw [if_neg (fun h' => h (hopen.mpr h'))]
  · rw [if_neg hkk, write]
    split
    · simp [cell, HashMap.getElem?_insert, hkk]
    · rfl

/-- Write properties one after the other, each at its clock, as far as they are accepted. -/
def writeAll (ok : String → Value → Bool) (clock : String → HybridClock) (t : PropertyTable)
    (l : List (String × Value)) : PropertyTable :=
  l.foldl (fun t kv => if ok kv.1 kv.2 then t.write kv.1 kv.2 (clock kv.1) else t) t

/-- An accepted property is written into its cell, and that is all. -/
theorem cell_writeAll (ok : String → Value → Bool) (clock : String → HybridClock) (t : PropertyTable)
    (ps : BTreeMap String Value) (k : String) : (t.writeAll ok clock ps.toList).cell k =
      match ps[k]? with
      | some v => if ok k v then writeCell (t.cell k) v (clock k) else t.cell k
      | none => t.cell k := by
  -- over a list of pairs with distinct keys, at most one of the writes concerns the key
  have hfold : ∀ (l : List (String × Value)) (t : PropertyTable),
      l.Pairwise (fun a b => ¬ compare a.1 b.1 = .eq) →
      (t.writeAll ok clock l).cell k = match (l.find? fun kv => kv.1 = k).map Prod.snd with
        | some v => if ok k v then writeCell (t.cell k) v (clock k) else t.cell k
        | none => t.cell k := by
    intro l
    induction l with
    | nil => exact fun t _ => rfl
    | cons a l ih =>
      intro t hl
      obtain ⟨ha, hl⟩ := List.pairwise_cons.mp hl
      have hstep : t.writeAll ok clock (a :: l) =
          (if ok a.1 a.2 then t.write a.1 a.2 (clock a.1) else t).writeAll ok clock l := rfl
      rw [hstep, ih _ hl]
      by_cases hak : a.1 = k
      · have hnone : (l.find? fun kv => kv.1 = k) = none := by
          refine List.find?_eq_none.mpr fun b hb => ?_
          have := ha b hb
          rw [Std.compare_eq_iff_eq, hak] at this
          simpa using Ne.symm this
        rw [hnone, List.find?_cons_of_pos (by simpa using hak)]
        subst hak
        simp only [Option.map_none, Option.map_some]
        split
        · rw [cell_write, if_pos rfl]
        · rfl
      · have hcell : (if ok a.1 a.2 then t.write a.1 a.2 (clock a.1) else t).cell k = t.cell k := by
          split
          · rw [cell_write, if_neg hak]
          · rfl
        rw [hcell, List.find?_cons_of_neg (by simpa using hak)]
  have hfind : (ps.toList.find? fun kv => kv.1 = k).map Prod.snd = ps[k]? := by
    cases hk : ps[k]? with
    | none =>
      rw [Option.map_eq_none_iff, List.find?_eq_none]
      rintro ⟨a, v⟩ hkv
      rw [HashMap.mem_toList] at hkv
      simp only [decide_eq_true_eq]
      rintro rfl
      rw [hk] at hkv
      cases hkv
    | some v =>
      cases hf : ps.toList.find? fun kv => kv.1 = k with
      | none =>
        have := List.find?_eq_none.mp hf (k, v) (HashMap.mem_toList.mpr hk)
        simp at this
      | some kv =>
        have hkey : kv.1 = k := by simpa using List.find?_some hf
        have hmem : (kv.1, kv.2) ∈ ps.toList := List.mem_of_find?_eq_some hf
        rw [HashMap.mem_toList, hkey, hk] at hmem
        exact congrArg some (Option.some.inj hmem).symm
  rw [hfold _ _ Std.ExtTreeMap.distinct_keys_toList, hfind]

/-- What a merge does to a cell: a write if the key is among the new properties. -/
def mergeCell (p : Cell) (new : Option Value) (c : HybridClock) : Cell :=
  match new with
  | some v => writeCell p v c
  | none => p

theorem cell_mergeLww (t : PropertyTable) (ps : BTreeMap String Value) (c : HybridClock)
    (k : String) : (t.mergeLww ps c).cell k = mergeCell (t.cell k) ps[k]? c := by
  have hall : t.mergeLww ps c = t.writeAll (fun _ _ => true) (fun _ => c) ps.toList := rfl
  rw [hall, cell_writeAll]
  cases ps[k]? <;> rfl

/-- The table of a new entity is a merge into an empty one. -/
theorem init_eq (ps : BTreeMap String Value) (c : HybridClock) :
    init ps c = mergeLww ⟨∅, ∅⟩ ps c := by
  refine ext_cell fun k => ?_
  have hclocks : ∀ (l : List String) (m : HashMap String HybridClock),
      (l.foldl (fun m k => m.insert k c) m)[k]? = if k ∈ l then some c else m[k]? := by
    intro l
    induction l with
    | nil => simp
    | cons a l ih =>
      intro m
      rw [List.foldl_cons, ih, HashMap.getElem?_insert]
      by_cases hka : k = a
      · simp [hka]
      · simp [hka, Ne.symm hka]
  rw [cell_mergeLww, init, cell, hclocks]
  cases hk : ps[k]? with
  | none =>
    have hmem : k ∉ ps := HashMap.not_mem_iff_getElem?.mpr hk
    simp [cell, mergeCell, hmem]
  | some v =>
    have hmem : k ∈ ps := HashMap.mem_iff_getElem?.mpr ⟨v, hk⟩
    simp [cell, mergeCell, writeCell, hmem]

/-! ### Order of writes -/

/-- Two writes commute unless they are to one key with one clock. -/
theorem write_comm (h : k₁ ≠ k₂ ∨ c₁ ≠ c₂) :
    (t.write k₁ v₁ c₁).write k₂ v₂ c₂ = (t.write k₂ v₂ c₂).write k₁ v₁ c₁ := by
  refine ext_cell fun k => ?_
  simp only [cell_write]
  split <;> split <;> try rfl
  rename_i h₂ h₁
  exact writeCell_comm (h.resolve_left fun hne => hne (h₁.trans h₂.symm))

theorem mergeCell_comm {p : Cell} {n₁ n₂ : Option Value} (h : c₁ ≠ c₂) :
    mergeCell (mergeCell p n₁ c₁) n₂ c₂ = mergeCell (mergeCell p n₂ c₂) n₁ c₁ := by
  cases n₁ <;> cases n₂ <;> try rfl
  exact writeCell_comm h

theorem mergeLww_comm (h : c₁ ≠ c₂) :
    (t.mergeLww ps₁ c₁).mergeLww ps₂ c₂ = (t.mergeLww ps₂ c₂).mergeLww ps₁ c₁ := by
  refine ext_cell fun k => ?_
  simp only [cell_mergeLww]
  exact mergeCell_comm h

theorem mergeLww_write_comm (h : c₁ ≠ c₂) :
    (t.mergeLww ps c₁).write k v c₂ = (t.write k v c₂).mergeLww ps c₁ := by
  refine ext_cell fun k' => ?_
  simp only [cell_mergeLww, cell_write]
  split
  · exact @mergeCell_comm _ _ _ _ (some v) h
  · rfl

/-! ### Writes that are too old -/

/-- Every property of the list is there with a clock that is no earlier. -/
def Absorbs (t : PropertyTable) (ps : BTreeMap String Value) (c : HybridClock) : Prop :=
  ∀ k ∈ ps, Covers (t.cell k) c

theorem mergeLww_eq_self (h : t.Absorbs ps c) : t.mergeLww ps c = t := by
  refine ext_cell fun k => ?_
  rw [cell_mergeLww]
  cases hk : ps[k]? with
  | none => rfl
  | some v => exact writeCell_of_covers (h k (HashMap.mem_iff_getElem?.mpr ⟨v, hk⟩))

theorem write_eq_self (h : Covers (t.cell k) c) : t.write k v c = t := by
  refine ext_cell fun k' => ?_
  rw [cell_write]
  split
  · rename_i hkk
    subst hkk
    exact writeCell_of_covers h
  · rfl

theorem covers_write (h : Covers (t.cell k) c) (v : Value) : Covers ((t.write k₁ v c₁).cell k) c := by
  rw [cell_write]
  split
  · exact h.writeCell
  · exact h

theorem covers_mergeLww (h : Covers (t.cell k) c) : Covers ((t.mergeLww ps c₁).cell k) c := by
  rw [cell_mergeLww]
  cases ps[k]? with
  | none => exact h
  | some v => exact h.writeCell

/-- A table absorbs what has been merged into it. -/
theorem absorbs_mergeLww : (t.mergeLww ps c).Absorbs ps c := by
  intro k hk
  obtain ⟨v, hv⟩ := HashMap.mem_iff_getElem?.mp hk
  rw [cell_mergeLww, hv]
  exact covers_writeCell

theorem Absorbs.write (h : t.Absorbs ps c) (k : String) (v : Value) (c₁ : HybridClock) :
    (t.write k v c₁).Absorbs ps c :=
  fun k' hk' => covers_write (h k' hk') v

theorem Absorbs.mergeLww (h : t.Absorbs ps c) (ps₁ : BTreeMap String Value) (c₁ : HybridClock) :
    (t.mergeLww ps₁ c₁).Absorbs ps c :=
  fun k' hk' => covers_mergeLww (h k' hk')

end PropertyTable

end SilkGraph
