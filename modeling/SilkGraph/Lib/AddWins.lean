import Mathlib.Data.List.Induction
import Mathlib.Order.MinMax

/-!
# A flag that remembers its last add

Adds and removals with clocks come in some order. The flag keeps the greatest clock of an add
and whether it is removed now: an add brings it back, a removal counts if it is later than
every add so far. No clock of a removal is kept, so a removal that comes before an add is
forgotten, and the flag ends as the clocks say it should exactly if a removal that beats every
add, when there is one, also comes after them (`law_iff`).
-/

namespace AddWins

variable {C : Type*} [LinearOrder C]

/-- What may happen to the flag. -/
inductive Op (C : Type*) where
  | add (clock : C)
  | remove (clock : C)
  | other

/-- The flag, once there was an add. -/
structure Flag (C : Type*) where
  /-- The greatest clock of an add. -/
  lastAdd : C
  removed : Bool

/-- One operation. A removal of what was never added is ignored. -/
def step (self : Option (Flag C)) : Op C → Option (Flag C)
  | .add c => some ⟨(self.map fun f => max f.lastAdd c).getD c, false⟩
  | .remove r => self.map fun f => if f.lastAdd < r then { f with removed := true } else f
  | .other => self

/-- A clock later than every add. -/
def Beats (ops : List (Op C)) (r : C) : Prop := ∀ c, .add c ∈ ops → c < r

/-- A removal that beats every add is followed by none. -/
def BeatenLast (ops : List (Op C)) : Prop :=
  ∃ pre r post, ops = pre ++ .remove r :: post ∧ (∀ c, .add c ∉ post) ∧ Beats ops r

/-- What the clocks say: some removal beats every add. -/
def Beaten (ops : List (Op C)) : Prop := ∃ r, .remove r ∈ ops ∧ Beats ops r

variable {ops : List (Op C)} {x : Op C} {c r : C}

theorem BeatenLast.beaten (h : BeatenLast ops) : Beaten ops := by
  obtain ⟨pre, r, post, rfl, -, hbeats⟩ := h
  exact ⟨r, by simp, hbeats⟩

theorem beats_concat : Beats (ops ++ [x]) r ↔ Beats ops r ∧ ∀ c, x = .add c → c < r := by
  constructor
  · intro h
    refine ⟨fun c hc => h c (List.mem_append_left _ hc), ?_⟩
    rintro c rfl
    exact h c (by simp)
  · rintro ⟨h, hx⟩ c hc
    obtain hc | hc := List.mem_append.mp hc
    · exact h c hc
    · exact hx c (List.mem_singleton.mp hc).symm

/-- After an add no removal has come since. -/
theorem not_beatenLast_add : ¬ BeatenLast (ops ++ [.add c]) := by
  rintro ⟨pre, r, post, heq, hno, -⟩
  obtain rfl | ⟨post, y, rfl⟩ := List.eq_nil_or_concat post
  · have := (List.append_inj' heq rfl).2
    cases this
  · rw [List.concat_eq_append, ← List.cons_append, ← List.append_assoc] at heq
    obtain ⟨-, hy⟩ := List.append_inj' heq rfl
    exact hno c (by simp [← List.singleton_inj.mp hy])

/-- An operation that is no add keeps what was beaten, and may be a removal that beats. -/
theorem beatenLast_concat (hx : ∀ c, x ≠ .add c) :
    BeatenLast (ops ++ [x]) ↔ BeatenLast ops ∨ ∃ r, x = .remove r ∧ Beats ops r := by
  constructor
  · rintro ⟨pre, r, post, heq, hno, hbeats⟩
    have hops : Beats ops r := (beats_concat.mp hbeats).1
    obtain rfl | ⟨post, y, rfl⟩ := List.eq_nil_or_concat post
    · obtain ⟨-, hxr⟩ := List.append_inj' heq rfl
      exact .inr ⟨r, List.singleton_inj.mp hxr, hops⟩
    · rw [List.concat_eq_append, ← List.cons_append, ← List.append_assoc] at heq
      obtain ⟨rfl, -⟩ := List.append_inj' heq rfl
      exact .inl ⟨pre, r, post, rfl, fun c hc => hno c (by simp [hc]), hops⟩
  · rintro (⟨pre, r, post, rfl, hno, hbeats⟩ | ⟨r, rfl, hbeats⟩)
    · refine ⟨pre, r, post ++ [x], by simp, fun c hc => ?_, ?_⟩
      · obtain hc | hc := List.mem_append.mp hc
        · exact hno c hc
        · exact hx c (List.mem_singleton.mp hc).symm
      · exact beats_concat.mpr ⟨hbeats, fun c hc => absurd hc (hx c)⟩
    · exact ⟨ops, r, [], rfl, fun _ => List.not_mem_nil, beats_concat.mpr ⟨hbeats, fun c hc => absurd hc (hx c)⟩⟩

/-- What the flag is after some operations. -/
inductive Reflects (ops : List (Op C)) : Option (Flag C) → Prop where
  | absent (never : ∀ c, .add c ∉ ops) : Reflects ops none
  | present (f : Flag C) (added : .add f.lastAdd ∈ ops) (greatest : ∀ c, .add c ∈ ops → c ≤ f.lastAdd)
      (removed : f.removed = true ↔ BeatenLast ops) : Reflects ops (some f)

/-- **Step.** -/
theorem Reflects.step {s : Option (Flag C)} (h : Reflects ops s) (x : Op C) :
    Reflects (ops ++ [x]) (step s x) := by
  cases x with
  | add c =>
    cases h with
    | absent never =>
      refine .present ⟨c, false⟩ (by simp) (fun c' hc' => ?_) ?_
      · obtain hc' | hc' := List.mem_append.mp hc'
        · exact absurd hc' (never c')
        · obtain rfl := (Op.add.inj (List.mem_singleton.mp hc'))
          exact le_rfl
      · exact iff_of_false Bool.false_ne_true not_beatenLast_add
    | present f added greatest removed =>
      refine .present ⟨max f.lastAdd c, false⟩ ?_ (fun c' hc' => ?_) ?_
      · rcases max_choice f.lastAdd c with hm | hm <;> simp only [hm]
        · exact List.mem_append_left _ added
        · simp
      · obtain hc' | hc' := List.mem_append.mp hc'
        · exact (greatest c' hc').trans (le_max_left ..)
        · obtain rfl := (Op.add.inj (List.mem_singleton.mp hc'))
          exact le_max_right ..
      · exact iff_of_false Bool.false_ne_true not_beatenLast_add
  | remove r =>
    have hmem : ∀ c : C, Op.add c ∈ ops ++ [.remove r] ↔ .add c ∈ ops := by simp
    cases h with
    | absent never => exact .absent fun c hc => never c ((hmem c).mp hc)
    | present f added greatest removed =>
      have hbeats : Beats ops r ↔ f.lastAdd < r :=
        ⟨fun h => h _ added, fun h c hc => (greatest c hc).trans_lt h⟩
      have hlast : BeatenLast (ops ++ [.remove r]) ↔ BeatenLast ops ∨ f.lastAdd < r := by
        rw [beatenLast_concat (by simp), ← hbeats]
        simp
      have hadded : Op.add f.lastAdd ∈ ops ++ [.remove r] := (hmem _).mpr added
      have hgreatest : ∀ c, Op.add c ∈ ops ++ [.remove r] → c ≤ f.lastAdd := fun c hc =>
        greatest c ((hmem c).mp hc)
      rw [AddWins.step, Option.map_some]
      split <;> rename_i hlt
      · exact .present _ hadded hgreatest (by simp [hlast, hlt])
      · exact .present _ hadded hgreatest (by simp [hlast, hlt, removed])
  | other =>
    have hmem : ∀ c : C, Op.add c ∈ ops ++ [.other] ↔ .add c ∈ ops := by simp
    cases h with
    | absent never => exact .absent fun c hc => never c ((hmem c).mp hc)
    | present f added greatest removed =>
      refine .present f ((hmem _).mpr added) (fun c hc => greatest c ((hmem c).mp hc)) ?_
      rw [removed, beatenLast_concat (by simp)]
      simp

/-- **Run.** -/
theorem reflects_run (ops : List (Op C)) : Reflects ops (ops.foldl step none) := by
  induction ops using List.reverseRecOn with
  | nil => exact .absent fun _ => List.not_mem_nil
  | append_singleton ops x ih =>
    rw [List.foldl_append]
    exact ih.step x

/-- The flag ends removed. -/
def Removed (s : Option (Flag C)) : Prop := ∃ f ∈ s, f.removed = true

theorem removed_run_iff (hadd : ∃ c, .add c ∈ ops) :
    Removed (ops.foldl step none) ↔ BeatenLast ops := by
  obtain ⟨c, hc⟩ := hadd
  generalize hs : ops.foldl step none = s
  cases hs ▸ reflects_run ops with
  | absent never => exact absurd hc (never c)
  | present f _ _ removed => simp [Removed, removed]

/-- **The flag obeys the clocks** exactly if a removal that beats every add, when there is one,
also comes after them. -/
theorem law_iff (hadd : ∃ c, .add c ∈ ops) :
    (Removed (ops.foldl step none) ↔ Beaten ops) ↔ (Beaten ops → BeatenLast ops) := by
  rw [removed_run_iff hadd]
  exact ⟨fun h => h.mpr, fun h => ⟨BeatenLast.beaten, h⟩⟩

end AddWins
