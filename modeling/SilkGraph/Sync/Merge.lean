import SilkGraph.OpLog.Traversal
import SilkGraph.Sync.Basic

/-!
# What the merge loop does

As long as no new parentless checkpoint is in the batch, a merge does nothing but insert
entries under their parents, whether it succeeds or fails: `Inserts L new L'` says that `L'`
is `L` with the entries `new` inserted one after the other, and everything a merge does to a
log follows from it.

`mergeLoop_cases` says how a merge ends: every entry of the batch is held; or some entry has
an invalid hash; or the entries that are left have parents the log does not hold. The last
case cannot arise when every entry is `Resolvable`: its ancestors are held or in the batch.
The loop's bound on passes never decides anything (`mergeLoop_cases` has no case for it).
-/

namespace SilkGraph

open OpLog

variable [Crates] {L L' L'' : OpLog} {e : Entry} {es new rem : List Entry} {h : Hash}

/-- `L'` is `L` with the entries `new` inserted one after the other, each with a valid new
hash and under parents that are held at that point. -/
inductive Inserts : OpLog → List Entry → OpLog → Prop where
  | nil (L : OpLog) : Inserts L [] L
  | cons {L L' : OpLog} {e : Entry} {new : List Entry} (valid : e.verifyHash)
      (fresh : e.hash ∉ L.entries) (parents : ∀ p ∈ e.next, p ∈ L.entries)
      (rest : Inserts (L.insertEntry e) new L') : Inserts L (e :: new) L'

namespace Inserts

theorem single (valid : e.verifyHash) (fresh : e.hash ∉ L.entries)
    (parents : ∀ p ∈ e.next, p ∈ L.entries) : Inserts L [e] (L.insertEntry e) :=
  .cons valid fresh parents (.nil _)

theorem trans {new' : List Entry} (h₁ : Inserts L new L') (h₂ : Inserts L' new' L'') :
    Inserts L (new ++ new') L'' := by
  induction h₁ with
  | nil => exact h₂
  | cons valid fresh parents _ ih => exact .cons valid fresh parents (ih h₂)

theorem wellFormed (hi : Inserts L new L') (hL : L.WellFormed) : L'.WellFormed := by
  induction hi with
  | nil => exact hL
  | @cons L L' e new valid fresh parents _ ih =>
    exact ih ⟨hL.rep.insertEntry valid fresh parents, entries_insertEntry_ne_empty L e,
      hL.causal.insertEntry hL.rep fresh parents⟩

theorem nonempty (hi : Inserts L new L') (hL : L.entries ≠ ∅) : L'.entries ≠ ∅ := by
  induction hi with
  | nil => exact hL
  | @cons L L' e new _ _ _ _ ih => exact ih (entries_insertEntry_ne_empty L e)

/-- What was held stays held. -/
theorem grows (hi : Inserts L new L') (he : L.entries[h]? = some e) :
    L'.entries[h]? = some e := by
  induction hi with
  | nil => exact he
  | @cons L L' a new _ fresh _ _ ih =>
    refine ih ?_
    have hne : a.hash ≠ h := by
      rintro rfl
      exact fresh (HashMap.mem_iff_getElem?.mpr ⟨e, he⟩)
    rw [getElem?_insertEntry, if_neg hne, he]

theorem mem_mono (hi : Inserts L new L') (hh : h ∈ L.entries) : h ∈ L'.entries := by
  obtain ⟨e, he⟩ := HashMap.mem_iff_getElem?.mp hh
  exact HashMap.mem_iff_getElem?.mpr ⟨e, hi.grows he⟩

/-- What is held now was held before or was inserted. -/
theorem source (hi : Inserts L new L') (he : L'.entries[h]? = some e) :
    L.entries[h]? = some e ∨ e ∈ new ∧ e.hash = h := by
  induction hi with
  | nil => exact .inl he
  | @cons L L' a new _ _ _ _ ih =>
    rcases ih he with he | ⟨he, hh⟩
    · rw [getElem?_insertEntry] at he
      split at he
      · rename_i hah
        obtain rfl := Option.some.inj he
        exact .inr ⟨List.mem_cons_self, hah⟩
      · exact .inl he
    · exact .inr ⟨List.mem_cons_of_mem _ he, hh⟩

/-- Every inserted entry is held under its hash. -/
theorem get_new (hi : Inserts L new L') (he : e ∈ new) : L'.entries[e.hash]? = some e := by
  induction hi with
  | nil => simp at he
  | @cons L L' a new _ _ _ rest ih =>
    rcases List.mem_cons.mp he with rfl | he
    · exact rest.grows (by simp [getElem?_insertEntry])
    · exact ih he

theorem mem_iff (hi : Inserts L new L') :
    h ∈ L'.entries ↔ h ∈ L.entries ∨ h ∈ new.map Entry.hash := by
  constructor
  · intro hh
    obtain ⟨e, he⟩ := HashMap.mem_iff_getElem?.mp hh
    rcases hi.source he with he | ⟨hmem, rfl⟩
    · exact .inl (HashMap.mem_iff_getElem?.mpr ⟨e, he⟩)
    · exact .inr (List.mem_map_of_mem hmem)
  · rintro (hh | hh)
    · exact hi.mem_mono hh
    · obtain ⟨e, he, rfl⟩ := List.mem_map.mp hh
      exact HashMap.mem_iff_getElem?.mpr ⟨e, hi.get_new he⟩

/-- No inserted entry was held before, and none is inserted twice. -/
theorem fresh (hi : Inserts L new L') :
    (∀ e ∈ new, e.hash ∉ L.entries) ∧ (new.map Entry.hash).Nodup := by
  induction hi with
  | nil => simp
  | @cons L L' a new _ fresh _ _ ih =>
    have hmem : ∀ x, x ∈ (L.insertEntry a).entries ↔ a.hash = x ∨ x ∈ L.entries := fun x =>
      HashMap.mem_insert
    refine ⟨fun e he => ?_, ?_⟩
    · rcases List.mem_cons.mp he with rfl | he
      · exact fresh
      · exact fun hc => ih.1 e he ((hmem _).mpr (.inr hc))
    · rw [List.map_cons, List.nodup_cons]
      refine ⟨fun hc => ?_, ih.2⟩
      obtain ⟨e, he, heq⟩ := List.mem_map.mp hc
      exact ih.1 e he ((hmem _).mpr (.inl heq.symm))

theorem valid (hi : Inserts L new L') : ∀ e ∈ new, e.verifyHash := by
  induction hi with
  | nil => simp
  | cons valid _ _ _ ih => simpa [valid] using ih

/-- In the order of insertion, parents come first or were held before. -/
theorem parents_first {pre post : List Entry} (hi : Inserts L new L')
    (hnew : new = pre ++ e :: post) : ∀ p ∈ e.next, p ∈ L.entries ∨ p ∈ pre.map Entry.hash := by
  induction hi generalizing pre with
  | nil => simp at hnew
  | @cons L L' a new _ _ parents _ ih =>
    cases pre with
    | nil =>
      obtain ⟨rfl, -⟩ := List.cons.inj hnew
      exact fun p hp => .inl (parents p hp)
    | cons b pre =>
      obtain ⟨rfl, htl⟩ := List.cons.inj hnew
      intro p hp
      rcases ih htl p hp with hp | hp
      · rcases HashMap.mem_insert.mp hp with rfl | hp
        · exact .inr List.mem_cons_self
        · exact .inl hp
      · exact .inr (List.mem_cons_of_mem _ hp)

end Inserts

/-! ### Any batch

What holds of a merge without any assumption on the batch. -/

omit [Crates] in
theorem except_map_eq_ok {ε α β : Type} {f : α → β} {r : Except ε α} {b : β}
    (h : r.map f = .ok b) : ∃ a, r = .ok a ∧ f a = b := by
  cases r with
  | error => cases h
  | ok a => exact ⟨a, rfl, Except.ok.inj h⟩

omit [Crates] in
theorem except_toOption_eq_some {ε α : Type} {r : Except ε α} {a : α} :
    r.toOption = some a ↔ r = .ok a := by
  cases r <;> simp [Except.toOption]

omit [Crates] in
theorem exists_ok_of_isOk {ε α : Type} {r : Except ε α} (h : r.isOk = true) : ∃ x, r = .ok x := by
  cases r with
  | error e => cases h
  | ok x => exact ⟨x, rfl⟩

/-- One pass hands back and reports entries of the batch only, the reported ones
hash-valid. -/
theorem mergePass_batch (L : OpLog) (rem : List Entry) : ∀ new retry,
    (mergePass L rem).1 = .ok (new, retry) →
      (∀ e ∈ new, e ∈ rem ∧ e.verifyHash) ∧ retry ⊆ rem := by
  induction rem generalizing L with
  | nil =>
    intro new retry h
    cases h
    simp
  | cons a rem ih =>
    have hval : ∀ b, (L.append a).1 = .ok b → a.verifyHash := fun b => verifyHash_of_append
    have hsub : rem ⊆ a :: rem := List.subset_cons_self a rem
    have ih₂ := ih (L.append a).2
    rw [mergePass]
    generalize L.append a = r at ih₂ hval
    obtain ⟨r, L₁⟩ := r
    intro new retry h
    rcases r with (_ | p) | (_ | _)
    · cases h
    · obtain ⟨⟨new', retry'⟩, hrun, heq⟩ := except_map_eq_ok h
      obtain ⟨rfl, rfl⟩ := Prod.mk.inj heq
      obtain ⟨h1, h2⟩ := ih₂ new' retry' hrun
      exact ⟨fun e he => ⟨hsub (h1 e he).1, (h1 e he).2⟩, List.cons_subset_cons a h2⟩
    · obtain ⟨h1, h2⟩ := ih₂ new retry h
      exact ⟨fun e he => ⟨hsub (h1 e he).1, (h1 e he).2⟩, List.Subset.trans h2 hsub⟩
    · obtain ⟨⟨new', retry'⟩, hrun, heq⟩ := except_map_eq_ok h
      obtain ⟨rfl, rfl⟩ := Prod.mk.inj heq
      obtain ⟨h1, h2⟩ := ih₂ new' retry' hrun
      refine ⟨fun e he => ?_, List.Subset.trans h2 hsub⟩
      rcases List.mem_cons.mp he with rfl | he
      · exact ⟨List.mem_cons_self, hval true rfl⟩
      · exact ⟨hsub (h1 e he).1, (h1 e he).2⟩

/-- One pass keeps the log well formed. -/
theorem mergePass_wellFormed (hL : L.WellFormed) (rem : List Entry) :
    (mergePass L rem).2.WellFormed := by
  induction rem generalizing L with
  | nil => exact hL
  | cons a rem ih =>
    have hwf := hL.append a
    have ih₂ := ih hwf
    rw [mergePass]
    generalize L.append a = r at ih₂ hwf
    obtain ⟨r, L₁⟩ := r
    rcases r with (_ | p) | (_ | _)
    · exact hwf
    all_goals exact ih₂

/-- The loop keeps the log well formed, and reports hash-valid entries of the batch only. -/
theorem mergeLoop_any (fuel : ℕ) (hL : L.WellFormed) (rem inserted : List Entry) :
    (mergeLoop fuel L rem inserted).2.WellFormed ∧
      ∀ new, (mergeLoop fuel L rem inserted).1 = .ok new →
        ∀ e ∈ new, e ∈ inserted ∨ e ∈ rem ∧ e.verifyHash := by
  induction fuel generalizing L rem inserted with
  | zero => exact ⟨hL, fun new h => by cases h; exact fun e => .inl⟩
  | succ fuel ih =>
    cases rem with
    | nil => exact ⟨hL, fun new h => by cases h; exact fun e => .inl⟩
    | cons a rem =>
      have h1 := mergePass_wellFormed hL (a :: rem)
      have h2 := mergePass_batch L (a :: rem)
      rw [mergeLoop]
      · generalize mergePass L (a :: rem) = r at h1 h2
        obtain ⟨r, L₁⟩ := r
        rcases r with err | ⟨new₁, retry⟩
        · exact ⟨h1, fun new h => by cases h⟩
        · obtain ⟨hnew, hretry⟩ := h2 new₁ retry rfl
          simp only
          split
          · exact ⟨h1, fun new h => by cases h⟩
          · obtain ⟨ih1, ih2⟩ := ih h1 retry (inserted ++ new₁)
            refine ⟨ih1, fun new h e he => ?_⟩
            rcases ih2 new h e he with he | ⟨he, hv⟩
            · exact (List.mem_append.mp he).imp_right (hnew e)
            · exact .inr ⟨hretry he, hv⟩
      · simp

/-- A merge keeps the log well formed, and reports hash-valid entries of the batch only. -/
theorem mergeBatch_any (hL : L.WellFormed) (es : List Entry) :
    (mergeBatch L es).2.WellFormed ∧ ∀ new, (mergeBatch L es).1 = .ok new →
      ∀ e ∈ new, e ∈ es ∧ e.verifyHash := by
  obtain ⟨h1, h2⟩ := mergeLoop_any (es.length + 1) hL es []
  exact ⟨h1, fun new h e he => (h2 new h e he).resolve_left List.not_mem_nil⟩

/-- One pass brings in entries of the batch only. -/
theorem mergePass_all {P : Hash → Entry → Prop} (hL : L.All P) (rem : List Entry)
    (hrem : ∀ e ∈ rem, P e.hash e) : (mergePass L rem).2.All P := by
  induction rem generalizing L with
  | nil => exact hL
  | cons a rem ih =>
    have ha := hL.append (hrem a List.mem_cons_self)
    have ih₂ := ih ha fun e he => hrem e (List.mem_cons_of_mem _ he)
    rw [mergePass]
    generalize L.append a = r at ih₂ ha
    obtain ⟨r, L₁⟩ := r
    rcases r with (_ | p) | (_ | _)
    · exact ha
    all_goals exact ih₂

theorem mergeLoop_all {P : Hash → Entry → Prop} (fuel : ℕ) (hL : L.All P)
    (rem inserted : List Entry) (hrem : ∀ e ∈ rem, P e.hash e) :
    (mergeLoop fuel L rem inserted).2.All P := by
  induction fuel generalizing L rem inserted with
  | zero => exact hL
  | succ fuel ih =>
    cases rem with
    | nil => exact hL
    | cons a rem =>
      have hpass := mergePass_all hL (a :: rem) hrem
      have hretry := mergePass_batch L (a :: rem)
      rw [mergeLoop]
      · generalize mergePass L (a :: rem) = r at hpass hretry
        obtain ⟨r, L₁⟩ := r
        rcases r with err | ⟨new, retry⟩
        · exact hpass
        · dsimp only
          split
          · exact hpass
          · exact ih hpass retry _ fun e he => hrem e ((hretry new retry rfl).2 he)
      · simp

/-- A merge brings in entries of the batch only. -/
theorem mergeBatch_all {P : Hash → Entry → Prop} (hL : L.All P) (es : List Entry)
    (hes : ∀ e ∈ es, P e.hash e) : (mergeBatch L es).2.All P :=
  mergeLoop_all _ hL es [] hes

/-- One pass brings in what it reports and nothing else. -/
theorem mergePass_reported {P : Hash → Entry → Prop} (hL : L.All P) (rem : List Entry) :
    ∀ new retry, (mergePass L rem).1 = .ok (new, retry) → (∀ e ∈ new, P e.hash e) →
      (mergePass L rem).2.All P := by
  induction rem generalizing L with
  | nil => exact fun _ _ _ _ => hL
  | cons a rem ih =>
    have hins : P a.hash a → (L.append a).2.All P := hL.append
    have hsame := append_unchanged L a
    rw [mergePass]
    generalize L.append a = r at hins hsame
    obtain ⟨r, L₁⟩ := r
    intro new retry h hnew
    rcases r with (_ | p) | (_ | _)
    · cases h
    · obtain rfl : L₁ = L := hsame fun h => by cases h
      obtain ⟨⟨new', retry'⟩, hrun, heq⟩ := except_map_eq_ok h
      obtain ⟨rfl, rfl⟩ := Prod.mk.inj heq
      exact ih hL new' retry' hrun hnew
    · obtain rfl : L₁ = L := hsame fun h => by cases h
      exact ih hL new retry h hnew
    · obtain ⟨⟨new', retry'⟩, hrun, heq⟩ := except_map_eq_ok h
      obtain ⟨rfl, rfl⟩ := Prod.mk.inj heq
      exact ih (hins (hnew a List.mem_cons_self)) new' retry' hrun
        fun e he => hnew e (List.mem_cons_of_mem _ he)

/-- What was inserted before stays reported. -/
theorem mergeLoop_subset (fuel : ℕ) (L : OpLog) (rem inserted : List Entry) :
    ∀ new, (mergeLoop fuel L rem inserted).1 = .ok new → inserted ⊆ new := by
  induction fuel generalizing L rem inserted with
  | zero => exact fun new h => Except.ok.inj h ▸ List.Subset.refl _
  | succ fuel ih =>
    cases rem with
    | nil => exact fun new h => Except.ok.inj h ▸ List.Subset.refl _
    | cons a rem =>
      rw [mergeLoop]
      · generalize mergePass L (a :: rem) = r
        obtain ⟨r, L₁⟩ := r
        rcases r with err | ⟨new₁, retry⟩
        · intro new h
          cases h
        · simp only
          split
          · intro new h
            cases h
          · intro new h e he
            exact ih L₁ retry (inserted ++ new₁) new h (List.mem_append_left _ he)
      · simp

/-- All passes together bring in what they report and nothing else. -/
theorem mergeLoop_reported {P : Hash → Entry → Prop} (fuel : ℕ) (hL : L.All P)
    (rem inserted : List Entry) : ∀ new, (mergeLoop fuel L rem inserted).1 = .ok new →
      (∀ e ∈ new, P e.hash e) → (mergeLoop fuel L rem inserted).2.All P := by
  induction fuel generalizing L rem inserted with
  | zero => exact fun _ _ _ => hL
  | succ fuel ih =>
    cases rem with
    | nil => exact fun _ _ _ => hL
    | cons a rem =>
      have hpass := mergePass_reported hL (a :: rem)
      rw [mergeLoop]
      · generalize mergePass L (a :: rem) = r at hpass
        obtain ⟨r, L₁⟩ := r
        rcases r with err | ⟨new₁, retry⟩
        · intro new h
          cases h
        · simp only
          split
          · intro new h
            cases h
          · intro new h hnew
            have hsub := mergeLoop_subset fuel L₁ retry (inserted ++ new₁) new h
            have hL₁ := hpass new₁ retry rfl fun e he => hnew e (hsub (List.mem_append_right _ he))
            exact ih hL₁ retry (inserted ++ new₁) new h hnew
      · simp

/-- A merge that goes through brings in what it reports and nothing else. -/
theorem mergeBatch_reported {P : Hash → Entry → Prop} (hL : L.All P) {es new : List Entry}
    (hok : (mergeBatch L es).1 = .ok new) (hnew : ∀ e ∈ new, P e.hash e) :
    (mergeBatch L es).2.All P :=
  mergeLoop_reported _ hL es [] new hok hnew

/-! ### One pass, all passes -/

/-- Every hash-valid parentless checkpoint of the batch is already held, so none replaces
the log. -/
def NoReplace (L : OpLog) (es : List Entry) : Prop :=
  ∀ e ∈ es, e.verifyHash → e.isRootCheckpoint → e.hash ∈ L.entries

theorem NoReplace.mono (hn : NoReplace L es) (hi : Inserts L new L') (hsub : rem ⊆ es) :
    NoReplace L' rem :=
  fun e he hv hc => hi.mem_mono (hn e (hsub he) hv hc)

/-- What one pass does: it inserts some entries, and either it has looked at all of them,
those it hands back missing a parent, or it met an invalid hash. -/
theorem mergePass_cases (hne : L.entries ≠ ∅) (rem : List Entry) (hn : NoReplace L rem) :
    ∃ new L', Inserts L new L' ∧ new ⊆ rem ∧
      ((∃ retry, mergePass L rem = (.ok (new, retry), L') ∧ (∀ e ∈ rem, e.verifyHash) ∧
          retry ⊆ rem ∧ new.length + retry.length ≤ rem.length ∧
          (∀ e ∈ rem, e ∈ retry ∨ e.hash ∈ L'.entries) ∧
          ∀ e ∈ retry, e.hash ∉ L.entries ∧ ∃ p ∈ e.next, p ∉ L.entries) ∨
        ∃ e ∈ rem, ¬ e.verifyHash ∧ mergePass L rem = (.error (.invalidHash e), L')) := by
  induction rem generalizing L with
  | nil => exact ⟨[], L, .nil L, by simp, .inl ⟨[], by simp [mergePass]⟩⟩
  | cons a rem ih =>
    have hsub : rem ⊆ a :: rem := List.subset_cons_self a rem
    rcases append_cases hne a with ⟨hv, happ⟩ | ⟨hv, hd, happ⟩ | ⟨hv, hd, hc, -⟩ |
      ⟨hv, hd, -, p, hp, hpL, happ⟩ | ⟨hv, hd, -, hp, happ⟩
    · exact ⟨[], L, .nil L, by simp, .inr ⟨a, List.mem_cons_self, hv, by simp [mergePass, happ]⟩⟩
    · -- already held
      obtain ⟨new, L', hi, hnew, hout⟩ := ih hne (hn.mono (.nil L) hsub)
      have hpass : mergePass L (a :: rem) = mergePass L rem := by simp [mergePass, happ]
      refine ⟨new, L', hi, List.Subset.trans hnew hsub, ?_⟩
      rw [hpass]
      rcases hout with ⟨retry, hrun, hval, hre, hlen, hall, hmiss⟩ | ⟨b, hb, hbv, hrun⟩
      · refine .inl ⟨retry, hrun, ?_, List.Subset.trans hre hsub, ?_, ?_, hmiss⟩
        · simpa [hv] using hval
        · rw [List.length_cons]
          omega
        · rintro b (_ | ⟨_, hb⟩)
          · exact .inr (hi.mem_mono hd)
          · exact hall b hb
      · exact .inr ⟨b, List.mem_cons_of_mem _ hb, hbv, hrun⟩
    · exact absurd (hn a List.mem_cons_self hv hc) hd
    · -- a parent is missing
      obtain ⟨new, L', hi, hnew, hout⟩ := ih hne (hn.mono (.nil L) hsub)
      refine ⟨new, L', hi, List.Subset.trans hnew hsub, ?_⟩
      rcases hout with ⟨retry, hrun, hval, hre, hlen, hall, hmiss⟩ | ⟨b, hb, hbv, hrun⟩
      · refine .inl ⟨a :: retry, by simp [mergePass, happ, hrun, Except.map], ?_, ?_, ?_, ?_, ?_⟩
        · simpa [hv] using hval
        · exact List.cons_subset_cons a hre
        · rw [List.length_cons, List.length_cons]
          omega
        · rintro b (_ | ⟨_, hb⟩)
          · exact .inl List.mem_cons_self
          · exact (hall b hb).imp_left (List.mem_cons_of_mem _)
        · rintro b (_ | ⟨_, hb⟩)
          · exact ⟨hd, p, hp, hpL⟩
          · exact hmiss b hb
      · exact .inr ⟨b, List.mem_cons_of_mem _ hb, hbv, by simp [mergePass, happ, hrun, Except.map]⟩
    · -- inserted
      have hi₁ : Inserts L [a] (L.insertEntry a) := .single hv hd hp
      obtain ⟨new, L', hi, hnew, hout⟩ := ih (entries_insertEntry_ne_empty L a) (hn.mono hi₁ hsub)
      refine ⟨a :: new, L', .cons hv hd hp hi, List.cons_subset_cons a hnew, ?_⟩
      rcases hout with ⟨retry, hrun, hval, hre, hlen, hall, hmiss⟩ | ⟨b, hb, hbv, hrun⟩
      · refine .inl ⟨retry, by simp [mergePass, happ, hrun, Except.map], ?_, List.Subset.trans hre hsub, ?_,
          ?_, ?_⟩
        · simpa [hv] using hval
        · rw [List.length_cons, List.length_cons]
          omega
        · rintro b (_ | ⟨_, hb⟩)
          · exact .inr (hi.mem_mono (hi₁.mem_iff.mpr (.inr (by simp))))
          · exact hall b hb
        · intro b hb
          obtain ⟨hb, p, hp, hpL⟩ := hmiss b hb
          exact ⟨fun hc => hb (hi₁.mem_mono hc), p, hp, fun hc => hpL (hi₁.mem_mono hc)⟩
      · exact .inr ⟨b, List.mem_cons_of_mem _ hb, hbv, by simp [mergePass, happ, hrun, Except.map]⟩

/-- **How a merge ends.** With more passes allowed than entries remain: all are held; one
has an invalid hash; or some are stuck below a parent the log does not hold. In each case
the log only had entries of the batch inserted. -/
theorem mergeLoop_cases (fuel : ℕ) (hne : L.entries ≠ ∅) (rem inserted : List Entry)
    (hfuel : rem.length < fuel) (hn : NoReplace L rem) :
    ∃ new L', Inserts L new L' ∧ new ⊆ rem ∧
      ((mergeLoop fuel L rem inserted = (.ok (inserted ++ new), L') ∧
          (∀ e ∈ rem, e.verifyHash) ∧ ∀ e ∈ rem, e.hash ∈ L'.entries) ∨
        (∃ e ∈ rem, ¬ e.verifyHash ∧
          mergeLoop fuel L rem inserted = (.error (.invalidHash e), L')) ∨
        ∃ stuck, stuck ≠ [] ∧ stuck ⊆ rem ∧ (∀ e ∈ rem, e.verifyHash) ∧
          (∀ e ∈ rem, e ∈ stuck ∨ e.hash ∈ L'.entries) ∧
          (∀ e ∈ stuck, e.hash ∉ L'.entries ∧ ∃ p ∈ e.next, p ∉ L'.entries) ∧
          mergeLoop fuel L rem inserted = (.error (.unresolvable stuck.length), L')) := by
  induction fuel generalizing L rem inserted with
  | zero => exact absurd hfuel (Nat.not_lt_zero _)
  | succ fuel ih =>
    cases rem with
    | nil => exact ⟨[], L, .nil L, by simp, .inl (by simp [mergeLoop])⟩
    | cons a rem =>
      obtain ⟨new, L', hi, hnew, hout⟩ := mergePass_cases hne (a :: rem) hn
      rcases hout with ⟨retry, hrun, hval, hre, hlen, hall, hmiss⟩ | ⟨b, hb, hbv, hrun⟩
      · by_cases hstuck : retry.length = (a :: rem).length
        · -- no progress: nothing was inserted, so what is missing is still missing
          obtain rfl : new = [] := List.eq_nil_of_length_eq_zero (by omega)
          cases hi
          refine ⟨[], L, .nil L, by simp, .inr (.inr ⟨retry, ?_, hre, hval, hall, hmiss, ?_⟩)⟩
          · rintro rfl
            simp at hstuck
          · rw [mergeLoop, hrun]
            · simp [hstuck]
            · simp
        · have hfuel' : retry.length < fuel := by
            have : new.length + retry.length ≤ rem.length + 1 := hlen
            rw [List.length_cons] at hstuck hfuel
            omega
          have hstep : mergeLoop (fuel + 1) L (a :: rem) inserted =
              mergeLoop fuel L' retry (inserted ++ new) := by
            rw [mergeLoop, hrun]
            · simp only [if_neg hstuck]
            · simp
          obtain ⟨new', L'', hi', hnew', hout'⟩ := ih (hi.nonempty hne) retry (inserted ++ new)
            hfuel' (hn.mono hi hre)
          have hheld : ∀ e ∈ a :: rem, e ∈ retry ∨ e.hash ∈ L''.entries := fun e he =>
            (hall e he).imp_right hi'.mem_mono
          refine ⟨new ++ new', L'', hi.trans hi', ?_, ?_⟩
          · exact List.append_subset.mpr ⟨hnew, List.Subset.trans hnew' hre⟩
          · rw [hstep, ← List.append_assoc]
            rcases hout' with ⟨hrun', -, hheld'⟩ | ⟨b, hb, hbv, -⟩ |
              ⟨stuck, hs1, hs2, -, hs4, hs5, hrun'⟩
            · exact .inl ⟨hrun', hval, fun e he => (hheld e he).elim (hheld' e) id⟩
            · exact absurd (hval b (hre hb)) hbv
            · refine .inr (.inr ⟨stuck, hs1, List.Subset.trans hs2 hre, hval, fun e he => ?_, hs5, hrun'⟩)
              exact (hheld e he).elim (hs4 e) .inr
      · refine ⟨new, L', hi, hnew, .inr (.inl ⟨b, hb, hbv, ?_⟩)⟩
        rw [mergeLoop, hrun]
        simp

/-! ### Batches that go through -/

/-- A hash that is held, or carried by a hash-valid entry of the batch whose parents are all
resolvable: what a merge can bring in, given enough passes. -/
inductive Resolvable (L : OpLog) (es : List Entry) : Hash → Prop where
  | held {h : Hash} (held : h ∈ L.entries) : Resolvable L es h
  | entry {e : Entry} (mem : e ∈ es) (valid : e.verifyHash)
      (parents : ∀ p ∈ e.next, Resolvable L es p) : Resolvable L es e.hash

theorem Resolvable.mono (hh : Resolvable L es h) (hsub : es ⊆ rem) : Resolvable L rem h := by
  induction hh with
  | held hh => exact .held hh
  | entry mem valid _ ih => exact .entry (hsub mem) valid ih

/-- Entries inserted from the batch were resolvable. -/
theorem Inserts.resolvable (hi : Inserts L new L') (hsub : new ⊆ es) (hh : h ∈ L'.entries) :
    Resolvable L es h := by
  induction hi with
  | nil => exact .held hh
  | @cons L L' a new valid fresh parents _ ih =>
    have hres := ih (fun e he => hsub (List.mem_cons_of_mem _ he)) hh
    -- what is resolvable over the grown log is resolvable over the old one
    clear hh ih
    induction hres with
    | held hh =>
      rcases HashMap.mem_insert.mp hh with rfl | hh
      · exact .entry (hsub List.mem_cons_self) valid fun p hp => .held (parents p hp)
      · exact .held hh
    | entry mem valid _ ih => exact .entry mem valid ih

/-- **A batch goes through** exactly when all its hashes are valid and all its entries are
resolvable; then everything in it is held afterwards. -/
theorem mergeBatch_ok_iff (hne : L.entries ≠ ∅) (hn : NoReplace L es) :
    (∃ new, (mergeBatch L es).1 = .ok new) ↔
      ∀ e ∈ es, e.verifyHash ∧ Resolvable L es e.hash := by
  obtain ⟨new, L', hi, hsub, hout⟩ := mergeLoop_cases (es.length + 1) hne es [] (by omega) hn
  have hres : ∀ h ∈ L'.entries, Resolvable L es h := fun h => hi.resolvable hsub
  constructor
  · rintro ⟨new', hok⟩
    rcases hout with ⟨-, hval, hheld⟩ | ⟨b, -, -, hrun⟩ | ⟨stuck, -, -, -, -, -, hrun⟩
    · exact fun e he => ⟨hval e he, hres _ (hheld e he)⟩
    · rw [mergeBatch, hrun] at hok
      cases hok
    · rw [mergeBatch, hrun] at hok
      cases hok
  · intro hall
    rcases hout with ⟨hrun, -, -⟩ | ⟨b, hb, hbv, -⟩ | ⟨stuck, hs1, hs2, -, hs4, hs5, -⟩
    · exact ⟨[] ++ new, by rw [mergeBatch, hrun]⟩
    · exact absurd (hall b hb).1 hbv
    · -- every resolvable hash is in: an entry with all its parents in is not stuck
      have hin : ∀ h, Resolvable L es h → h ∈ L'.entries := by
        intro h hh
        induction hh with
        | held hh => exact hi.mem_mono hh
        | entry mem _ _ ih =>
          rcases hs4 _ mem with hst | hst
          · obtain ⟨-, p, hp, hpL⟩ := hs5 _ hst
            exact absurd (ih p hp) hpL
          · exact hst
      obtain ⟨b, hb⟩ := List.exists_mem_of_ne_nil stuck hs1
      exact absurd (hin _ (hall b (hs2 hb)).2) (hs5 b hb).1

/-- The log after a batch that went through. -/
theorem mergeBatch_ok (hne : L.entries ≠ ∅) (hn : NoReplace L es) (hok : (mergeBatch L es).1 = .ok new) :
    Inserts L new (mergeBatch L es).2 ∧ new ⊆ es ∧
      ∀ e ∈ es, e.verifyHash ∧ e.hash ∈ (mergeBatch L es).2.entries := by
  obtain ⟨new', L', hi, hsub, hout⟩ := mergeLoop_cases (es.length + 1) hne es [] (by omega) hn
  rcases hout with ⟨hrun, hval, hheld⟩ | ⟨b, -, -, hrun⟩ | ⟨stuck, -, -, -, -, -, hrun⟩ <;>
    rw [mergeBatch, hrun] at hok <;> cases hok
  rw [mergeBatch, hrun]
  exact ⟨hi, hsub, fun e he => ⟨hval e he, hheld e he⟩⟩

/-- Whatever the result, the log only had entries of the batch inserted. -/
theorem mergeBatch_inserts (hne : L.entries ≠ ∅) (hn : NoReplace L es) :
    ∃ new, new ⊆ es ∧ Inserts L new (mergeBatch L es).2 := by
  obtain ⟨new, L', hi, hsub, hout⟩ := mergeLoop_cases (es.length + 1) hne es [] (by omega) hn
  refine ⟨new, hsub, ?_⟩
  rcases hout with ⟨hrun, -⟩ | ⟨b, -, -, hrun⟩ | ⟨stuck, -, -, -, -, -, hrun⟩ <;>
    rw [mergeBatch, hrun] <;> exact hi

/-- The result of `merge_entries` counts what the loop inserted. -/
theorem mergeEntries_of_ok (hok : (mergeBatch L es).1 = .ok new) :
    mergeEntries L es = (.ok new.length, (mergeBatch L es).2) := by
  have hpair : mergeBatch L es = (.ok new, (mergeBatch L es).2) := Prod.ext hok rfl
  rw [mergeEntries, hpair]

end SilkGraph
