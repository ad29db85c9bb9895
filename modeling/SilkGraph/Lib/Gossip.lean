import Mathlib.Data.List.Forall2
import Mathlib.Data.Set.Lattice
import Mathlib.Logic.Function.Basic

/-!
# Gossip

Peers hold sets that only grow. A peer adds items of its own, sends another what it holds, and
takes in what was sent to it: later, in any order, more than once, or never. A message holds what
its sender held when it was sent.

Who comes to hold what is a matter of the schedule alone. A rumour that one peer knows spreads
by the same sends and receipts (`Rumour`). Who hears the rumour of a peer holds in the end what
the peer held in the beginning (`Rumour.holds_of_heard`), and an item that the peer alone held is
held by nobody else (`Rumour.mem_holds_iff_heard`). If every rumour reaches everyone and nothing is
added meanwhile, all peers end with the union (`Rumour.holds_run_of_heard`).
-/

namespace Gossip

variable {P α : Type*}

/-- What happens to a network. Messages are numbered in the order in which they are sent. -/
inductive Action (P α : Type*) where
  | write (peer : P) (items : Set α)
  | send (sender recipient : P)
  | receive (message : ℕ)

/-- What every peer holds, and every message so far: its recipient and what it brings. -/
structure Net (P α : Type*) where
  holds : P → Set α
  sent : List (P × Set α)

namespace Net

variable [DecidableEq P]

/-- A peer takes items in. -/
def give (self : Net P α) (peer : P) (items : Set α) : Net P α :=
  { self with holds := Function.update self.holds peer (self.holds peer ∪ items) }

/-- One action. A receipt of a message that was not sent is none. -/
def step (self : Net P α) : Action P α → Net P α
  | .write p items => self.give p items
  | .send p q => { self with sent := self.sent ++ [(q, self.holds p)] }
  | .receive i =>
    match self.sent[i]? with
    | some (q, items) => self.give q items
    | none => self

/-- The actions one after another. -/
def run (self : Net P α) (actions : List (Action P α)) : Net P α := actions.foldl step self

variable {N : Net P α} {a : Action P α} {actions : List (Action P α)} {p q : P} {items X : Set α}
  {x : α}

theorem mem_holds_give : x ∈ (N.give p items).holds q ↔ x ∈ N.holds q ∨ q = p ∧ x ∈ items := by
  rw [give]
  by_cases h : q = p
  · subst h
    simp
  · simp [h]

theorem holds_give : N.holds q ⊆ (N.give p items).holds q := fun _ hx => mem_holds_give.mpr (.inl hx)

/-- What an action gives to whom. -/
theorem mem_holds_step : x ∈ (N.step a).holds q ↔ x ∈ N.holds q ∨
    (∃ items, a = .write q items ∧ x ∈ items) ∨
      ∃ i items, a = .receive i ∧ N.sent[i]? = some (q, items) ∧ x ∈ items := by
  cases a with
  | write p items =>
    rw [step, mem_holds_give]
    simp [and_comm, eq_comm]
  | send p r => simp [step]
  | receive i =>
    rw [step]
    cases hi : N.sent[i]? with
    | none => simp [hi]
    | some m =>
      obtain ⟨p, items⟩ := m
      simp only [mem_holds_give, reduceCtorEq, false_and, exists_false, false_or, Action.receive.injEq]
      refine or_congr_right ⟨?_, ?_⟩
      · rintro ⟨rfl, hx⟩
        exact ⟨i, items, rfl, hi, hx⟩
      · rintro ⟨j, items', rfl, hj, hx⟩
        obtain ⟨rfl, rfl⟩ := Prod.mk.inj (Option.some.inj (hi.symm.trans hj))
        exact ⟨rfl, hx⟩

/-- **Step.** Nothing is lost. -/
theorem holds_step : N.holds q ⊆ (N.step a).holds q := fun _ hx => mem_holds_step.mpr (.inl hx)

/-- **Run.** Nothing is lost. -/
theorem holds_run : N.holds q ⊆ (N.run actions).holds q := by
  induction actions generalizing N with
  | nil => exact subset_rfl
  | cons a actions ih => exact holds_step.trans ih

/-- Every message brings what some peer holds. -/
def Backed (self : Net P α) : Prop := ∀ m ∈ self.sent, ∃ p, m.2 ⊆ self.holds p

theorem sent_step : (N.step a).sent = N.sent ∨ ∃ p q, (N.step a).sent = N.sent ++ [(q, N.holds p)] := by
  cases a with
  | write p items => exact .inl rfl
  | send p q => exact .inr ⟨p, q, rfl⟩
  | receive i =>
    rw [step]
    split <;> exact .inl rfl

theorem Backed.step (h : N.Backed) : (N.step a).Backed := by
  have hold : ∀ m ∈ N.sent, ∃ p, m.2 ⊆ (N.step a).holds p := fun m hm => by
    obtain ⟨p, hp⟩ := h m hm
    exact ⟨p, hp.trans holds_step⟩
  intro m hm
  obtain heq | ⟨p, q, heq⟩ := N.sent_step (a := a) <;> rw [heq] at hm
  · exact hold m hm
  · obtain hm | hm := List.mem_append.mp hm
    · exact hold m hm
    · rw [List.mem_singleton.mp hm]
      exact ⟨p, holds_step⟩

/-- Nobody writes. -/
def Silent (actions : List (Action P α)) : Prop := ∀ a ∈ actions, ∀ p items, a ≠ .write p items

/-- **Step.** Where nobody writes, what is held was held. -/
theorem exists_holds_of_step (hb : N.Backed) (ha : ∀ p items, a ≠ .write p items)
    (hx : x ∈ (N.step a).holds q) : ∃ p, x ∈ N.holds p := by
  obtain hx | ⟨items, heq, -⟩ | ⟨i, items, -, hi, hx⟩ := mem_holds_step.mp hx
  · exact ⟨q, hx⟩
  · exact absurd heq (ha q items)
  · obtain ⟨p, hp⟩ := hb _ (List.mem_of_getElem? hi)
    exact ⟨p, hp hx⟩

/-- **Run.** Where nobody writes, what is held was held. -/
theorem exists_holds_of_run (hb : N.Backed) (hs : Silent actions) (hx : x ∈ (N.run actions).holds q) :
    ∃ p, x ∈ N.holds p := by
  induction actions generalizing N with
  | nil => exact ⟨q, hx⟩
  | cons a actions ih =>
    obtain ⟨p, hp⟩ := ih hb.step (fun b hb => hs b (List.mem_cons_of_mem a hb)) hx
    exact exists_holds_of_step hb (hs a List.mem_cons_self) hp

end Net

/-! ### Rumours -/

/-- Who has heard a rumour, and which messages carry it. -/
structure Rumour (P : Type*) where
  heard : P → Bool
  sent : List (P × Bool)

namespace Rumour

variable [DecidableEq P]

/-- One peer knows the rumour, and no message so far carries it. -/
def start (p : P) (recipients : List P) : Rumour P := ⟨fun q => q == p, recipients.map (·, false)⟩

/-- A rumour spreads by the messages. -/
def step (self : Rumour P) : Action P α → Rumour P
  | .write _ _ => self
  | .send p q => { self with sent := self.sent ++ [(q, self.heard p)] }
  | .receive i =>
    match self.sent[i]? with
    | some (q, carried) =>
      { self with heard := Function.update self.heard q (self.heard q || carried) }
    | none => self

/-- The actions one after another. -/
def run (self : Rumour P) (actions : List (Action P α)) : Rumour P := actions.foldl step self

variable {r : Rumour P} {N : Net P α} {a : Action P α} {actions : List (Action P α)} {p q : P}
  {X : Set α} {x : α}

/-- Who has heard the rumour, and which message carries it, says something about what they
hold. -/
structure Marks (rel : Bool → Set α → Prop) (r : Rumour P) (N : Net P α) : Prop where
  holds : ∀ q, rel (r.heard q) (N.holds q)
  sent : List.Forall₂ (fun m n => m.1 = n.1 ∧ rel m.2 n.2) r.sent N.sent

/-- The relation survives what the actions do to both sides. -/
structure Joins (rel : Bool → Set α → Prop) (writes : Set α → Prop) : Prop where
  write : ∀ b S items, writes items → rel b S → rel b (S ∪ items)
  union : ∀ b c S T, rel b S → rel c T → rel (b || c) (S ∪ T)

theorem rel_getElem? {β γ : Type*} {R : β → γ → Prop} {l : List β} {m : List γ}
    (h : List.Forall₂ R l m) (i : ℕ) : Option.Rel R l[i]? m[i]? := by
  induction h generalizing i with
  | nil => exact .none
  | cons hab _ ih =>
    cases i with
    | zero => exact .some hab
    | succ i => exact ih i

variable {rel : Bool → Set α → Prop} {writes : Set α → Prop}

/-- **Step.** -/
theorem Marks.step (h : Marks rel r N) (hj : Joins rel writes)
    (ha : ∀ p items, a = .write p items → writes items) : Marks rel (r.step a) (N.step a) := by
  cases a with
  | write p items =>
    refine ⟨fun q => ?_, h.sent⟩
    simp only [Rumour.step, Net.step, Net.give]
    by_cases hq : q = p
    · subst hq
      rw [Function.update_self]
      exact hj.write _ _ items (ha q items rfl) (h.holds q)
    · rw [Function.update_of_ne hq]
      exact h.holds q
  | send p q => exact ⟨h.holds, List.rel_append h.sent (.cons ⟨rfl, h.holds p⟩ .nil)⟩
  | receive i =>
    have hi := rel_getElem? h.sent i
    rw [Rumour.step, Net.step]
    generalize r.sent[i]? = m at hi
    generalize N.sent[i]? = n at hi
    cases hi with
    | none => exact h
    | @some m n hmn =>
      obtain ⟨p, b⟩ := m
      obtain ⟨p', items⟩ := n
      obtain ⟨rfl, hrel⟩ : p = p' ∧ rel b items := hmn
      refine ⟨fun q => ?_, h.sent⟩
      simp only [Net.give]
      by_cases hq : q = p
      · subst hq
        rw [Function.update_self, Function.update_self]
        exact hj.union _ _ _ _ (h.holds q) hrel
      · rw [Function.update_of_ne hq, Function.update_of_ne hq]
        exact h.holds q

/-- **Run.** -/
theorem Marks.run (h : Marks rel r N) (hj : Joins rel writes)
    (ha : ∀ p items, .write p items ∈ actions → writes items) :
    Marks rel (r.run actions) (N.run actions) := by
  induction actions generalizing r N with
  | nil => exact h
  | cons a actions ih =>
    exact ih (h.step hj fun p items heq => ha p items (heq ▸ List.mem_cons_self))
      fun p items hw => ha p items (List.mem_cons_of_mem a hw)

/-- Who has heard the rumour holds all of a set. -/
def Carries (X : Set α) (b : Bool) (S : Set α) : Prop := b = true → X ⊆ S

/-- Who has not heard the rumour does not hold an item. -/
def Confines (x : α) (b : Bool) (S : Set α) : Prop := x ∈ S → b = true

theorem joins_carries (X : Set α) : Joins (Carries X) fun _ => True where
  write _ _ _ _ h hb := (h hb).trans Set.subset_union_left
  union b c S T h h' hbc := by
    obtain hb | hc := Bool.or_eq_true_iff.mp hbc
    · exact (h hb).trans Set.subset_union_left
    · exact (h' hc).trans Set.subset_union_right

theorem joins_confines (x : α) : Joins (Confines x) fun items => x ∉ items where
  write _ _ _ hw h hx := h (hx.resolve_right hw)
  union _ _ _ _ h h' hx := Bool.or_eq_true_iff.mpr (hx.imp h h')

theorem marks_start {X : Set α} (hX : X ⊆ N.holds p) :
    Marks (Carries X) (start p (N.sent.map Prod.fst)) N where
  holds q hq := by
    obtain rfl : q = p := by simpa [start] using hq
    exact hX
  sent := by
    rw [start, List.map_map, List.forall₂_map_left_iff]
    exact List.forall₂_same.mpr fun m _ => ⟨rfl, fun h => by cases h⟩

theorem marks_start_of_only (honly : ∀ q, x ∈ N.holds q → q = p) (hsent : ∀ m ∈ N.sent, x ∉ m.2) :
    Marks (Confines x) (start p (N.sent.map Prod.fst)) N where
  holds q hq := by
    obtain rfl := honly q hq
    simp [start]
  sent := by
    rw [start, List.map_map, List.forall₂_map_left_iff]
    exact List.forall₂_same.mpr fun m hm => ⟨rfl, fun h => absurd h (hsent m hm)⟩

/-- **Delivery.** Who hears the rumour of a peer holds in the end what the peer held. -/
theorem holds_of_heard (h : ((start p (N.sent.map Prod.fst)).run actions).heard q = true) :
    N.holds p ⊆ (N.run actions).holds q :=
  ((marks_start subset_rfl).run (joins_carries (N.holds p)) fun _ _ _ => trivial).holds q h

/-- **Confinement.** An item that one peer alone holds, and nobody writes again, is held in the
end by those who hear the rumour of that peer. -/
theorem mem_holds_iff_heard (hp : x ∈ N.holds p) (honly : ∀ q, x ∈ N.holds q → q = p)
    (hsent : ∀ m ∈ N.sent, x ∉ m.2) (hw : ∀ p items, .write p items ∈ actions → x ∉ items) :
    x ∈ (N.run actions).holds q ↔ ((start p (N.sent.map Prod.fst)).run actions).heard q = true :=
  ⟨((marks_start_of_only honly hsent).run (joins_confines x) hw).holds q, fun h => holds_of_heard h hp⟩

/-- **Convergence.** Nobody writes, and every rumour reaches everyone: all peers end with the
union. -/
theorem holds_run_of_heard (hb : N.Backed) (hs : Net.Silent actions)
    (hall : ∀ p q, ((start p (N.sent.map Prod.fst)).run actions).heard q = true) (q : P) :
    (N.run actions).holds q = ⋃ p, N.holds p := by
  refine Set.Subset.antisymm (fun x hx => ?_) (Set.iUnion_subset fun p => holds_of_heard (hall p q))
  exact Set.mem_iUnion.mpr (Net.exists_holds_of_run hb hs hx)

end Rumour

end Gossip
