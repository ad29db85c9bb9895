import Mathlib.Data.Fintype.Basic
import SilkGraph.Lib.Gossip
import SilkGraph.Lib.Runs
import SilkGraph.Sync.Batches
import SilkGraph.Sync.BloomRuns

/-!
# A network of peers

Any number of peers append to their logs and sync with each other by messages. A peer makes an
offer, another answers it from what it holds by then, and the first merges the answer at some
later time. Offers and answers stay around: they may be used late, out of order, more than once,
or not at all, while the logs go on growing.

The network does what a gossip of sets does (`Simulates`): an answer, although it is only the
difference to an offer that may be stale, brings whatever its sender held when it answered. Hence
no merge of an answer ever fails (`merges_succeed`), an entry reaches the peers that a rumour
reaches (`reaches_iff_heard`), and peers that heard of each other have equal logs (`logs_equal`).
-/

namespace SilkGraph

open OpLog

/-- The network: the log of each peer, and all offers and answers so far, each with the peer that
made the offer. -/
structure Network (P : Type) where
  logs : P → OpLog
  offers : List (P × SyncOffer)
  answers : List (P × SyncPayload)

namespace Network

variable {P : Type} [DecidableEq P]

/-- What happens in the network. Answers are numbered in the order in which they are given. -/
inductive Event (P : Type) where
  | write (peer : P) (entry : Entry)
  | offer (peer : P) (offer : SyncOffer)
  | answer (peer recipient : P) (offer : SyncOffer)
  | merge (answer : ℕ)

/-- Every peer with a log of its own. -/
def start (genesis : P → Entry) : Network P := ⟨fun p => .new (genesis p), [], []⟩

section

variable [Crates]

/-- One event; `none` if the code panics. -/
def step (self : Network P) : Event P → Option (Network P)
  | .write p e => some { self with logs := Function.update self.logs p ((self.logs p).append e).2 }
  | .offer p offer => some { self with offers := self.offers ++ [(p, offer)] }
  | .answer p q offer =>
    (entriesMissing (self.logs p) offer).map fun payload =>
      { self with answers := self.answers ++ [(q, payload)] }
  | .merge i =>
    match self.answers[i]? with
    | some (q, payload) =>
      some { self with
        logs := Function.update self.logs q (mergeEntries (self.logs q) payload.entries).2 }
    | none => some self

/-- The events one after another. -/
def run (self : Network P) (events : List (Event P)) : Option (Network P) := Runs.run step self events

/-- What may happen. A peer writes an entry as the store makes them, under a hash that nobody
holds; it offers its heads, with whatever filter; and it answers an offer that was made. -/
def Allowed (self : Network P) : Event P → Prop
  | .write p e => e.verifyHash ∧ (∀ h ∈ e.next, h ∈ (self.logs p).entries) ∧ e.next.Nodup ∧ e.refs = [] ∧
      e.payload.isCheckpoint = false ∧ ∀ q, e.hash ∉ (self.logs q).entries
  | .offer p offer => offer.bloom.Dims ∧ ∀ h, h ∈ offer.heads ↔ h ∈ (self.logs p).heads
  | .answer _ q offer => (q, offer) ∈ self.offers
  | .merge _ => True

/-- Every event of the run is allowed when it happens. -/
def AllowedRun (self : Network P) (events : List (Event P)) : Prop :=
  Runs.AllowedRun step Allowed self events

/-- The logs of the peers start with entries that are told apart by their hashes. -/
structure Rooted (genesis : P → Entry) : Prop where
  valid : ∀ p, (genesis p).verifyHash
  root : ∀ p, (genesis p).next = []
  noRefs : ∀ p, (genesis p).refs = []
  noCheckpoint : ∀ p, (genesis p).payload.isCheckpoint = false
  distinct : ∀ p q, (genesis p).hash = (genesis q).hash → genesis p = genesis q

end

/-! ### The gossip behind it -/

/-- What an event is to a gossip of sets. An offer is nothing. -/
def Event.action : Event P → Option (Gossip.Action P Entry)
  | .write p e => some (.write p {e})
  | .offer _ _ => none
  | .answer p q _ => some (.send p q)
  | .merge i => some (.receive i)

/-- The gossip of a run. -/
def schedule (events : List (Event P)) : List (Gossip.Action P Entry) := events.filterMap Event.action

/-- The entries of a log. -/
def held (L : OpLog) : Set Entry := {e | L.entries[e.hash]? = some e}

variable [Crates] {N N' : Network P} {G : Gossip.Net P Entry} {A B : OpLog} {e : Entry} {es : List Entry}
  {p q : P} {events : List (Event P)} {event : Event P}

/-- The entries answer, from the log `A`, an offer of the peer with the log `B`. -/
structure Answers (A B : OpLog) (es : List Entry) : Prop where
  wellFormed : A.WellFormed
  plain : Plain A
  missing : ∃ remoteHeads, EntriesMissing A remoteHeads es ∧ ∀ h ∈ remoteHeads, h ∈ B.entries

/-- The network does what the gossip does. -/
structure Simulates (N : Network P) (G : Gossip.Net P Entry) : Prop where
  wellFormed : ∀ p, (N.logs p).WellFormed
  plain : ∀ p, Plain (N.logs p)
  /-- Nobody holds two entries under one hash. -/
  coherent : ∀ p q, ∀ a ∈ held (N.logs p), ∀ b ∈ held (N.logs q), a.hash = b.hash → a = b
  offers : ∀ m ∈ N.offers, m.2.bloom.Dims ∧ ∀ h ∈ m.2.heads, h ∈ (N.logs m.1).entries
  holds : ∀ p, G.holds p = held (N.logs p)
  answers : List.Forall₂ (fun m n => m.1 = n.1 ∧ ∃ A, Answers A (N.logs m.1) m.2.entries ∧ n.2 = held A)
    N.answers G.sent
  backed : G.Backed

omit [DecidableEq P] [Crates] in
theorem mem_held : e ∈ held A ↔ A.entries[e.hash]? = some e := Iff.rfl

omit [DecidableEq P] in
theorem mem_held_of_get (hA : A.WellFormed) {h : Hash} (he : A.entries[h]? = some e) : e ∈ held A := by
  obtain ⟨rfl, -⟩ := hA.rep.keyed h e he
  exact he

omit [DecidableEq P] in
theorem mem_entries_iff_held (hA : A.WellFormed) {h : Hash} :
    h ∈ A.entries ↔ ∃ e ∈ held A, e.hash = h := by
  rw [HashMap.mem_iff_getElem?]
  constructor
  · rintro ⟨e, he⟩
    exact ⟨e, mem_held_of_get hA he, (hA.rep.keyed h e he).1⟩
  · rintro ⟨e, he, rfl⟩
    exact ⟨e, he⟩

omit [DecidableEq P] in
theorem Answers.mono {B' : OpLog} (h : Answers A B es) (hsub : ∀ x ∈ B.entries, x ∈ B'.entries) :
    Answers A B' es := by
  obtain ⟨heads, hmissing, hheld⟩ := h.missing
  exact ⟨h.wellFormed, h.plain, heads, hmissing, fun x hx => hsub x (hheld x hx)⟩

omit [DecidableEq P] in
/-- **One merge.** An answer goes through whenever it comes, and brings all of the log it was
given from. -/
theorem Answers.merge (h : Answers A B es) (hB : B.WellFormed)
    (hc : ∀ a ∈ held A, ∀ b ∈ held B, a.hash = b.hash → a = b) :
    ∃ new B', Inserts B new B' ∧ (∀ e ∈ new, e ∈ es ∧ e ∈ held A) ∧ held B' = held B ∪ held A ∧
      mergeEntries B es = (.ok new.length, B') := by
  obtain ⟨heads, hmissing, hheads⟩ := h.missing
  have hagree : Agree A B := fun x a b ha hb => by
    rw [hc a (mem_held_of_get h.wellFormed ha) b (mem_held_of_get hB hb)
      ((h.wellFormed.rep.keyed x a ha).1.trans (hB.rep.keyed x b hb).1.symm)]
  obtain ⟨new, hok, hi, hsub, hunion⟩ := hmissing.merge_admitted h.wellFormed hB hagree hheads
    (fun _ => true) fun e he _ => ⟨rfl, fun hroot => by
      have hcp := h.plain.noCheckpoint _ e (hmissing.stored e he)
      simp [Entry.isRootCheckpoint, hcp] at hroot⟩
  rw [List.filter_true] at hok hi hsub hunion
  have hnew : ∀ e ∈ new, e ∈ es ∧ e ∈ held A := fun e he => ⟨hsub he, hmissing.stored e (hsub he)⟩
  refine ⟨new, (mergeBatch B es).2, hi, hnew, Set.ext fun e => ⟨fun he => ?_, ?_⟩, mergeEntries_of_ok hok⟩
  · exact (hi.source he).imp_right fun he => (hnew e he.1).2
  · rintro (he | he)
    · exact hi.grows he
    · obtain ⟨b, hb⟩ := HashMap.mem_iff_getElem?.mp
        ((hunion e.hash).mpr (.inl (HashMap.mem_iff_getElem?.mpr ⟨e, he⟩)))
      obtain hold | ⟨hin, heq⟩ := hi.source hb
      · rw [hc e he b (mem_held_of_get hB hold) (hB.rep.keyed _ b hold).1.symm]
        exact mem_held_of_get (hi.wellFormed hB) hb
      · have hstored := (hnew b hin).2
        rw [mem_held, heq] at hstored
        obtain rfl := Option.some.inj (hstored.symm.trans he)
        exact hb

/-! ### Steps -/

omit [DecidableEq P] in
/-- A network whose peers have made no offers yet. -/
theorem simulates_start {genesis : P → Entry} (hg : Rooted genesis) :
    Simulates (start genesis) ⟨fun p => {genesis p}, []⟩ where
  wellFormed p := .new (hg.valid p) (hg.root p)
  plain p := by
    have hget : ∀ h e, (OpLog.new (genesis p)).entries[h]? = some e → e = genesis p := fun h e he => by
      rw [getElem?_new] at he
      split at he
      · exact (Option.some.inj he).symm
      · cases he
    refine ⟨fun h e he => ?_, fun h e he => ?_, fun h e he => ?_⟩ <;> rw [hget h e he]
    · rw [hg.root]
      exact List.nodup_nil
    · exact hg.noRefs p
    · exact hg.noCheckpoint p
  coherent p q a ha b hb heq := by
    simp only [start, mem_held, getElem?_new] at ha hb
    split at ha <;> split at hb <;> cases ha <;> cases hb
    exact hg.distinct p q heq
  offers _ hm := by cases hm
  holds p := by
    refine Set.ext fun e => ?_
    rw [start, mem_held, getElem?_new, Set.mem_singleton_iff]
    constructor
    · rintro rfl
      rw [if_pos rfl]
    · intro he
      split at he <;> cases he
      rfl
  answers := .nil
  backed _ hm := by cases hm

/-- A peer's log grows by entries that somebody holds or that are new, and all else stays. -/
theorem Simulates.grow {L : OpLog} {a : Gossip.Action P Entry} (h : Simulates N G) (hL : L.WellFormed)
    (hplain : Plain L) (hgrow : held (N.logs p) ⊆ held L) (hsent : (G.step a).sent = G.sent)
    (hholds : ∀ q, (G.step a).holds q = Function.update G.holds p (held L) q)
    (hcoherent : ∀ q q', ∀ x ∈ (G.step a).holds q, ∀ y ∈ (G.step a).holds q', x.hash = y.hash → x = y) :
    Simulates { N with logs := Function.update N.logs p L } (G.step a) := by
  have hmono : ∀ q, ∀ x ∈ (N.logs q).entries, x ∈ (Function.update N.logs p L q).entries := by
    refine (Function.forall_update_iff N.logs fun q L => ∀ x ∈ (N.logs q).entries, x ∈ L.entries).mpr
      ⟨fun x hx => ?_, fun q _ x hx => hx⟩
    obtain ⟨e, he, rfl⟩ := (mem_entries_iff_held (h.wellFormed p)).mp hx
    exact (mem_entries_iff_held hL).mpr ⟨e, hgrow he, rfl⟩
  have hheld : ∀ q, (G.step a).holds q = held (Function.update N.logs p L q) := by
    refine (Function.forall_update_iff N.logs fun q L => (G.step a).holds q = held L).mpr
      ⟨?_, fun q hq => ?_⟩
    · rw [hholds, Function.update_self]
    · rw [hholds, Function.update_of_ne hq, h.holds]
  refine ⟨?_, ?_, fun q q' x hx y hy => ?_, fun m hm => ?_, hheld, ?_, h.backed.step⟩
  · exact (Function.forall_update_iff N.logs fun _ L => L.WellFormed).mpr ⟨hL, fun q _ => h.wellFormed q⟩
  · exact (Function.forall_update_iff N.logs fun _ L => Plain L).mpr ⟨hplain, fun q _ => h.plain q⟩
  · change x ∈ held (Function.update N.logs p L q) at hx
    change y ∈ held (Function.update N.logs p L q') at hy
    rw [← hheld] at hx hy
    exact hcoherent q q' x hx y hy
  · obtain ⟨hdims, hheads⟩ := h.offers m hm
    exact ⟨hdims, fun x hx => hmono m.1 x (hheads x hx)⟩
  · rw [hsent]
    refine h.answers.imp fun m n => ?_
    rintro ⟨hto, A, hA, hbrings⟩
    exact ⟨hto, A, hA.mono (hmono m.1), hbrings⟩

/-- **Step: a peer writes.** -/
theorem Simulates.write (h : Simulates N G) (ha : N.Allowed (.write p e)) :
    Simulates { N with logs := Function.update N.logs p ((N.logs p).append e).2 }
      (G.step (.write p {e})) := by
  obtain ⟨hv, hparents, hnd, hrefs, hcp, hfresh⟩ := ha
  have hroot : ¬ e.isRootCheckpoint := by simp [Entry.isRootCheckpoint, hcp]
  rw [append_eq_insertEntry (h.wellFormed p).nonempty hv (hfresh p) hroot hparents]
  have hi : Inserts (N.logs p) [e] ((N.logs p).insertEntry e) := .single hv (hfresh p) hparents
  have hnew : ∀ q, ∀ x ∈ held (N.logs q), x.hash ≠ e.hash := fun q x hx heq =>
    hfresh q (heq ▸ HashMap.mem_iff_getElem?.mpr ⟨x, hx⟩)
  have hheld : held ((N.logs p).insertEntry e) = held (N.logs p) ∪ {e} := by
    refine Set.ext fun x => ⟨fun hx => ?_, ?_⟩
    · exact (hi.source hx).imp_right fun hx => List.mem_singleton.mp hx.1
    · rintro (hx | rfl)
      · exact hi.grows hx
      · exact hi.get_new List.mem_cons_self
  have hplain : Plain ((N.logs p).insertEntry e) := by
    refine ⟨fun x a hget => ?_, fun x a hget => ?_, fun x a hget => ?_⟩ <;>
      obtain hold | ⟨hin, -⟩ := hi.source hget
    · exact (h.plain p).nextNodup x a hold
    · exact List.mem_singleton.mp hin ▸ hnd
    · exact (h.plain p).noRefs x a hold
    · exact List.mem_singleton.mp hin ▸ hrefs
    · exact (h.plain p).noCheckpoint x a hold
    · exact List.mem_singleton.mp hin ▸ hcp
  refine h.grow (hi.wellFormed (h.wellFormed p)) hplain (hheld ▸ Set.subset_union_left) rfl ?_ ?_
  · intro q
    rw [hheld, ← h.holds]
    rfl
  · intro q q' x hx y hy heq
    have hcases : ∀ q, ∀ z ∈ (G.step (.write p {e})).holds q, z = e ∨ ∃ q, z ∈ held (N.logs q) := by
      intro q z hz
      obtain hz | ⟨items, hitems, hz⟩ | ⟨i, items, hno, -⟩ := Gossip.Net.mem_holds_step.mp hz
      · exact .inr ⟨q, h.holds q ▸ hz⟩
      · obtain ⟨-, rfl⟩ := Gossip.Action.write.inj hitems
        exact .inl hz
      · cases hno
    obtain hxe | ⟨r, hxr⟩ := hcases q x hx <;> obtain hye | ⟨r', hyr⟩ := hcases q' y hy
    · rw [hxe, hye]
    · exact absurd (heq.symm.trans (congrArg Entry.hash hxe)) (hnew r' y hyr)
    · exact absurd (heq.trans (congrArg Entry.hash hye)) (hnew r x hxr)
    · exact h.coherent r r' x hxr y hyr heq

omit [DecidableEq P] in
/-- **Step: a peer makes an offer.** -/
theorem Simulates.offer {offer : SyncOffer} (h : Simulates N G) (ha : N.Allowed (.offer p offer)) :
    Simulates { N with offers := N.offers ++ [(p, offer)] } G := by
  refine ⟨h.wellFormed, h.plain, h.coherent, fun m hm => ?_, h.holds, h.answers, h.backed⟩
  obtain hm | hm := List.mem_append.mp hm
  · exact h.offers m hm
  · rw [List.mem_singleton.mp hm]
    exact ⟨ha.1, fun x hx => (((h.wellFormed p).rep.heads x).mp ((ha.2 x).mp hx)).1⟩

/-- **Step: a peer answers.** -/
theorem Simulates.answer {offer : SyncOffer} (h : Simulates N G) (ha : N.Allowed (.answer p q offer)) :
    ∃ payload, entriesMissing (N.logs p) offer = some payload ∧
      Simulates { N with answers := N.answers ++ [(q, payload)] } (G.step (.send p q)) := by
  obtain ⟨hdims, hheads⟩ := h.offers _ ha
  obtain ⟨payload, hrun, hmissing⟩ := entriesMissing_spec (h.wellFormed p) (h.plain p).nextNodup
    (h.plain p).refsStored offer hdims
  refine ⟨payload, hrun, h.wellFormed, h.plain, h.coherent, h.offers, h.holds, ?_, h.backed.step⟩
  refine List.rel_append h.answers (.cons ⟨rfl, N.logs p, ?_, h.holds p⟩ .nil)
  exact ⟨h.wellFormed p, h.plain p, offer.heads, hmissing, hheads⟩

omit [DecidableEq P] in
/-- What is known of an answer in the network. -/
theorem Simulates.answers_of_get {i : ℕ} {payload : SyncPayload} (h : Simulates N G)
    (hi : N.answers[i]? = some (q, payload)) : ∃ A, Answers A (N.logs q) payload.entries ∧
      G.sent[i]? = some (q, held A) ∧
      ∀ a ∈ held A, ∀ r, ∀ b ∈ held (N.logs r), a.hash = b.hash → a = b := by
  have hrel := Gossip.Rumour.rel_getElem? h.answers i
  rw [hi] at hrel
  generalize hn : G.sent[i]? = n at hrel
  cases hrel with
  | @some _ n hmn =>
    obtain ⟨q', items⟩ := n
    obtain ⟨rfl, A, hA, rfl⟩ := hmn
    refine ⟨A, hA, rfl, fun a ha r b hb => ?_⟩
    obtain ⟨r', hr'⟩ := h.backed _ (List.mem_of_getElem? hn)
    have hin := hr' ha
    rw [h.holds] at hin
    exact h.coherent r' r a hin b hb

/-- **Step: a peer merges.** -/
theorem Simulates.merge {i : ℕ} {payload : SyncPayload} (h : Simulates N G)
    (hi : N.answers[i]? = some (q, payload)) :
    Simulates { N with
      logs := Function.update N.logs q (mergeEntries (N.logs q) payload.entries).2 } (G.step (.receive i)) := by
  obtain ⟨A, hA, hsent, hcA⟩ := h.answers_of_get hi
  obtain ⟨new, B', hins, hnew, hunion, hrun⟩ := hA.merge (h.wellFormed q) fun a ha => hcA a ha q
  rw [hrun]
  have hstep : G.step (.receive i) = G.give q (held A) := by
    rw [Gossip.Net.step, hsent]
  refine h.grow (hins.wellFormed (h.wellFormed q)) ?_ (hunion ▸ Set.subset_union_left) ?_ ?_ ?_
  · exact hins.plain (h.plain q) hA.plain fun e he => (hnew e he).2
  · rw [hstep]
    rfl
  · intro r
    rw [hstep, hunion, ← h.holds]
    rfl
  · intro r r' x hx y hy heq
    obtain ⟨s, hs⟩ := Gossip.Net.exists_holds_of_step h.backed (fun p items hno => by cases hno) hx
    obtain ⟨s', hs'⟩ := Gossip.Net.exists_holds_of_step h.backed (fun p items hno => by cases hno) hy
    rw [h.holds] at hs hs'
    exact h.coherent s s' x hs y hs' heq

/-- The gossip of one event. -/
def gossip (G : Gossip.Net P Entry) (event : Event P) : Gossip.Net P Entry :=
  (event.action.map G.step).getD G

/-- **Step.** An allowed event does not panic, and the network goes on doing what the gossip
does. -/
theorem Simulates.step (h : Simulates N G) (ha : N.Allowed event) :
    ∃ N', N.step event = some N' ∧ Simulates N' (gossip G event) := by
  cases event with
  | write p e => exact ⟨_, rfl, h.write ha⟩
  | offer p offer => exact ⟨_, rfl, h.offer ha⟩
  | answer p q offer =>
    obtain ⟨payload, hrun, hs⟩ := h.answer ha
    exact ⟨_, by rw [Network.step, hrun, Option.map_some], hs⟩
  | merge i =>
    cases hi : N.answers[i]? with
    | some m => exact ⟨_, by rw [Network.step, hi], h.merge hi⟩
    | none =>
      refine ⟨N, by rw [Network.step, hi], ?_⟩
      have hnone := Gossip.Rumour.rel_getElem? h.answers i
      rw [hi] at hnone
      generalize hn : G.sent[i]? = n at hnone
      cases hnone
      have hstep : G.step (.receive i) = G := by rw [Gossip.Net.step, hn]
      rw [gossip, Event.action, Option.map_some, Option.getD_some, hstep]
      exact h

/-- **Run.** -/
theorem Simulates.run (h : Simulates N G) (ha : N.AllowedRun events) :
    ∃ N', N.run events = some N' ∧ Simulates N' (G.run (schedule events)) := by
  obtain ⟨N', hrun, h'⟩ := Runs.exists_run (fun N G event => Simulates.step) h ha
  refine ⟨N', hrun, ?_⟩
  have hschedule : events.foldl gossip G = G.run (schedule events) := by
    clear h ha hrun h'
    induction events generalizing G with
    | nil => rfl
    | cons event events ih =>
      rw [List.foldl_cons, ih, schedule, schedule, List.filterMap_cons, gossip]
      cases event.action <;> rfl
  rwa [hschedule] at h'

/-! ### Runs -/

/-- The rumour of a peer, as it spreads by what happens. -/
def heard (N : Network P) (p : P) (events : List (Event P)) (q : P) : Bool :=
  ((Gossip.Rumour.start p (N.answers.map Prod.fst)).run (schedule events)).heard q

omit [DecidableEq P] in
theorem Simulates.recipients (h : Simulates N G) : N.answers.map Prod.fst = G.sent.map Prod.fst := by
  have hsame : List.Forall₂ (fun m n => m.1 = n.1) N.answers G.sent := h.answers.imp fun _ _ hmn => hmn.1
  rwa [← List.forall₂_eq_eq_eq, List.forall₂_map_left_iff, List.forall₂_map_right_iff]

/-- A peer from which a rumour is heard passes on all it held. -/
theorem Simulates.held_of_heard (h : Simulates N G) (h' : Simulates N' (G.run (schedule events)))
    (hh : N.heard p events q = true) : held (N.logs p) ⊆ held (N'.logs q) := by
  rw [heard, h.recipients] at hh
  rw [← h.holds, ← h'.holds]
  exact Gossip.Rumour.holds_of_heard hh

/-- What somebody holds is not written again. -/
theorem Simulates.not_rewritten (h : Simulates N G) (ha : N.AllowedRun events)
    (he : e ∈ held (N.logs p)) : ∀ r items, .write r items ∈ schedule events → e ∉ items := by
  induction events generalizing N G with
  | nil =>
    intro r items hw
    cases hw
  | cons event events ih =>
    intro r items hw
    obtain ⟨N₁, hrun, h₁⟩ := h.step ha.1
    have he₁ : e ∈ held (N₁.logs p) := by
      rw [← h₁.holds, gossip]
      rw [← h.holds] at he
      cases event.action with
      | none => exact he
      | some a => exact Gossip.Net.holds_step he
    obtain ⟨ev, hev, haction⟩ := List.mem_filterMap.mp hw
    obtain rfl | hev := List.mem_cons.mp hev
    · cases ev with
      | write r' x =>
        obtain ⟨rfl, rfl⟩ := Gossip.Action.write.inj (Option.some.inj haction)
        rintro rfl
        obtain ⟨-, -, -, -, -, hfresh⟩ := ha.1
        exact hfresh p (HashMap.mem_iff_getElem?.mpr ⟨e, he⟩)
      | offer => cases haction
      | answer => cases haction
      | merge => cases haction
    · exact ih h₁ (ha.2 N₁ hrun) he₁ r items (List.mem_filterMap.mpr ⟨ev, hev, haction⟩)

/-- **Dissemination.** An entry reaches exactly the peers that hear the rumour of its writer, from
the write on; and with it comes all that the writer held. -/
theorem reaches_iff_heard {genesis : P → Entry} (hg : Rooted genesis) (before after : List (Event P))
    (p : P) (e : Entry) (ha : (start genesis).AllowedRun (before ++ .write p e :: after)) :
    ∃ N N', (start genesis).run before = some N ∧ N.run (.write p e :: after) = some N' ∧
      ∀ q, (e ∈ held (N'.logs q) ↔ N.heard p after q = true) ∧
        (e ∈ held (N'.logs q) → held (N.logs p) ⊆ held (N'.logs q)) := by
  obtain ⟨hbefore, hafter⟩ := ha.append
  obtain ⟨N, hrun, h⟩ := (simulates_start hg).run hbefore
  obtain ⟨G, h⟩ : ∃ G, Simulates N G := ⟨_, h⟩
  have ha' := hafter N hrun
  have h₁ := h.write ha'.1
  generalize hN₁ : ({ N with logs := Function.update N.logs p ((N.logs p).append e).2 } : Network P) = N₁ at h₁
  have hstep : N.step (.write p e) = some N₁ := hN₁ ▸ rfl
  obtain ⟨N', hrun', h'⟩ := h₁.run (ha'.2 N₁ hstep)
  refine ⟨N, N', hrun, (Runs.run_cons hstep).trans hrun', fun q => ?_⟩
  have hfresh : ∀ r, e ∉ held (N.logs r) := fun r hr =>
    ha'.1.2.2.2.2.2 r (HashMap.mem_iff_getElem?.mpr ⟨e, hr⟩)
  have honly : ∀ r, e ∈ (G.step (.write p {e})).holds r → r = p := fun r hr => by
    obtain hr | ⟨items, hw, -⟩ | ⟨i, items, hno, -⟩ := Gossip.Net.mem_holds_step.mp hr
    · exact absurd (h.holds r ▸ hr) (hfresh r)
    · exact (Gossip.Action.write.inj hw).1.symm
    · cases hno
  have hsent : ∀ m ∈ (G.step (.write p {e})).sent, e ∉ m.2 := fun m hm hin => by
    obtain ⟨r, hr⟩ := h.backed m hm
    exact hfresh r (h.holds r ▸ hr hin)
  have hmine : e ∈ (G.step (.write p {e})).holds p :=
    Gossip.Net.mem_holds_step.mpr (.inr (.inl ⟨{e}, rfl, rfl⟩))
  have hheard : N₁.heard p after = N.heard p after := by rw [← hN₁]; rfl
  have hiff : e ∈ held (N'.logs q) ↔ N.heard p after q = true := by
    rw [← hheard, heard, h₁.recipients, ← h'.holds]
    exact Gossip.Rumour.mem_holds_iff_heard hmine honly hsent
      (h₁.not_rewritten (ha'.2 N₁ hstep) (h₁.holds p ▸ hmine))
  refine ⟨hiff, fun hq x hx => ?_⟩
  refine h₁.held_of_heard h' (hheard ▸ hiff.mp hq) ?_
  rw [← h₁.holds]
  rw [← h.holds] at hx
  exact Gossip.Net.holds_step hx

/-- Nobody writes. -/
def Quiet (events : List (Event P)) : Prop := ∀ p e, .write p e ∉ events

/-- **Convergence.** Once nobody writes any more, and every rumour has reached everyone, all peers
have the same log, and it holds what any of them held. -/
theorem logs_equal {genesis : P → Entry} (hg : Rooted genesis) (before after : List (Event P))
    (ha : (start genesis).AllowedRun (before ++ after)) (hquiet : Quiet after)
    (hall : ∀ N, (start genesis).run before = some N → ∀ p q, N.heard p after q = true) :
    ∃ N N', (start genesis).run before = some N ∧ N.run after = some N' ∧
      ∀ p, (∀ e, e ∈ held (N'.logs p) ↔ ∃ r, e ∈ held (N.logs r)) ∧ ∀ q, N'.logs p = N'.logs q := by
  obtain ⟨hbefore, hafter⟩ := ha.append
  obtain ⟨N, hrun, h⟩ := (simulates_start hg).run hbefore
  obtain ⟨N', hrun', h'⟩ := h.run (hafter N hrun)
  have hsilent : Gossip.Net.Silent (schedule after) := fun a ha r items heq => by
    obtain ⟨event, hevent, haction⟩ := List.mem_filterMap.mp ha
    subst heq
    cases event with
    | write r' x => exact hquiet r' x hevent
    | offer => cases haction
    | answer => cases haction
    | merge => cases haction
  have hunion : ∀ p, held (N'.logs p) = ⋃ r, held (N.logs r) := fun p => by
    have hheard := hall N hrun
    simp only [heard, h.recipients] at hheard
    rw [← h'.holds, Gossip.Rumour.holds_run_of_heard h.backed hsilent hheard]
    exact Set.iUnion_congr h.holds
  refine ⟨N, N', hrun, hrun', fun p => ⟨fun e => ?_, fun q => ?_⟩⟩
  · rw [hunion, Set.mem_iUnion]
  · refine (h'.wellFormed p).rep.ext (h'.wellFormed q).rep fun x => Option.ext fun e => ?_
    have hsame : e ∈ held (N'.logs p) ↔ e ∈ held (N'.logs q) := by rw [hunion, hunion]
    constructor
    · intro he
      obtain ⟨rfl, -⟩ := (h'.wellFormed p).rep.keyed x e he
      exact hsame.mp he
    · intro he
      obtain ⟨rfl, -⟩ := (h'.wellFormed q).rep.keyed x e he
      exact hsame.mpr he

/-! ### Worked instances -/

deriving instance DecidableEq for SyncOffer

instance (bloom : BloomFilter) : Decidable bloom.Dims := inferInstanceAs (Decidable (_ ∧ _))

instance Allowed.decidable [Fintype P] (N : Network P) : (event : Event P) → Decidable (N.Allowed event)
  | .write p e =>
    have : Decidable (∀ h ∈ e.next, h ∈ (N.logs p).entries) := List.decidableBAll _ _
    inferInstanceAs (Decidable (_ ∧ _))
  | .offer p offer =>
    decidable_of_iff (offer.bloom.Dims ∧ (offer.heads.all fun h => (N.logs p).heads.contains h) ∧
      (N.logs p).heads.toList.all fun h => offer.heads.contains h) (by
        simp only [Allowed, List.all_eq_true, List.contains_iff_mem, Std.ExtTreeSet.mem_toList,
          Std.ExtTreeSet.mem_iff_contains]
        grind)
  | .answer _ _ _ => inferInstanceAs (Decidable (_ ∈ _))
  | .merge _ => inferInstanceAs (Decidable True)

instance [Fintype P] (N : Network P) (events : List (Event P)) : Decidable (N.AllowedRun events) :=
  Runs.AllowedRun.decidable N events

end Network

namespace Sample

/-- Three peers. -/
inductive Trio where
  | ann
  | bob
  | carol
  deriving DecidableEq

instance : Fintype Trio := ⟨{.ann, .bob, .carol}, fun p => by cases p <;> simp⟩

/-- The time on the clock of a peer. -/
def Trio.time : Trio → ℕ
  | .ann => 1
  | .bob => 2
  | .carol => 3

/-- Three logs, each with a genesis of its own. -/
def genesisOf (p : Trio) : Entry := Entry.new (.removeNode "g") [] [] ⟨"ann", p.time, 0⟩ "ann"

/-- An offer of what a peer holds at first. -/
def firstOffer (p : Trio) : SyncOffer := ⟨3, [(genesisOf p).hash], ⟨[0#64], 64, 1, 0⟩, 0, 0⟩

theorem rooted_genesisOf : Network.Rooted genesisOf where
  valid p := Entry.verifyHash_new ..
  root _ := rfl
  noRefs _ := rfl
  noCheckpoint _ := rfl
  distinct p q h := by
    have hpq : ∀ p q, (genesisOf p).hash = (genesisOf q).hash → p = q := by decide +kernel
    rw [hpq p q h]

/-- A write of each peer. -/
def firstWrite (p : Trio) : Entry :=
  Entry.new (.removeNode "w") [(genesisOf p).hash] [] ⟨"ann", 9, p.time⟩ "ann"

/-- The second and the third peer make offers, the first writes, and its write goes to the second
and from there, by the offer of old, to the third. -/
def relayed : List (Network.Event Trio) :=
  [.answer .ann .bob (firstOffer .bob), .merge 0, .answer .bob .carol (firstOffer .carol), .merge 1]

/-- The offers of all peers. -/
def offered : List (Network.Event Trio) :=
  [.offer .ann (firstOffer .ann), .offer .bob (firstOffer .bob), .offer .carol (firstOffer .carol)]

/-- All of them write. -/
def written : List (Network.Event Trio) :=
  [.write .ann (firstWrite .ann), .write .bob (firstWrite .bob), .write .carol (firstWrite .carol)]

/-- What was written goes round twice. -/
def rounds : List (Network.Event Trio) :=
  [.answer .ann .bob (firstOffer .bob), .merge 0, .answer .bob .carol (firstOffer .carol), .merge 1,
    .answer .carol .ann (firstOffer .ann), .merge 2, .answer .ann .bob (firstOffer .bob), .merge 3]

end Sample

namespace Network

open Sample in
/-- What the first peer wrote is with all of them. -/
theorem reaches_iff_heard_relayed : ∃ N N', (start genesisOf).run offered = some N ∧
    N.run (.write .ann (firstWrite .ann) :: relayed) = some N' ∧ ∀ q, firstWrite .ann ∈ held (N'.logs q) := by
  obtain ⟨N, N', hrun, hrun', hreach⟩ :=
    reaches_iff_heard rooted_genesisOf offered relayed .ann (firstWrite .ann) (by decide +kernel)
  have hanswers : N.answers = [] := by
    have h : ((start genesisOf).run offered).map Network.answers = some [] := rfl
    rw [hrun] at h
    exact Option.some.inj h
  refine ⟨N, N', hrun, hrun', fun q => (hreach q).1.mpr ?_⟩
  simp only [heard, hanswers]
  revert q
  decide +kernel

open Sample in
theorem logs_equal_rounds : ∃ N N', (start genesisOf).run (offered ++ written) = some N ∧
    N.run rounds = some N' ∧ ∀ p q, N'.logs p = N'.logs q := by
  obtain ⟨N, N', hrun, hrun', heq⟩ := logs_equal rooted_genesisOf (offered ++ written) rounds
    (by decide +kernel) (fun p e h => by simp [rounds] at h) fun N hrun => by
      have hanswers : N.answers = [] := by
        have h : ((start genesisOf).run (offered ++ written)).map Network.answers = some [] := rfl
        rw [hrun] at h
        exact Option.some.inj h
      simp only [heard, hanswers]
      decide +kernel
  exact ⟨N, N', hrun, hrun', fun p => (heq p).2⟩

end Network

end SilkGraph
