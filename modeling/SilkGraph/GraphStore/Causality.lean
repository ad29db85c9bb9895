import SilkGraph.GraphStore.Past
import SilkGraph.GraphStore.Signatures

/-!
# Clocks and causes

In a fleet of stores that write, merge from each other and compact, no entry is earlier than one it
descends from, in any log, if merges succeed and compactions have no quarantined entries to carry
over: a store folds in what it merges, and ticks before it writes. So what `as_of` selects, by the
clocks, has all its causes with it (`as_of_has_causes`).

A merge that fails leaves entries in the log that the clock knows nothing of, and a compaction puts
what it carries over, with its old clock, on top of its checkpoint.
-/

namespace SilkGraph

open OpLog

/-- No entry is earlier than its parents. -/
def OpLog.ClockCondition (self : OpLog) : Prop :=
  self.All fun _ e => ∀ p ∈ e.next, ∀ x, self.entries[p]? = some x → x.clock.stamp ≤ e.clock.stamp

namespace PyGraphStore

section

variable [Crates] {s t : PyGraphStore} {env : Env} {S : Set Entry}

/-- A store whose log links to nothing outside it, by parents each named once, and whose clocks and
links agree. -/
structure CausallyDated (s : PyGraphStore) : Prop where
  stamped : s.Stamped
  wellFormed : s.oplog.WellFormed
  noRefs : s.oplog.All fun _ e => e.refs = []
  nextNodup : s.oplog.NextNodup
  dated : s.oplog.ClockCondition

/-! ### Entries of a pool -/

/-- What is known of an entry apart from the log it is in: the entries meant by its parents are those
of the pool. -/
structure After (S : Set Entry) (e : Entry) : Prop where
  mem : e ∈ S
  fits : e.clock.Fits
  noRefs : e.refs = []
  nodup : e.next.Nodup
  parents : ∀ p ∈ e.next, ∀ x ∈ S, x.hash = p → x.clock.stamp ≤ e.clock.stamp

/-- In a pool without collisions it does not matter which log an entry is looked up in. -/
theorem CausallyDated.after (hs : s.CausallyDated) (inj : Set.InjOn Entry.hash S)
    (hin : s.oplog.All fun _ e => e ∈ S) : s.oplog.All fun _ e => After S e := fun h e he => by
  refine ⟨hin h e he, hs.stamped.countersFit h e he, hs.noRefs h e he, hs.nextNodup h e he,
    fun p hp x hx hxp => ?_⟩
  obtain ⟨y, hy⟩ := HashMap.mem_iff_getElem?.mp (hs.wellFormed.rep.parents h e he p hp)
  have hyp := (hs.wellFormed.rep.keyed p y hy).1
  obtain rfl := inj hx (hin p y hy) (hxp.trans hyp.symm)
  exact hs.dated h e he p hp _ hy

theorem CausallyDated.of_after (stamped : s.Stamped) (wellFormed : s.oplog.WellFormed)
    (hlog : s.oplog.All fun _ e => After S e) : s.CausallyDated where
  stamped := stamped
  wellFormed := wellFormed
  noRefs h e he := (hlog h e he).noRefs
  nextNodup h e he := (hlog h e he).nodup
  dated h e he p hp x hx :=
    (hlog h e he).parents p hp x (hlog p x hx).mem (wellFormed.rep.keyed p x hx).1

/-! ### What a store makes -/

/-- **Step.** What a store writes is no earlier than its heads. -/
theorem after_created (hs : s.CausallyDated) (inj : Set.InjOn Entry.hash S)
    (hin : s.oplog.All fun _ e => e ∈ S) {c : Call} (hmade : ∀ e ∈ s.created env c, e ∈ S)
    (hempty : c = .compact → s.carried env = []) : ∀ e ∈ s.created env c, After S e := by
  intro e he
  have hfits : (s.clock.tick (env.wall 0)).Fits := hs.stamped.fits.tick _
  by_cases hc : c = .compact
  · subst hc
    have hmem := hmade e he
    rw [created, hempty rfl, List.map_nil, List.mem_singleton] at he
    subst he
    have hnext : (s.checkpointEntry env).next = [] := createEntry_next ..
    refine ⟨hmem, ?_, createEntry_refs .., hnext ▸ List.nodup_nil, fun p hp => ?_⟩
    · rw [checkpointEntry, createEntry_clock]
      exact hfits
    · rw [hnext] at hp
      exact absurd hp List.not_mem_nil
  · cases hw : c.written with
    | none =>
      have hnone : s.created env c = [] := by
        cases c <;> first | rfl | exact absurd rfl hc | cases hw
      rw [hnone] at he
      exact absurd he List.not_mem_nil
    | some op =>
      have hmem := hmade e he
      rw [created_of_written hw, List.mem_singleton] at he
      subst he
      have hnext : (s.writtenEntry env op).next = env.order.walk s.oplog.heads.toList := createEntry_next ..
      refine ⟨hmem, by rw [writtenEntry_clock]; exact hfits, createEntry_refs .., ?_, fun p hp x hx hxp => ?_⟩
      · rw [hnext]
        exact (env.order.perm _).nodup_iff.mpr HashSet.nodup_toList
      · rw [hnext, HashOrder.mem_walk, Std.ExtTreeSet.mem_toList] at hp
        obtain ⟨y, hy⟩ := HashMap.mem_iff_getElem?.mp ((hs.wellFormed.rep.heads p).mp hp).1
        obtain rfl := inj hx (hin p y hy) (hxp.trans (hs.wellFormed.rep.keyed p y hy).1.symm)
        rw [writtenEntry_clock]
        exact (hs.stamped.covers p _ hy).trans (HybridClock.stamp_le_tick hs.stamped.fits _)

/-! ### What a store merges -/

/-- A merge that succeeds folds in what it brings. -/
theorem folds_of_ok {es : List Entry} (hs : s.oplog.WellFormed)
    (hlog : s.oplog.All fun _ e => After S e) (hes : ∀ e ∈ es, After S e)
    (hok : (s.exec env (.merge es)).1 = .ok ()) : s.Folds env es := by
  obtain ⟨n, hn, -⟩ := except_map_eq_ok hok
  have hall := mergeBatch_all hlog (es.filter s.admits) fun e he => hes e (List.mem_of_mem_filter he)
  have hwf := (mergeBatch_any hs (es.filter s.admits)).1
  obtain ⟨all, hlist, -, hmem, -⟩ := entriesSince_none_spec hwf (fun h e he => (hall h e he).nodup)
    fun h e he r hr => by
      rw [(hall h e he).noRefs] at hr
      exact absurd hr List.not_mem_nil
  cases n with
  | zero =>
    -- nothing was new
    have hnew : (mergeBatch s.oplog (es.filter s.admits)).1 = .ok [] := by
      have hback : (s.backend.merge env.order (env.txn 0) (es.filter s.admits)).1 = .ok 0 := by
        obtain ⟨_, -, hrun⟩ | ⟨h0, -⟩ | ⟨_, -, -, hrun⟩ | ⟨_, _, -, -, hrun⟩ := s.mergeEntriesVec_cases env es
        · rw [hrun] at hn
          cases hn
        · exact h0
        · rw [hrun] at hn
          cases hn
        · rw [hrun] at hn
          cases hn
      obtain ⟨new, hok, hlen⟩ := mergeBatch_of_backend hback
      exact List.length_eq_zero_iff.mp hlen ▸ hok
    exact (mergeBatch_reported (fun h e he => he) hnew fun e he => absurd he List.not_mem_nil).mono
      fun h e he => .inl he
  | succ n =>
    refine fun h e he => .inr (.inr ⟨⟨n, hn⟩, all, hlist, (hmem e).mpr ?_⟩)
    rwa [(hwf.rep.keyed h e he).1]

theorem LogSteps.wellFormed {L L' : OpLog} (h : LogSteps L L') (hL : L.WellFormed) : L'.WellFormed := by
  induction h with
  | refl => exact hL
  | tail _ hstep ih =>
    cases hstep with
    | append e => exact ih.append e
    | replace valid root => exact .new valid root

omit [Crates] in
theorem stamped_congr (hs : s.Stamped) (hclock : t.clock = s.clock) (hlog : t.oplog = s.oplog) : t.Stamped :=
  ⟨hclock ▸ hs.fits, hlog ▸ hs.countersFit, by rw [hlog, hclock]; exact hs.covers⟩

/-- **Step.** A call keeps clocks and links in agreement. -/
theorem CausallyDated.exec (hs : s.CausallyDated) (inj : Set.InjOn Entry.hash S)
    (hin : s.oplog.All fun _ e => e ∈ S) {c : Call} (hmade : ∀ e ∈ s.created env c, e ∈ S)
    (hempty : c = .compact → s.carried env = [])
    (hmerge : ∀ es, c = .merge es → (∀ e ∈ es, After S e) ∧ (s.exec env c).1 = .ok ()) :
    (s.exec env c).2.CausallyDated ∧ (s.exec env c).2.oplog.All fun _ e => After S e := by
  have hlog := hs.after inj hin
  have hwf : (s.exec env c).2.oplog.WellFormed := (exec_log s env c).wellFormed hs.wellFormed
  have hstamped : (s.exec env c).2.Stamped := by
    cases c with
    | merge es =>
      obtain ⟨hes, hok⟩ := hmerge es rfl
      exact hs.stamped.merge env es (fun e he => (hes e he).fits) (folds_of_ok hs.wellFormed hlog hes hok)
    | _ => exact (exec_paced s env _ rfl).stamped hs.stamped
  have hafter : (s.exec env c).2.oplog.All fun _ e => After S e := by
    by_cases hc : c.configures = true
    · have hsame : (s.exec env c).2.oplog = s.oplog := by cases c <;> first | rfl | cases hc
      rw [hsame]
      exact hlog
    · exact (StaysWith.exec hlog (by simpa using hc) (after_created hs inj hin hmade hempty)
        fun es h => (hmerge es h).1).log
  exact ⟨.of_after hstamped hwf hafter, hafter⟩

/-- So do those of a new store. -/
theorem CausallyDated.new {instanceId : String} {ontology : Ontology}
    (run : new env instanceId ontology none = .ok s) : s.CausallyDated := by
  have hstamped := (InStep.memory env instanceId ontology run).stamped
  obtain ⟨-, rfl⟩ := new_memory run
  have hall : (OpLog.new (genesis env instanceId ontology)).All
      fun _ e => e = genesis env instanceId ontology := .new rfl
  refine ⟨hstamped, .new (Entry.verifyHash_new ..) rfl, hall.mono ?_, hall.mono ?_, hall.mono ?_⟩
  · rintro h _ rfl
    rfl
  · rintro h _ rfl
    exact List.nodup_nil
  · rintro h _ rfl p hp
    exact absurd hp List.not_mem_nil

end

end PyGraphStore

namespace Fleet

open PyGraphStore

section

variable [Crates] {ι : Type} [DecidableEq ι] {w : ι → PyGraphStore} {moves : List (Move ι)}

/-- All entries there are: in the logs at the start, or made along a run. -/
def everything (w : ι → PyGraphStore) (moves : List (Move ι)) : Set Entry :=
  {e | (∃ i, ∃ h : Hash, (w i).oplog.entries[h]? = some e) ∨ ∃ i, (i, e) ∈ created w moves}

/-- Along a run, merges succeed, and compactions have nothing to carry over. -/
def Smooth (w : ι → PyGraphStore) : List (Move ι) → Prop
  | [] => True
  | m :: moves => (m.call.isMerge = true → ((w m.store).exec m.env m.call).1 = .ok ()) ∧
      (m.call = .compact → (w m.store).carried m.env = []) ∧ Smooth (step w m) moves

/-- **Run.** Clocks and links stay in agreement in every log. -/
theorem causallyDated_run {S : Set Entry} (inj : Set.InjOn Entry.hash S) (hw : ∀ i, (w i).CausallyDated)
    (hin : ∀ i, (w i).oplog.All fun _ e => e ∈ S) (hmade : ∀ x ∈ created w moves, x.2 ∈ S)
    (honest : Honest w moves) (smooth : Smooth w moves) (i : ι) : (run w moves i).CausallyDated := by
  induction moves generalizing w with
  | nil => exact hw i
  | cons m moves ih =>
    obtain ⟨hmerge, honest⟩ := honest
    obtain ⟨hok, hempty, smooth⟩ := smooth
    have hstep : ((w m.store).exec m.env m.call).2.CausallyDated ∧
        ((w m.store).exec m.env m.call).2.oplog.All fun _ e => After S e := (hw m.store).exec inj (hin m.store)
      (fun e he => hmade (m.store, e) (List.mem_append_left _ (List.mem_map_of_mem he))) hempty
      fun es hes => ⟨fun e he => ?_, hok (by rw [hes]; rfl)⟩
    · have hmoved : ∀ k, (step w m k).CausallyDated ∧ (step w m k).oplog.All fun _ e => e ∈ S := fun k => by
        rw [step, Function.update_apply]
        split
        · exact ⟨hstep.1, hstep.2.mono fun _ _ he => he.mem⟩
        · exact ⟨hw k, hin k⟩
      exact ih (fun k => (hmoved k).1) (fun k => (hmoved k).2) (fun x hx => hmade x (List.mem_append_right _ hx))
        honest smooth
    · obtain ⟨j, h, hget⟩ := hmerge es hes e he
      exact (hw j).after inj (hin j) h e hget

/-- **Causes come along.** A fleet whose clocks and links agree at the start goes through any run of
writes, compactions and merges of what is in each other's logs, in which merges succeed, compactions
have nothing to carry over, and hashes do not collide. Then in every log an entry is no earlier than
those it descends from, and what `as_of` selects, at any time, has all that with it. -/
theorem as_of_has_causes (hw : ∀ i, (w i).CausallyDated) (inj : Set.InjOn Entry.hash (everything w moves))
    (honest : Honest w moves) (smooth : Smooth w moves) (i : ι) :
    let L := (run w moves i).oplog
    (∀ (a h : Hash) (x e : Entry), Dag.Ancestor L.nextOf a h → L.entries[a]? = some x →
      L.entries[h]? = some e → x.clock.stamp ≤ e.clock.stamp) ∧
    ∀ p l, ∃ es, L.entriesAsOf p l = some es ∧
      ∀ e ∈ es, ∀ a, Dag.Ancestor L.nextOf a e.hash → a ∈ es.map Entry.hash := by
  intro L
  have hs : (run w moves i).CausallyDated := causallyDated_run inj hw (fun j h e he => .inl ⟨j, h, he⟩)
    (fun x hx => .inr ⟨x.1, hx⟩) honest smooth i
  -- the entries up to a time are closed under parents
  have hclosed : ∀ cutoff, Dag.ParentClosed L.nextOf
      fun h => ∃ e, L.entries[h]? = some e ∧ e.clock.stamp ≤ cutoff := by
    rintro cutoff h ⟨e, he, hle⟩ p hp
    rw [nextOf_eq_of_get he] at hp
    obtain ⟨x, hx⟩ := HashMap.mem_iff_getElem?.mp (hs.wellFormed.rep.parents h e he p hp)
    exact ⟨x, hx, (hs.dated h e he p hp x hx).trans hle⟩
  refine ⟨fun a h x e ha hx he => ?_, fun p l => ?_⟩
  · obtain ⟨y, hy, hle⟩ := (hclosed e.clock.stamp).ancestor ha ⟨e, he, le_rfl⟩
    obtain rfl := Option.some.inj (hx.symm.trans hy)
    exact hle
  · obtain ⟨es, hes, -, hmem⟩ := entriesAsOf_spec (p := p) (l := l) hs.wellFormed
      fun h e he _ => hs.nextNodup h e he
    refine ⟨es, hes, fun e he a ha => ?_⟩
    obtain ⟨x, hx, hle⟩ := (hclosed (toLex (p, l))).ancestor ha ⟨e, (hmem e).mp he⟩
    obtain rfl := (hs.wellFormed.rep.keyed a x hx).1
    exact List.mem_map_of_mem ((hmem x).mpr ⟨hx, hle⟩)

end

end Fleet

namespace Sample

open Fleet

/-- Ann and bob, each with a new store. -/
def pair (i : Bool) : PyGraphStore := freshStore (if i then "ann" else "bob") guests

/-- What one of them holds after some moves. -/
def heldBy (moves : List (Move Bool)) (i : Bool) : List Entry :=
  (run pair moves i).oplog.entries.toList.map Prod.snd

/-- Ann writes. -/
def firstMove : List (Move Bool) := [⟨true, env, .addNode "ann" "person" "Ann" ∅ none⟩]

/-- Bob merges her log and writes. -/
def threeMoves : List (Move Bool) :=
  firstMove ++ [⟨false, env, .merge (heldBy firstMove true)⟩, ⟨false, env, .addNode "bob" "person" "Bob" ∅ none⟩]

/-- Ann merges his. -/
def fourMoves : List (Move Bool) := threeMoves ++ [⟨true, env, .merge (heldBy threeMoves false)⟩]

end Sample

namespace Fleet

open PyGraphStore Sample

theorem causallyDated_pair (i : Bool) : (pair i).CausallyDated := by
  have valid : guests.validateSelf = .ok () := by decide +kernel
  have hrun : ∀ name, PyGraphStore.new Sample.env name guests none = .ok (freshStore name guests) := fun name => by
    simp only [PyGraphStore.new, valid]
    rfl
  exact .new (hrun _)

/-- What was held after some moves is held then. -/
theorem held_heldBy (moves : List (Move Bool)) (i : Bool) :
    ∀ e ∈ heldBy moves i, ∃ j, ∃ h : Hash, (run pair moves j).oplog.entries[h]? = some e := fun e he => by
  obtain ⟨kv, hkv, rfl⟩ := List.mem_map.mp he
  exact ⟨i, kv.1, HashMap.mem_toList.mp hkv⟩

theorem everything_pair (moves : List (Move Bool)) : everything pair moves ⊆
    {e | e ∈ [genesis Sample.env "ann" guests, genesis Sample.env "bob" guests] ++ (created pair moves).map Prod.snd} := by
  rintro e (⟨i, h, he⟩ | ⟨i, he⟩)
  · have hroot : ∀ name, (freshStore name guests).oplog.entries[h]? = some e →
        e = genesis Sample.env name guests := fun name he => by
      have hget := (OpLog.getElem?_new (genesis Sample.env name guests) h).symm.trans he
      split at hget
      · exact (Option.some.inj hget).symm
      · cases hget
    cases i with
    | false => exact List.mem_append_left _ (List.mem_cons_of_mem _ (List.mem_singleton.mpr (hroot "bob" he)))
    | true => exact List.mem_append_left _ (List.mem_cons.mpr (.inl (hroot "ann" he)))
  · exact List.mem_append_right _ (List.mem_map_of_mem he)

/-- Ann's log up to her own entry: the two roots are there too. -/
theorem as_of_has_causes_pair :
    ∃ es, (run pair fourMoves true).oplog.entriesAsOf 1 2 = some es ∧ es.length = 3 ∧
      ∀ e ∈ es, ∀ a, Dag.Ancestor (run pair fourMoves true).oplog.nextOf a e.hash → a ∈ es.map Entry.hash := by
  have hnodup : (([genesis Sample.env "ann" guests, genesis Sample.env "bob" guests] ++
      (created pair fourMoves).map Prod.snd).map Entry.hash).Nodup := by decide +kernel
  have inj : Set.InjOn Entry.hash (everything pair fourMoves) := fun x hx y hy h =>
    List.inj_on_of_nodup_map hnodup (everything_pair _ hx) (everything_pair _ hy) h
  have honest : Honest pair fourMoves := by
    refine ⟨fun es h => (by cases h), fun es h => ?_, fun es h => (by cases h), fun es h => ?_, trivial⟩
    · obtain rfl := Call.merge.inj h
      exact held_heldBy firstMove true
    · obtain rfl := Call.merge.inj h
      exact held_heldBy threeMoves false
  have smooth : Smooth pair fourMoves := by
    refine ⟨fun h => (by cases h), fun h => (by cases h), fun _ => ?_, fun h => (by cases h), fun h => (by cases h),
      fun h => (by cases h), fun _ => ?_, fun h => (by cases h), trivial⟩
    · decide +kernel
    · decide +kernel
  obtain ⟨es, hes, hcauses⟩ := (as_of_has_causes causallyDated_pair inj honest smooth true).2 1 2
  have hlen : ((run pair fourMoves true).oplog.entriesAsOf 1 2).map List.length = some 3 := by decide +kernel
  rw [hes] at hlen
  exact ⟨es, hes, Option.some.inj hlen, hcauses⟩

end Fleet

end SilkGraph
