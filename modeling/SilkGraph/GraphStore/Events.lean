import SilkGraph.GraphStore.ReadBack
import SilkGraph.GraphStore.Resolved

/-!
# What subscribers hear of a merge

A merge notifies subscribers from two places. After a schema change the graph is
re-materialized, and every entry that left quarantine is announced. Then, in any case, every
listed entry whose hash is in the payload is announced, whether the merge has inserted it or
not. So an entry that the payload repeats is announced once more, and one that leaves
quarantine without a schema change, an edge whose missing node arrives, is not announced at
all. `events_heard_once` says when every change is announced exactly once.
-/

namespace SilkGraph

open OpLog MaterializedGraph

namespace MaterializedGraph

/-- The edge lacks an endpoint that is not going to be added. -/
def Blocked (self : MaterializedGraph) (added : String → Prop) (p : Entry) : Prop :=
  ∀ id ty src tgt ps, p.payload = .addEdge id ty src tgt ps →
    (self.typeOf src = none ∧ ¬ added src) ∨ (self.typeOf tgt = none ∧ ¬ added tgt)

/-- The node an entry adds. -/
def adds (e : Entry) (id : String) : Prop :=
  ∃ ty st lb ps, e.payload = .addNode id ty st lb ps

variable [Crates] {g : MaterializedGraph} {added : String → Prop} {e p : Entry} {h : Hash}

omit [Crates] in
theorem Blocked.not_ready (hb : g.Blocked added p) : g.isReady p = false := by
  by_contra hready
  obtain ⟨id, ty, src, tgt, ps, hp, hsrc, htgt⟩ := isReady_iff.mp ((Bool.not_eq_false _).mp hready)
  obtain ⟨hnone, -⟩ | ⟨hnone, -⟩ := hb id ty src tgt ps hp
  · rw [hnone] at hsrc
    cases hsrc
  · rw [hnone] at htgt
    cases htgt

/-- **Step.** An entry with another hash, whose node is among those to be added, leaves a
quarantined hash in quarantine if no edge is held under it, or one that stays blocked. -/
theorem quarantined_of_blocked (hg : g.Settled) (σ : HashOrder) (he : e.Ordinary)
    (hadds : ∀ id, adds e id → added id) (hne : e.hash ≠ h) (hq : h ∈ g.quarantined)
    (hb : ∀ p, g.pendingEdges[h]? = some p → g.Blocked added p) :
    h ∈ (g.apply σ e).quarantined ∧
      ∀ p, (g.apply σ e).pendingEdges[h]? = some p → (g.apply σ e).Blocked added p := by
  have hheld : g.HeldByHash := fun x p hp => (hg x p hp).1
  have htypes : ∀ i, ¬ added i → g.typeOf i = none → (g.apply σ e).typeOf i = none := by
    intro i hi hnone
    obtain ⟨-, htypes, -⟩ := applyInner_frame g σ he .full true
    rw [MaterializedGraph.apply, htypes i]
    split
    · rename_i id ty st lb ps hp
      split
      · rename_i hadd
        exact absurd (hadds i ⟨ty, st, lb, ps, hadd.2 ▸ hp⟩) hi
      · exact hnone
    · exact hnone
  have hkeep : ∀ p, g.Blocked added p → (g.apply σ e).Blocked added p :=
    fun p hp id ty src tgt ps hpay => (hp id ty src tgt ps hpay).imp
      (fun hs => ⟨htypes src hs.2 hs.1, hs.2⟩) fun ht => ⟨htypes tgt ht.2 ht.1, ht.2⟩
  have hretried : ∀ p ∈ g.retried σ .full e, p.hash ≠ h := by
    rintro p hp rfl
    obtain ⟨hready, x, hx⟩ := ready_of_retried hp
    have hxp := hheld x p hx
    subst hxp
    have hblocked : (g.withNode e).Blocked added p := by
      intro id ty src tgt ps hpay
      have hwith : ∀ i, ¬ added i → g.typeOf i = none → (g.withNode e).typeOf i = none := by
        intro i hi hnone
        rw [withNode]
        split
        · rename_i nid nty st lb nps hnode
          rw [typeOf_applyAddNode, if_neg, hnone]
          rintro rfl
          exact hi (hadds nid ⟨nty, st, lb, nps, hnode⟩)
        · exact hnone
      exact (hb p hx id ty src tgt ps hpay).imp
        (fun hs => ⟨hwith src hs.2 hs.1, hs.2⟩) fun ht => ⟨hwith tgt ht.2 ht.1, ht.2⟩
    rw [hblocked.not_ready] at hready
    cases hready
  constructor
  · refine (mem_quarantined_applyInner hheld σ he .full true).mpr (.inr ⟨hretried, ?_⟩)
    rw [if_neg fun hc => hne hc.1]
    exact hq
  · intro p hp
    rw [MaterializedGraph.apply, getElem?_pending_applyInner g σ he .full true h] at hp
    split at hp
    · cases hp
    · rw [if_neg fun hc => hne hc.1] at hp
      exact hkeep p (hb p hp)

/-- **Run.** Such entries, one after the other. -/
theorem quarantined_applyAll_of_blocked (hg : g.Settled) (σ : HashOrder) {es : List Entry}
    (hes : ∀ e ∈ es, e.Ordinary ∧ (∀ id, adds e id → added id) ∧ e.hash ≠ h)
    (hq : h ∈ g.quarantined) (hb : ∀ p, g.pendingEdges[h]? = some p → g.Blocked added p) :
    h ∈ (g.applyAll σ es).quarantined := by
  induction es generalizing g with
  | nil => exact hq
  | cons e es ih =>
    obtain ⟨he, hadds, hne⟩ := hes e List.mem_cons_self
    obtain ⟨hq', hb'⟩ := quarantined_of_blocked hg σ he hadds hne hq hb
    exact ih (settled_invariant.applyAny hg σ e true) (fun x hx => hes x (List.mem_cons_of_mem e hx)) hq' hb'

end MaterializedGraph

namespace PyGraphStore

section

variable [Crates]

/-- What `revalidate` announces, given the listing of the log: the entries that leave
quarantine. -/
def freedEvents (self : PyGraphStore) (env : Env) (all : List Entry) : List Entry :=
  let graph := self.graph.rebuild env.order all
  (env.order.walk self.graph.quarantined.keys).filterMap fun h =>
    if graph.quarantined.contains h then none else all.find? fun e => e.hash == h

/-- What a merge announces, in order. -/
def mergeEvents (self : PyGraphStore) (env : Env) (entries : List Entry) : List Entry :=
  let validEntries := entries.filter self.admits
  let candidates : HashSet Hash := Std.ExtTreeSet.ofList (validEntries.map Entry.hash) compare
  match self.backend.merge env.order (env.txn 0) validEntries with
  | (.ok (_ + 1), backend) =>
    match backend.oplog.entriesSince none with
    | none => []
    | some all =>
      (if validEntries.any isSchemaChange then self.freedEvents env all else []) ++
        all.filter fun e => candidates.contains e.hash
  | _ => []

/-- Every change is heard of exactly once: the events are entries of the log, one for each
entry that the merge has inserted and one for each entry of the log before that has left
quarantine. -/
def HeardOnce (self : PyGraphStore) (env : Env) (entries : List Entry) : Prop :=
  ∀ n, (self.mergeEntriesVec env entries).1 = .ok n →
    let s' := (self.mergeEntriesVec env entries).2
    (∀ e ∈ self.mergeEvents env entries, s'.oplog.entries[e.hash]? = some e) ∧
      ∀ h, ((self.mergeEvents env entries).map Entry.hash).count h =
        (if h ∈ s'.oplog.entries ∧ h ∉ self.oplog.entries then 1 else 0) +
          if h ∈ self.oplog.entries ∧ h ∈ self.graph.quarantined ∧ h ∉ s'.graph.quarantined then 1
          else 0

/-- The condition on a payload that brings something: it repeats nothing, no parent is named
twice in the merged log, a checkpoint that replaces the log finds nothing in quarantine, and
without a schema change no held edge gets the endpoints it lacks. -/
structure HeardCond (s : PyGraphStore) (entries : List Entry) : Prop where
  wellFormed : s.oplog.WellFormed
  fresh : ∀ e ∈ entries.filter s.admits,
    e.hash ∉ s.oplog.entries ∧ e.hash ∉ s.graph.quarantined
  nextNodup : (mergeBatch s.oplog (entries.filter s.admits)).2.NextNodup
  kept : NoReplace s.oplog (entries.filter s.admits) ∨
    ∀ h ∈ s.oplog.entries, h ∉ s.graph.quarantined
  blocked : (entries.filter s.admits).any isSchemaChange = false →
    ∀ (h : Hash) (p : Entry), s.graph.pendingEdges[h]? = some p →
      s.graph.Blocked (fun id => ∃ e ∈ entries.filter s.admits, adds e id) p

/-- The payload brings nothing: every admitted entry is in the log. -/
def NothingNew (self : PyGraphStore) (entries : List Entry) : Prop :=
  ∀ e ∈ entries.filter self.admits, e.hash ∈ self.oplog.entries

variable {s : PyGraphStore} {env : Env} {es all : List Entry} {h : Hash} {n : ℕ}

/-! ### Counting events -/

theorem mergeEvents_of_zero
    (hzero : (s.backend.merge env.order (env.txn 0) (es.filter s.admits)).1 = .ok 0) :
    s.mergeEvents env es = [] := by
  rw [mergeEvents]
  generalize s.backend.merge env.order (env.txn 0) (es.filter s.admits) = r at hzero
  obtain ⟨r, b⟩ := r
  obtain rfl : r = .ok 0 := hzero
  rfl

theorem mergeEvents_of_succ
    (hok : (s.backend.merge env.order (env.txn 0) (es.filter s.admits)).1 = .ok (n + 1))
    (hall : (s.backend.merge env.order (env.txn 0) (es.filter s.admits)).2.oplog.entriesSince none =
      some all) :
    s.mergeEvents env es = (if (es.filter s.admits).any isSchemaChange then s.freedEvents env all else []) ++
      listedOf all (es.filter s.admits) := by
  rw [mergeEvents]
  generalize s.backend.merge env.order (env.txn 0) (es.filter s.admits) = r at hok hall
  obtain ⟨r, b⟩ := r
  obtain rfl : r = .ok (n + 1) := hok
  dsimp only at hall ⊢
  rw [hall]
  rfl

/-- The hashes announced by a re-materialization. -/
theorem map_hash_freedEvents (s : PyGraphStore) (env : Env) (all : List Entry) :
    (s.freedEvents env all).map Entry.hash = (env.order.walk s.graph.quarantined.keys).filter fun h =>
      !(s.graph.rebuild env.order all).quarantined.contains h && decide (h ∈ all.map Entry.hash) := by
  rw [freedEvents, List.map_filterMap, ← List.filterMap_eq_filter]
  refine List.filterMap_congr fun h _ => ?_
  rw [Option.guard]
  cases (s.graph.rebuild env.order all).quarantined.contains h with
  | true => rfl
  | false =>
    rw [if_neg Bool.false_ne_true, Bool.not_false, Bool.true_and]
    cases hf : all.find? fun e => e.hash == h with
    | none =>
      have hnone : h ∉ all.map Entry.hash := fun hin => by
        obtain ⟨e, he, rfl⟩ := List.mem_map.mp hin
        have hno := List.find?_eq_none.mp hf e he
        simp at hno
      simp [hnone]
    | some e =>
      obtain rfl : e.hash = h := by simpa using List.find?_some hf
      have hin : e.hash ∈ all.map Entry.hash := List.mem_map_of_mem (List.mem_of_find?_eq_some hf)
      simp [hin]

theorem mem_of_mem_freedEvents {e : Entry} (he : e ∈ s.freedEvents env all) : e ∈ all := by
  obtain ⟨h, -, hf⟩ := List.mem_filterMap.mp he
  split at hf
  · cases hf
  · exact List.mem_of_find?_eq_some hf

/-- How often a re-materialization announces a hash. -/
private theorem count_freed (s : PyGraphStore) (env : Env) :
    ((s.freedEvents env all).map Entry.hash).count h =
      if h ∈ s.graph.quarantined ∧ h ∉ (s.graph.rebuild env.order all).quarantined ∧
        h ∈ all.map Entry.hash then 1 else 0 := by
  have hkeys : ((env.order.walk s.graph.quarantined.keys).filter fun h =>
      !(s.graph.rebuild env.order all).quarantined.contains h &&
        decide (h ∈ all.map Entry.hash)).Nodup :=
    (((env.order.perm _).nodup_iff).mpr Std.ExtTreeMap.nodup_keys).filter _
  rw [map_hash_freedEvents, hkeys.count]
  refine if_congr ?_ rfl rfl
  rw [List.mem_filter, HashOrder.mem_walk, Std.ExtTreeMap.mem_keys, Bool.and_eq_true,
    Bool.not_eq_true', ← Bool.not_eq_true, Std.ExtTreeMap.contains_iff_mem, decide_eq_true_eq]

/-- **How often a hash is announced** by a merge that inserts something. -/
theorem count_mergeEvents (hnd : (all.map Entry.hash).Nodup)
    (hok : (s.backend.merge env.order (env.txn 0) (es.filter s.admits)).1 = .ok (n + 1))
    (hall : (s.backend.merge env.order (env.txn 0) (es.filter s.admits)).2.oplog.entriesSince none =
      some all) : ((s.mergeEvents env es).map Entry.hash).count h =
        (if (es.filter s.admits).any isSchemaChange = true ∧ h ∈ s.graph.quarantined ∧
          h ∉ (s.graph.rebuild env.order all).quarantined ∧ h ∈ all.map Entry.hash then 1 else 0) +
        if h ∈ all.map Entry.hash ∧ h ∈ (es.filter s.admits).map Entry.hash then 1 else 0 := by
  have hlisted : ((listedOf all (es.filter s.admits)).map Entry.hash).count h =
      if h ∈ all.map Entry.hash ∧ h ∈ (es.filter s.admits).map Entry.hash then 1 else 0 := by
    have hsub : ((listedOf all (es.filter s.admits)).map Entry.hash).Sublist (all.map Entry.hash) :=
      List.filter_sublist.map Entry.hash
    rw [(hsub.nodup hnd).count]
    refine if_congr ⟨fun hin => ?_, fun ⟨hin, hbatch⟩ => ?_⟩ rfl rfl
    · obtain ⟨e, he, rfl⟩ := List.mem_map.mp hin
      exact ⟨List.mem_map_of_mem (mem_listedOf.mp he).1, (mem_listedOf.mp he).2⟩
    · obtain ⟨e, he, rfl⟩ := List.mem_map.mp hin
      exact List.mem_map_of_mem (mem_listedOf.mpr ⟨he, hbatch⟩)
  rw [mergeEvents_of_succ hok hall, List.map_append, List.count_append, hlisted]
  refine congrArg (· + _) ?_
  cases (es.filter s.admits).any isSchemaChange with
  | true => simp [count_freed s env]
  | false => simp

/-! ### A merge that inserts something -/

/-- What a merged log holds, it held before or the batch brings. -/
theorem held_or_brought (hk : s.oplog.All fun h e => e.hash = h) (batch : List Entry) :
    (mergeBatch s.oplog batch).2.All fun h e => e.hash = h ∧ (s.oplog.entries[h]? = some e ∨ e ∈ batch) :=
  mergeBatch_all (fun h e he => ⟨hk h e he, .inl he⟩) _ fun _ he => ⟨rfl, .inr he⟩

omit [Crates] in
/-- An entry of a payload without a schema change is applied as it comes. -/
theorem ordinary_of_plain {batch : List Entry} {e : Entry} (hplain : batch.any isSchemaChange = false)
    (he : e ∈ batch) : e.Ordinary := by
  have hno := List.any_eq_false.mp hplain e he
  rw [isSchemaChange, Bool.or_eq_true, not_or] at hno
  exact ⟨(Bool.not_eq_true _).mp hno.1, (Bool.not_eq_true _).mp hno.2⟩

/-- Without a schema change nothing leaves quarantine, if no held edge gets the endpoints it
lacks and the payload repeats nothing. -/
theorem quarantined_of_heardCond (hs : Reachable s) (hc : s.HeardCond es)
    (hplain : (es.filter s.admits).any isSchemaChange = false)
    (hall : ∀ e ∈ all, (mergeBatch s.oplog (es.filter s.admits)).2.entries[e.hash]? = some e)
    (hh : h ∈ s.oplog.entries) (hq : h ∈ s.graph.quarantined) :
    h ∈ (s.graph.applyAll env.order (listedOf all (es.filter s.admits))).quarantined := by
  refine quarantined_applyAll_of_blocked hs.settled env.order (fun e he => ?_) hq
    (hc.blocked hplain h)
  obtain ⟨hin, hbatch⟩ := mem_listedOf.mp he
  obtain ⟨b, hb, hbe⟩ := List.mem_map.mp hbatch
  have hnew : e.hash ∉ s.oplog.entries := hbe ▸ (hc.fresh b hb).1
  obtain ⟨-, hold | hin⟩ := held_or_brought (fun x a ha => (hc.wellFormed.rep.keyed x a ha).1)
    (es.filter s.admits) _ e (hall e hin)
  · exact absurd (HashMap.mem_iff_getElem?.mpr ⟨e, hold⟩) hnew
  · exact ⟨ordinary_of_plain hplain hin, fun id hid => ⟨e, hin, hid⟩, fun heq => hnew (heq ▸ hh)⟩

/-- A payload that meets the condition is announced as it should be. -/
theorem heardOnce_of_heardCond (hs : Reachable s) (hc : s.HeardCond es) : s.HeardOnce env es := by
  intro n hn
  have hlog := mergeEntriesVec_log s env es
  have hwf : (mergeBatch s.oplog (es.filter s.admits)).2.WellFormed := (mergeBatch_any hc.wellFormed _).1
  have hkeyed : s.oplog.All fun h e => e.hash = h := fun x a ha => (hc.wellFormed.rep.keyed x a ha).1
  have hfrom := held_or_brought hkeyed (es.filter s.admits)
  rcases s.mergeEntriesVec_cases env es with ⟨msg, -, hrun⟩ | ⟨hzero, hrun⟩ | ⟨m, -, -, hrun⟩ |
    ⟨m, all, hok, hall, hrun⟩
  · rw [hrun] at hn
    cases hn
  · -- nothing is inserted, nothing is announced
    have hsame : (s.mergeEntriesVec env es).2.oplog = s.oplog := by
      rw [hrun]
      exact oplog_of_merge_zero hzero
    have hgraph : (s.mergeEntriesVec env es).2.graph = s.graph := by rw [hrun]
    simp [mergeEvents_of_zero hzero, hsame, hgraph]
  · rw [hrun] at hn
    cases hn
  · have hlisting := hall
    rw [Backend.merge_oplog] at hlisting
    obtain ⟨all', hall', hnd, hmem, -⟩ := entriesSince_none_spec hwf hc.nextNodup
      ((isSome_entriesSince_iff hwf).mp (Option.isSome_iff_exists.mpr ⟨all, hlisting⟩))
    obtain rfl := Option.some.inj (hall'.symm.trans hlisting)
    have hlisted : ∀ h, h ∈ all'.map Entry.hash ↔
        h ∈ (mergeBatch s.oplog (es.filter s.admits)).2.entries := by
      refine fun h => ⟨fun hin => ?_, fun hin => ?_⟩
      · obtain ⟨e, he, rfl⟩ := List.mem_map.mp hin
        exact HashMap.mem_iff_getElem?.mpr ⟨e, (hmem e).mp he⟩
      · obtain ⟨e, he⟩ := HashMap.mem_iff_getElem?.mp hin
        obtain ⟨rfl, -⟩ := hfrom h e he
        exact List.mem_map_of_mem ((hmem e).mpr he)
    have hheld : ∀ h ∈ (mergeBatch s.oplog (es.filter s.admits)).2.entries,
        h ∈ s.oplog.entries ∨ h ∈ (es.filter s.admits).map Entry.hash := fun h hin => by
      obtain ⟨e, he⟩ := HashMap.mem_iff_getElem?.mp hin
      obtain ⟨rfl, hold | hin⟩ := hfrom h e he
      · exact .inl (HashMap.mem_iff_getElem?.mpr ⟨e, hold⟩)
      · exact .inr (List.mem_map_of_mem hin)
    have hfresh : ∀ h ∈ (es.filter s.admits).map Entry.hash,
        h ∉ s.oplog.entries ∧ h ∉ s.graph.quarantined := fun h hin => by
      obtain ⟨e, he, rfl⟩ := List.mem_map.mp hin
      exact hc.fresh e he
    dsimp only
    rw [hlog]
    refine ⟨fun e he => ?_, fun h => ?_⟩
    · rw [mergeEvents_of_succ hok hall, List.mem_append] at he
      refine (hmem e).mp ?_
      rcases he with he | he
      · split at he
        · exact mem_of_mem_freedEvents he
        · cases he
      · exact (mem_listedOf.mp he).1
    · obtain ⟨-, hgraph⟩ := mergeEntriesVec_of_ok s env _ (Prod.ext hok rfl) hall
      rw [if_neg (Nat.succ_ne_zero m)] at hgraph
      rw [count_mergeEvents hnd hok hall, Nat.add_comm]
      simp only [hlisted]
      refine congrArg₂ (· + ·) (if_congr ⟨fun hin => ⟨hin.1, (hfresh h hin.2).1⟩,
        fun hin => ⟨hin.1, (hheld h hin.1).resolve_left hin.2⟩⟩ rfl rfl) (if_congr ?_ rfl rfl)
      cases hschema : (es.filter s.admits).any isSchemaChange with
      | true =>
        rw [hgraph, if_pos hschema]
        constructor
        · rintro ⟨-, hq, hfree, hin⟩
          exact ⟨(hheld h hin).resolve_right fun hb => (hfresh h hb).2 hq, hq, hfree⟩
        · rintro ⟨hin, hq, hfree⟩
          refine ⟨rfl, hq, hfree, ?_⟩
          rcases hc.kept with hn | hn
          · obtain ⟨e, he⟩ := HashMap.mem_iff_getElem?.mp hin
            exact HashMap.mem_iff_getElem?.mpr ⟨e, mergeBatch_keeps hs.nonempty
              (hn.mono (.nil _) (List.takeWhile_subset _)) h e he⟩
          · exact absurd hq (hn h hin)
      | false =>
        rw [hgraph, if_neg (by rw [hschema]; exact nofun)]
        constructor
        · rintro ⟨hf, -⟩
          cases hf
        · rintro ⟨hin, hq, hfree⟩
          exact absurd (quarantined_of_heardCond hs hc hschema (fun e he => (hmem e).mp he) hin hq) hfree

/-- A payload that brings nothing is not announced. -/
theorem heardOnce_of_nothingNew (hs : Reachable s) (hn : s.NothingNew es) : s.HeardOnce env es := by
  intro n hok
  have hnothing : InsertsNothing s.oplog (es.filter s.admits) :=
    fun e he hi => hi.2.1 (hn e (List.takeWhile_subset _ he))
  obtain ⟨-, hempty⟩ := mergeBatch_insertsNothing hs.nonempty hnothing
  rcases s.mergeEntriesVec_cases env es with ⟨msg, -, hrun⟩ | ⟨hzero, hrun⟩ | ⟨m, -, -, hrun⟩ |
    ⟨m, all, hm, -, -⟩
  · rw [hrun] at hok
    cases hok
  · have hsame : (s.mergeEntriesVec env es).2.oplog = s.oplog := by
      rw [hrun]
      exact oplog_of_merge_zero hzero
    have hgraph : (s.mergeEntriesVec env es).2.graph = s.graph := by rw [hrun]
    simp [mergeEvents_of_zero hzero, hsame, hgraph]
  · rw [hrun] at hok
    cases hok
  · obtain ⟨new, hnew, hlen⟩ := mergeBatch_of_backend hm
    rw [hempty new hnew] at hlen
    cases hlen

/-- Where the condition is also necessary: the merge succeeds on a log that names no parent
twice, replaces nothing, repeats nothing quarantined and releases no held edge. -/
structure HeardDomain (s : PyGraphStore) (env : Env) (entries : List Entry) : Prop where
  succeeds : ∃ n, (s.mergeEntriesVec env entries).1 = .ok n
  wellFormed : s.oplog.WellFormed
  nextNodup : s.oplog.NextNodup
  noReplace : NoReplace s.oplog (entries.filter s.admits)
  plain : ∀ e ∈ entries.filter s.admits, e.hash ∉ s.graph.quarantined
  blocked : (entries.filter s.admits).any isSchemaChange = false →
    ∀ (h : Hash) (p : Entry), s.graph.pendingEdges[h]? = some p →
      s.graph.Blocked (fun id => ∃ e ∈ entries.filter s.admits, adds e id) p

/-- There a payload that is announced as it should be brings nothing or meets the condition. -/
theorem heardCond_of_heardOnce (hs : Reachable s) (hd : s.HeardDomain env es)
    (hheard : s.HeardOnce env es) : s.NothingNew es ∨ s.HeardCond es := by
  obtain ⟨n, hn⟩ := hd.succeeds
  obtain ⟨hsub, hcount⟩ := hheard n hn
  rw [mergeEntriesVec_log] at hsub hcount
  have hwf : (mergeBatch s.oplog (es.filter s.admits)).2.WellFormed := (mergeBatch_any hd.wellFormed _).1
  have hkeeps : Keeps s.oplog (mergeBatch s.oplog (es.filter s.admits)).2 :=
    mergeBatch_keeps hs.nonempty (hd.noReplace.mono (.nil _) (List.takeWhile_subset _))
  rcases s.mergeEntriesVec_cases env es with ⟨msg, -, hrun⟩ | ⟨hzero, -⟩ | ⟨m, -, -, hrun⟩ |
    ⟨m, all, hok, hall, -⟩
  · rw [hrun] at hn
    cases hn
  · obtain ⟨new, hnew, -⟩ := mergeBatch_of_backend hzero
    have hsame := oplog_of_merge_zero hzero
    rw [Backend.merge_oplog] at hsame
    refine .inl fun e he => ?_
    have hin := ((mergeBatch_ok hs.nonempty hd.noReplace hnew).2.2 e he).2
    change e.hash ∈ s.backend.oplog.entries
    rw [← hsame]
    exact hin
  · rw [hrun] at hn
    cases hn
  · obtain ⟨new, hnew, -⟩ := mergeBatch_of_backend hok
    have hbrought := (mergeBatch_ok hs.nonempty hd.noReplace hnew).2.2
    have hlisting := hall
    rw [Backend.merge_oplog] at hlisting
    -- what is inserted is announced, so it is listed, so it names no parent twice
    have hnd : (mergeBatch s.oplog (es.filter s.admits)).2.NextNodup := by
      intro x e he
      obtain rfl := (hwf.rep.keyed x e he).1
      by_cases hold : e.hash ∈ s.oplog.entries
      · obtain ⟨e', he'⟩ := HashMap.mem_iff_getElem?.mp hold
        obtain rfl := Option.some.inj ((hkeeps _ e' he').symm.trans he)
        exact hd.nextNodup _ e' he'
      · have hpos := hcount e.hash
        rw [if_pos ⟨HashMap.mem_iff_getElem?.mpr ⟨e, he⟩, hold⟩] at hpos
        obtain ⟨ev, hev, heq⟩ := List.mem_map.mp
          (List.count_pos_iff.mp (show 0 < _ by rw [hpos]; omega))
        have hget := hsub ev hev
        rw [heq] at hget
        obtain rfl := Option.some.inj (hget.symm.trans he)
        refine next_nodup_of_listed hwf hlisting he ?_
        rw [mergeEvents_of_succ hok hall, List.mem_append] at hev
        rcases hev with hev | hev
        · split at hev
          · exact mem_of_mem_freedEvents hev
          · cases hev
        · exact (mem_listedOf.mp hev).1
    obtain ⟨all', hall', hlnd, hmem, -⟩ := entriesSince_none_spec hwf hnd
      ((isSome_entriesSince_iff hwf).mp (Option.isSome_iff_exists.mpr ⟨all, hlisting⟩))
    obtain rfl := Option.some.inj (hall'.symm.trans hlisting)
    refine .inr ⟨hd.wellFormed, fun e he => ⟨fun hold => ?_, hd.plain e he⟩, hnd, .inl hd.noReplace,
      hd.blocked⟩
    -- a repeated entry is announced, though nothing happens to it
    obtain ⟨e', he'⟩ := HashMap.mem_iff_getElem?.mp (hbrought e he).2
    have hin : e.hash ∈ all'.map Entry.hash := by
      have hkey := (hwf.rep.keyed _ e' he').1
      refine List.mem_map.mpr ⟨e', (hmem e').mpr ?_, hkey⟩
      rw [hkey]
      exact he'
    have htwice := hcount e.hash
    rw [count_mergeEvents hlnd hok hall, if_neg fun hq => hd.plain e he hq.2.1,
      if_pos ⟨hin, List.mem_map_of_mem he⟩, if_neg fun hnew => hnew.2 hold,
      if_neg fun hq => hd.plain e he hq.2.1] at htwice
    omega

/-- **Events.** In every reachable store a merge announces every change exactly once, if the
payload brings nothing or meets the condition; and where the merge succeeds, replaces
nothing, repeats nothing quarantined and releases no held edge, only then. -/
theorem events_heard_once (s : PyGraphStore) (hs : Reachable s) (env : Env) (es : List Entry) :
    Decides (s.HeardDomain env es) (s.NothingNew es ∨ s.HeardCond es) (s.HeardOnce env es) :=
  ⟨fun hc => hc.elim (heardOnce_of_nothingNew hs) (heardOnce_of_heardCond hs),
    fun hd hheard => heardCond_of_heardOnce hs hd hheard⟩

end

open Sample in
/-- A new store that merges an edge removal of a peer announces it, and it meets the condition. -/
theorem events_heard_once_fresh :
    let s := freshStore "ann" machines
    let e := Entry.new (.removeEdge "x") [(genesis env "ann" machines).hash] [] ⟨"bob", 1, 1⟩ "bob"
    Reachable s ∧ s.HeardCond [e] ∧ s.HeardOnce env [e] ∧ (s.mergeEvents env [e]).length = 1 := by
  intro s e
  have hs : Reachable s := reachable_freshStore (by decide +kernel)
  have hsub : ∀ a ∈ [e].filter s.admits, a = e :=
    fun a ha => List.mem_singleton.mp (List.mem_of_mem_filter ha)
  have hcond : s.HeardCond [e] := by
    refine ⟨.new (Entry.verifyHash_new ..) rfl, fun a ha => ?_, fun x a ha => ?_, .inl fun a ha _ hroot => ?_,
      fun _ x p hp => ?_⟩
    · obtain rfl := hsub a ha
      have hfresh : (s.oplog.entries.contains e.hash || s.graph.quarantined.contains e.hash) = false := by
        decide +kernel
      rw [Bool.or_eq_false_iff] at hfresh
      rw [← Std.ExtTreeMap.contains_iff_mem, ← Std.ExtTreeMap.contains_iff_mem, hfresh.1, hfresh.2]
      exact ⟨Bool.false_ne_true, Bool.false_ne_true⟩
    · have hall : (mergeBatch s.oplog ([e].filter s.admits)).2.All fun _ a => a.next.Nodup :=
        mergeBatch_all (.new List.nodup_nil) _ fun a ha => by
          rw [hsub a ha]
          exact List.nodup_singleton _
      exact hall x a ha
    · obtain rfl := hsub a ha
      cases hroot
    · exact absurd hp (by simp [s, freshStore, MaterializedGraph.new])
  exact ⟨hs, hcond, (events_heard_once s hs env [e]).1 (.inr hcond), by decide +kernel⟩

open Sample in
/-- A payload that repeats the genesis beside something new has the genesis announced again.
And an edge that arrives before its nodes is announced then, but not when they come. -/
theorem events_repeated_or_missed :
    let g := genesis env "ann" fleet
    let s := freshStore "ann" fleet
    let news := Entry.new (.removeEdge "x") [g.hash] [] ⟨"bob", 1, 1⟩ "bob"
    let edge := Entry.new (.addEdge "e" "knows" "p" "q" ∅) [g.hash] [] ⟨"bob", 1, 1⟩ "bob"
    let p := Entry.new (.addNode "p" "person" none "P" ∅) [g.hash] [] ⟨"bob", 1, 2⟩ "bob"
    let q := Entry.new (.addNode "q" "person" none "Q" ∅) [g.hash] [] ⟨"bob", 1, 3⟩ "bob"
    let waiting := (s.exec env (.merge [edge])).2
    (Reachable s ∧ ¬ s.HeardOnce env [g, news]) ∧ Reachable waiting ∧ ¬ waiting.HeardOnce env [p, q] := by
  intro g s news edge p q waiting
  have hs : Reachable s := reachable_freshStore (by decide +kernel)
  refine ⟨⟨hs, fun h => ?_⟩, .call hs env _, fun h => ?_⟩
  · have hok : (s.mergeEntriesVec env [g, news]).1 = .ok 1 := by decide +kernel
    have hcount := (h 1 hok).2 g.hash
    revert hcount
    decide +kernel
  · have hok : (waiting.mergeEntriesVec env [p, q]).1 = .ok 2 := by decide +kernel
    have hcount := (h 2 hok).2 edge.hash
    revert hcount
    decide +kernel

end PyGraphStore

end SilkGraph
