import SilkGraph.OpLog.Enumeration
import SilkGraph.Sync.Delivery

/-!
# Tail subscriptions

`python/tail.rs`: a subscription keeps a cursor of hashes, and each `next_batch` returns some
entries past it and moves it. The log is the buffer. What threads do while a call is blocked
is an argument of the call (`Wake`).

* `tryFetch_spec`: what one look at the log delivers, and where it leaves the cursor.
* `tail_exactly_once`: runs in which every batch is cut at an entry above all that was
  delivered before.
-/

namespace SilkGraph

open OpLog

/-- A cursor-based tail of the store's log. -/
structure TailSubscription where
  cursor : List Hash
  closed : Bool := false

/-- What a blocked call finds when it wakes up. -/
structure Wake where
  oplog : OpLog
  /-- Whether the subscription or the bell has been closed meanwhile. -/
  closed : Bool := false

namespace TailSubscription

/-- Subscribe from a cursor. -/
def new (cursor : List Hash) : TailSubscription := { cursor }

/-- The cursor after a batch of the given entries: the last one delivered if the batch is cut,
else the heads of the log. Indexing before the first entry panics. -/
def advance (σ : HashOrder) (oplog : OpLog) (entries : List Entry) (maxCount : ℕ) :
    Option (List Hash) :=
  if maxCount < entries.length then
    match maxCount with
    | 0 => none
    | m + 1 => entries[m]?.map fun e => [e.hash]
  else some (σ.walk oplog.heads.toList)

/-- Query the log for entries past the cursor: `none` if there are none, else at most
`max_count` of them, and the cursor advances. -/
def tryFetch (self : TailSubscription) (σ : HashOrder) (oplog : OpLog) (maxCount : ℕ) :
    Option (Except String (Option (List Entry)) × TailSubscription) := do
  match ← oplog.entriesSinceHeads self.cursor with
  | .error err => pure (.error ("stale cursor: " ++ err.display), self)
  | .ok entries =>
    if entries.isEmpty then pure (.ok none, self)
    else
      let cursor ← advance σ oplog entries maxCount
      pure (.ok (some (entries.take maxCount)), { self with cursor })

/-- Return the next batch of entries past the cursor. `wake` is `none` for a call that does
not wait. -/
def nextBatch (self : TailSubscription) (σ : HashOrder) (oplog : OpLog) (wake : Option Wake)
    (maxCount : ℕ) : Option (Except String (List Entry) × TailSubscription) :=
  if self.closed then some (.ok [], self)
  else do
    match ← self.tryFetch σ oplog maxCount, wake with
    | (.error err, self), _ => pure (.error err, self)
    | (.ok (some entries), self), _ => pure (.ok entries, self)
    | (.ok none, self), none => pure (.ok [], self)
    | (.ok none, self), some wake =>
      if wake.closed then pure (.ok [], { self with closed := true })
      else
        let (r, self) ← self.tryFetch σ wake.oplog maxCount
        pure (r.map fun entries => entries.getD [], self)

end TailSubscription

/-! ### What a cursor stands for -/

/-- The hashes a cursor stands for: its own and their ancestors. -/
def OpLog.CoveredBy (L : OpLog) (cursor : List Hash) (h : Hash) : Prop :=
  ∃ c ∈ cursor, h = c ∨ Dag.Ancestor L.nextOf h c

/-- Links that are those of the causal order: parents are named once, and references lead to
ancestors. -/
structure OpLog.LinksSound (L : OpLog) : Prop where
  nextNodup : L.NextNodup
  refs : ∀ (h : Hash) (e : Entry), L.entries[h]? = some e →
    ∀ r ∈ e.refs, Dag.Ancestor L.nextOf r h

/-- A log that a subscription can follow. -/
structure OpLog.Tailable [Crates] (L : OpLog) : Prop extends L.LinksSound where
  wellFormed : L.WellFormed

section

variable [Crates] {L L' : OpLog} {cursor : List Hash} {h : Hash} {new : List Entry}

/-- An ancestor of a stored hash is stored. -/
theorem OpLog.WellFormed.mem_of_ancestor (hL : L.WellFormed) {a : Hash}
    (ha : Dag.Ancestor L.nextOf a h) (hh : h ∈ L.entries) : a ∈ L.entries :=
  hL.rep.parentClosed.ancestor ha hh

theorem OpLog.Tailable.refsStored (hL : L.Tailable) : L.RefsStored := fun h e he r hr =>
  hL.wellFormed.mem_of_ancestor (hL.refs h e he r hr) (HashMap.mem_iff_getElem?.mpr ⟨e, he⟩)

omit [Crates] in
/-- Covered hashes are closed downwards. -/
theorem OpLog.CoveredBy.ancestor {a : Hash} (hh : L.CoveredBy cursor h)
    (ha : Dag.Ancestor L.nextOf a h) : L.CoveredBy cursor a := by
  obtain ⟨c, hc, rfl | hhc⟩ := hh
  · exact ⟨h, hc, .inr ha⟩
  · exact ⟨c, hc, .inr (ha.trans hhc)⟩

/-- What is reachable from a cursor is what it stands for. -/
theorem OpLog.Tailable.mem_reachableFrom (hL : L.Tailable) :
    h ∈ L.reachableFrom cursor ↔ L.CoveredBy cursor h := by
  obtain ⟨h1, h2, h3⟩ := L.reachableFrom_spec cursor
  constructor
  · refine h3 (L.CoveredBy cursor) (fun x hx => ⟨x, hx, .inl rfl⟩) (fun x hx y hy => ?_) h
    obtain ⟨e, he⟩ : ∃ e, L.entries[x]? = some e := by
      by_contra hno
      rw [linksOf, get, Option.eq_none_iff_forall_not_mem.mpr fun e he => hno ⟨e, he⟩] at hy
      simp at hy
    simp only [linksOf, get, he, Option.map_some, Option.getD_some, List.mem_append] at hy
    refine hx.ancestor ?_
    rcases hy with hy | hy
    · exact .of_parent (mem_nextOf.mpr ⟨e, he, hy⟩)
    · exact hL.refs x e he y hy
  · have hclosed : Dag.ParentClosed L.nextOf (· ∈ L.reachableFrom cursor) := fun x hx y hy => by
      obtain ⟨e, he, hye⟩ := mem_nextOf.mp hy
      refine h2 x hx y ?_
      simp [linksOf, get, he, hye]
    rintro ⟨c, hc, rfl | hhc⟩
    · exact h1 h hc
    · exact hclosed.ancestor hhc (h1 c hc)

/-- A cursor of heads stands for the whole log. -/
theorem OpLog.WellFormed.coveredBy_heads (hL : L.WellFormed) (σ : HashOrder) :
    L.CoveredBy (σ.walk L.heads.toList) h ↔ h ∈ L.entries := by
  have hheads : ∀ c, c ∈ σ.walk L.heads.toList ↔ c ∈ L.heads := fun c => by
    rw [HashOrder.mem_walk, Std.ExtTreeSet.mem_toList]
  constructor
  · rintro ⟨c, hc, hhc⟩
    have hcL := ((hL.rep.heads c).mp ((hheads c).mp hc)).1
    rcases hhc with rfl | hhc
    · exact hcL
    · exact hL.mem_of_ancestor hhc hcL
  · intro hh
    obtain ⟨t, ht, hth⟩ := hL.exists_head hh
    exact ⟨t, (hheads t).mpr ht, hth.imp Eq.symm id⟩

/-- The entries past a known cursor: each once, parents first. -/
theorem OpLog.Tailable.entriesSinceHeads_spec (hL : L.Tailable)
    (hc : ∀ c ∈ cursor, c ∈ L.entries) :
    ∃ es, L.entriesSinceHeads cursor = some (.ok es) ∧ (hashesOf es).Nodup ∧
      (∀ e : Entry, e ∈ es ↔ L.entries[e.hash]? = some e ∧ ¬ L.CoveredBy cursor e.hash) ∧
      Dag.ParentsFirst L.nextOf (fun x => x ∈ L.entries ∧ ¬ L.CoveredBy cursor x) (hashesOf es) := by
  have hknown : ∀ x, x ∈ (if cursor.isEmpty then (∅ : HashSet Hash) else L.reachableFrom cursor) ↔
      L.CoveredBy cursor x := fun x => by
    rw [← hL.mem_reachableFrom]
    split
    · rename_i hnil
      rw [List.isEmpty_iff.mp hnil, hL.mem_reachableFrom]
      simp [OpLog.CoveredBy]
    · rfl
  let known : HashSet Hash := if cursor.isEmpty then ∅ else L.reachableFrom cursor
  let past := (L.reachableFrom L.heads.toList).filter fun h => !known.contains h
  have hpast : ∀ x, x ∈ past ↔ x ∈ L.entries ∧ ¬ L.CoveredBy cursor x := fun x => by
    rw [← hknown x, ← hL.wellFormed.mem_reachableFrom_heads hL.refsStored]
    rw [HashSet.mem_filter, Bool.not_eq_true', HashSet.contains_eq_false]
  have hstored : ∀ x ∈ past, x ∈ L.entries := fun x hx => ((hpast x).mp hx).1
  obtain ⟨es, hes, hmap, hget⟩ := topoSort_spec hL.wellFormed (hL.nextNodup.within past) hstored
  obtain ⟨hnd, hmem, hfirst⟩ := topoHashes_spec hL.wellFormed (hL.nextNodup.within past)
  rw [← hmap] at hnd hfirst
  refine ⟨es, ?_, hnd, fun e => ⟨fun he => ?_, fun ⟨he, hne⟩ => ?_⟩, ?_⟩
  · rw [entriesSinceHeads, missingParent_eq_none.mpr hc]
    exact congrArg (Option.map Except.ok) hes
  · have hin : e.hash ∈ es.map Entry.hash := List.mem_map_of_mem he
    rw [hmap, hmem, hpast] at hin
    exact ⟨hget e he, hin.2⟩
  · have hin : e.hash ∈ es.map Entry.hash := by
      rw [hmap, hmem, hpast]
      exact ⟨HashMap.mem_iff_getElem?.mpr ⟨e, he⟩, hne⟩
    obtain ⟨e', he', heq⟩ := List.mem_map.mp hin
    have hget' := hget e' he'
    rw [heq, he] at hget'
    exact Option.some.inj hget' ▸ he'
  · exact fun pre x post heq p hp hpS => hfirst pre x post heq p hp ((hpast p).mpr hpS)

theorem OpLog.WellFormed.mem_of_coveredBy (hL : L.WellFormed) (hc : ∀ c ∈ cursor, c ∈ L.entries)
    (hh : L.CoveredBy cursor h) : h ∈ L.entries := by
  obtain ⟨c, hcc, rfl | hhc⟩ := hh
  · exact hc h hcc
  · exact hL.mem_of_ancestor hhc (hc c hcc)

/-- What is above nothing in the cursor before is covered as before in a grown log. -/
theorem OpLog.Tailable.coveredBy_grown (hL : L.Tailable) (hi : Inserts L new L')
    (hc : ∀ c ∈ cursor, c ∈ L.entries) : L'.CoveredBy cursor h ↔ L.CoveredBy cursor h := by
  have hnext : ∀ x ∈ L.entries, L'.nextOf x = L.nextOf x := fun x hx => by
    obtain ⟨e, he⟩ := HashMap.mem_iff_getElem?.mp hx
    rw [nextOf_eq_of_get he, nextOf_eq_of_get (hi.grows he)]
  have hparents : Dag.ParentClosed L.nextOf (· ∈ L.entries) := hL.wellFormed.rep.parentClosed
  exact exists_congr fun c => and_congr_right fun hcc =>
    or_congr_right (hparents.ancestor_congr hnext (hc c hcc))

end

/-! ### One look at the log -/

/-- The cut of a batch: everything past the cursor fits, or the last entry that fits is above
the cursor and above the rest of the batch. -/
def OpLog.CutsWell (L : OpLog) (cursor : List Hash) (maxCount : ℕ) : Prop :=
  ∀ es, L.entriesSinceHeads cursor = some (.ok es) → es.length ≤ maxCount ∨
    ∃ pre e, es.take maxCount = pre ++ [e] ∧
      ∀ h, h ∈ cursor ∨ h ∈ hashesOf pre → L.CoveredBy [e.hash] h

section

variable [Crates] {L : OpLog} {cursor : List Hash} {es : List Entry} {sub : TailSubscription}
  {σ : HashOrder} {maxCount : ℕ}

/-- A cursor above another one and above a batch stands for what these stand for. -/
theorem coveredBy_cut (hL : L.Tailable) {pre post : List Entry} {e : Entry}
    (hes : L.entriesSinceHeads cursor = some (.ok es)) (hc : ∀ c ∈ cursor, c ∈ L.entries)
    (hsplit : es = pre ++ e :: post)
    (habove : ∀ h, h ∈ cursor ∨ h ∈ hashesOf pre → L.CoveredBy [e.hash] h) (h : Hash) :
    L.CoveredBy [e.hash] h ↔ L.CoveredBy cursor h ∨ h ∈ hashesOf (pre ++ [e]) := by
  obtain ⟨es', hes', -, hmem, hfirst⟩ := hL.entriesSinceHeads_spec hc
  obtain rfl : es' = es := Except.ok.inj (Option.some.inj (hes'.symm.trans hes))
  have he : L.entries[e.hash]? = some e := ((hmem e).mp (by simp [hsplit])).1
  have heL : e.hash ∈ L.entries := HashMap.mem_iff_getElem?.mpr ⟨e, he⟩
  have hhashes : hashesOf (pre ++ [e]) = hashesOf pre ++ [e.hash] := by simp [hashesOf]
  rw [hhashes, List.mem_append, List.mem_singleton]
  constructor
  · rintro ⟨c, hcc, hhc⟩
    obtain rfl := List.mem_singleton.mp hcc
    rcases hhc with rfl | hanc
    · exact .inr (.inr rfl)
    -- an ancestor of the last entry is covered, or past the cursor and hence listed before it
    by_cases hcov : L.CoveredBy cursor h
    · exact .inl hcov
    refine .inr (.inl ?_)
    have hlisted : hashesOf es' = hashesOf pre ++ e.hash :: hashesOf post := by
      simp [hashesOf, hsplit]
    refine hfirst.ancestor_above hL.wellFormed.rep.parentClosed (fun a b ha hab hb => ⟨hb, ?_⟩)
      hlisted heL hanc ⟨hL.wellFormed.mem_of_ancestor hanc heL, hcov⟩
    exact fun hbcov => ha.2 (hbcov.ancestor (.of_parent hab))
  · rintro (⟨c, hcc, rfl | hhc⟩ | hh | rfl)
    · exact habove h (.inl hcc)
    · exact (habove c (.inl hcc)).ancestor hhc
    · exact habove h (.inr hh)
    · exact ⟨e.hash, List.mem_singleton_self _, .inl rfl⟩

/-- **One look at the log.** From a known cursor a well-cut look does not fail. If nothing is
past the cursor nothing happens; else it delivers entries past the cursor, each once, and
leaves the cursor where it stands for what it stood for and these. -/
theorem tryFetch_spec (hL : L.Tailable) (hc : ∀ c ∈ sub.cursor, c ∈ L.entries)
    (hcut : L.CutsWell sub.cursor maxCount) :
    (sub.tryFetch σ L maxCount = some (.ok none, sub) ∧ ∀ h ∈ L.entries, L.CoveredBy sub.cursor h) ∨
    ∃ es cursor, sub.tryFetch σ L maxCount = some (.ok (some es), { sub with cursor }) ∧
      es ≠ [] ∧ (hashesOf es).Nodup ∧
      (∀ e ∈ es, L.entries[e.hash]? = some e ∧ ¬ L.CoveredBy sub.cursor e.hash) ∧
      (∀ c ∈ cursor, c ∈ L.entries) ∧
      ∀ h, L.CoveredBy cursor h ↔ L.CoveredBy sub.cursor h ∨ h ∈ hashesOf es := by
  obtain ⟨es, hes, hnd, hmem, -⟩ := hL.entriesSinceHeads_spec hc
  have hpast : ∀ h ∈ L.entries, L.CoveredBy sub.cursor h ∨ h ∈ hashesOf es := fun h hh => by
    by_cases hcov : L.CoveredBy sub.cursor h
    · exact .inl hcov
    obtain ⟨e, he⟩ := HashMap.mem_iff_getElem?.mp hh
    obtain ⟨rfl, -⟩ := hL.wellFormed.rep.keyed h e he
    exact .inr (List.mem_map_of_mem ((hmem e).mpr ⟨he, hcov⟩))
  by_cases hnil : es = []
  · subst hnil
    refine .inl ⟨by simp [TailSubscription.tryFetch, hes], fun h hh => ?_⟩
    exact (hpast h hh).resolve_right List.not_mem_nil
  have hfetch : ∀ cursor, TailSubscription.advance σ L es maxCount = some cursor →
      sub.tryFetch σ L maxCount = some (.ok (some (es.take maxCount)), { sub with cursor }) :=
    fun cursor hadv => by simp [TailSubscription.tryFetch, hes, hnil, hadv]
  right
  by_cases hfits : es.length ≤ maxCount
  · refine ⟨es, σ.walk L.heads.toList, ?_, hnil, hnd, fun e => (hmem e).mp, fun c hcc => ?_,
      fun h => ?_⟩
    · rw [hfetch _ (if_neg (by omega)), List.take_of_length_le hfits]
    · rw [HashOrder.mem_walk, Std.ExtTreeSet.mem_toList] at hcc
      exact ((hL.wellFormed.rep.heads c).mp hcc).1
    · rw [hL.wellFormed.coveredBy_heads]
      refine ⟨hpast h, ?_⟩
      rintro (hcov | hh)
      · exact hL.wellFormed.mem_of_coveredBy hc hcov
      · obtain ⟨e, he, rfl⟩ := List.mem_map.mp hh
        exact HashMap.mem_iff_getElem?.mpr ⟨e, ((hmem e).mp he).1⟩
  · obtain ⟨pre, e, htake, habove⟩ := (hcut es hes).resolve_left hfits
    have hsplit : es = pre ++ e :: es.drop maxCount := by
      refine (List.take_append_drop maxCount es).symm.trans ?_
      rw [htake, List.append_assoc, List.singleton_append]
    have hlen : maxCount = pre.length + 1 := by
      have := congrArg List.length htake
      rw [List.length_take, List.length_append, List.length_singleton] at this
      omega
    have hlast : es[pre.length]? = some e := by
      rw [hsplit, List.getElem?_append_right (Nat.le_refl _), Nat.sub_self]
      rfl
    have hadv : TailSubscription.advance σ L es maxCount = some [e.hash] := by
      unfold TailSubscription.advance
      rw [if_pos (by omega), hlen]
      simp only [hlast, Option.map_some]
    have hsub : ∀ x ∈ es.take maxCount, x ∈ es := fun x => List.mem_of_mem_take
    refine ⟨es.take maxCount, [e.hash], hfetch _ hadv, by simp [htake], ?_,
      fun x hx => (hmem x).mp (hsub x hx), fun c hcc => ?_, ?_⟩
    · exact hnd.sublist ((List.take_sublist _ _).map _)
    · obtain rfl := List.mem_singleton.mp hcc
      have he : e ∈ es.take maxCount := by simp [htake]
      exact HashMap.mem_iff_getElem?.mpr ⟨e, ((hmem e).mp (hsub e he)).1⟩
    · rw [htake]
      exact coveredBy_cut hL hes hc hsplit habove

/-- A batch that is at least as large as the log is cut well. -/
theorem OpLog.CutsWell.of_size (hL : L.WellFormed) (hn : L.entries.size ≤ maxCount) :
    L.CutsWell cursor maxCount := by
  intro es hes
  rw [entriesSinceHeads] at hes
  split at hes
  · cases hes
  · obtain ⟨es', hsort, heq⟩ := Option.map_eq_some_iff.mp hes
    obtain rfl := Except.ok.inj heq
    exact .inl ((length_topoSort_le hL hsort).trans hn)

omit [Crates] in
/-- A single entry from the very beginning is cut well. -/
theorem OpLog.CutsWell.first (L : OpLog) : L.CutsWell [] 1 := by
  intro es _
  match es with
  | [] => exact .inl (Nat.zero_le _)
  | e :: rest => exact .inr ⟨[], e, rfl, fun h hh => by simp [hashesOf] at hh⟩

omit [Crates] in
/-- The condition is needed: a look that is not cut well panics, or it moves the cursor so
that something it stood for or just delivered is past it and will be delivered again. -/
theorem tryFetch_of_not_cutsWell (hcut : ¬ L.CutsWell sub.cursor maxCount) :
    sub.tryFetch σ L maxCount = none ∨
    ∃ es cursor, sub.tryFetch σ L maxCount = some (.ok (some es), { sub with cursor }) ∧
      ∃ h, (h ∈ sub.cursor ∨ h ∈ hashesOf es) ∧ ¬ L.CoveredBy cursor h := by
  simp only [OpLog.CutsWell, not_forall, not_or, not_le, not_exists, not_and] at hcut
  obtain ⟨es, hes, hlong, hcut⟩ := hcut
  have hnil : es ≠ [] := List.ne_nil_of_length_pos (by omega)
  by_cases hzero : maxCount = 0
  · subst hzero
    have hadv : TailSubscription.advance σ L es 0 = none := if_pos hlong
    exact .inl (by simp [TailSubscription.tryFetch, hes, hnil, hadv])
  obtain ⟨m, rfl⟩ := Nat.exists_eq_succ_of_ne_zero hzero
  have hm : m < es.length := by omega
  have htake : es.take (m + 1) = es.take m ++ [es[m]] := (List.take_concat_get' es m hm).symm
  have hadv : TailSubscription.advance σ L es (m + 1) = some [es[m].hash] := by
    unfold TailSubscription.advance
    rw [if_pos hlong]
    simp only [List.getElem?_eq_getElem hm, Option.map_some]
  obtain ⟨h, hh, hcov⟩ := hcut _ _ htake
  refine .inr ⟨es.take (m + 1), [es[m].hash],
    by simp [TailSubscription.tryFetch, hes, hnil, hadv], h, hh.imp_right fun hin => ?_, hcov⟩
  rw [htake, hashesOf, List.map_append]
  exact List.mem_append_left _ hin

end

/-! ### Runs -/

/-- A write to the log: a local append or the entries of a merge. -/
inductive Write where
  | append (entry : Entry)
  | merge (entries : List Entry)

/-- The log after a write. -/
def Write.exec [Crates] (oplog : OpLog) : Write → OpLog
  | .append entry => (oplog.append entry).2
  | .merge entries => (mergeEntries oplog entries).2

/-- The entries a write brings. -/
def Write.entries : Write → List Entry
  | .append entry => [entry]
  | .merge entries => entries

/-- A subscription, the log it tails, and what it has delivered so far. -/
structure Tail where
  oplog : OpLog
  sub : TailSubscription
  delivered : List Entry

/-- What happens next: a write, or a call. A call that may block comes with the writes that
other threads make meanwhile. -/
inductive TailEvent where
  | write (write : Write)
  | nextBatch (σ : HashOrder) (maxCount : ℕ) (meanwhile : Option (List Write))

namespace Tail

/-- A subscription on a log from a cursor. -/
def start (oplog : OpLog) (cursor : List Hash) : Tail := ⟨oplog, .new cursor, []⟩

/-- The log after some writes. -/
def grown [Crates] (oplog : OpLog) (writes : List Write) : OpLog := writes.foldl Write.exec oplog

/-- One event. A panic and an error end the run. -/
def step [Crates] (self : Tail) : TailEvent → Option Tail
  | .write write => some { self with oplog := write.exec self.oplog }
  | .nextBatch σ maxCount meanwhile =>
    let later := grown self.oplog (meanwhile.getD [])
    match self.sub.nextBatch σ self.oplog (meanwhile.map fun _ => { oplog := later }) maxCount with
    | some (.ok entries, sub) => some ⟨later, sub, self.delivered ++ entries⟩
    | _ => none

/-- A sequence of events. -/
def run [Crates] (self : Tail) : List TailEvent → Option Tail
  | [] => some self
  | event :: events => (self.step event).bind fun t => t.run events

/-- A write that replaces nothing and leaves a log with links as they should be. -/
def WriteAllowed [Crates] (L : OpLog) (write : Write) : Prop :=
  NoReplace L write.entries ∧ (write.exec L).LinksSound

/-- Writes one after the other. -/
def WritesAllowed [Crates] (L : OpLog) : List Write → Prop
  | [] => True
  | write :: writes => WriteAllowed L write ∧ WritesAllowed (write.exec L) writes

/-- The condition on an event: writes are as above, and batches are cut well. A call that
finds nothing at first is cut at the log it wakes up to. -/
def Allowed [Crates] (self : Tail) : TailEvent → Prop
  | .write write => WriteAllowed self.oplog write
  | .nextBatch _ maxCount meanwhile =>
    self.oplog.CutsWell self.sub.cursor maxCount ∧
      ∀ writes, meanwhile = some writes → WritesAllowed self.oplog writes ∧
        (self.oplog.entriesSinceHeads self.sub.cursor = some (.ok []) →
          (grown self.oplog writes).CutsWell self.sub.cursor maxCount)

/-- Every event of a run meets the condition in the state it happens in. -/
def AllowedRun [Crates] (self : Tail) : List TailEvent → Prop
  | [] => True
  | event :: events => self.Allowed event ∧ ∀ t, self.step event = some t → t.AllowedRun events

/-- A call during which nothing is written. -/
def Quiet : TailEvent → Prop
  | .write _ => False
  | .nextBatch _ _ meanwhile => meanwhile = none ∨ meanwhile = some []

section

variable [Crates] {t : Tail} {events : List TailEvent} {σ : HashOrder} {maxCount : ℕ}
  {meanwhile : Option (List Write)}

/-- A well-cut quiet call may come next, the log staying as it is. -/
theorem AllowedRun.call (hcut : t.oplog.CutsWell t.sub.cursor maxCount)
    (hm : meanwhile = none ∨ meanwhile = some [])
    (hrest : ∀ t' : Tail, t'.oplog = t.oplog → t'.AllowedRun events) :
    t.AllowedRun (.nextBatch σ maxCount meanwhile :: events) := by
  have hgrown : grown t.oplog (meanwhile.getD []) = t.oplog := by
    rcases hm with rfl | rfl <;> rfl
  refine ⟨⟨hcut, fun writes hw => ?_⟩, fun t' ht' => hrest t' ?_⟩
  · obtain rfl : writes = [] := by
      rcases hm with rfl | rfl
      · cases hw
      · exact (Option.some.inj hw).symm
    exact ⟨trivial, fun _ => hcut⟩
  · rw [Tail.step, hgrown] at ht'
    split at ht'
    · obtain rfl := Option.some.inj ht'
      rfl
    · cases ht'

/-- An allowed write may come next. -/
theorem AllowedRun.write {write : Write} (hw : WriteAllowed t.oplog write)
    (hrest : { t with oplog := write.exec t.oplog }.AllowedRun events) :
    t.AllowedRun (.write write :: events) :=
  ⟨hw, fun _ ht' => Option.some.inj ht' ▸ hrest⟩

end

/-- What holds along a run: the cursor stands for what the initial one stood for and all that
has been delivered since, and nothing was delivered that it stood for, or twice. -/
structure Inv [Crates] (L₀ : OpLog) (cursor₀ : List Hash) (t : Tail) : Prop where
  tailable : t.oplog.Tailable
  grew : ∃ new, Inserts L₀ new t.oplog
  isOpen : t.sub.closed = false
  known : ∀ c ∈ t.sub.cursor, c ∈ t.oplog.entries
  nodup : (hashesOf t.delivered).Nodup
  fresh : ∀ e ∈ t.delivered, t.oplog.entries[e.hash]? = some e ∧ ¬ L₀.CoveredBy cursor₀ e.hash
  covers : ∀ h, t.oplog.CoveredBy t.sub.cursor h ↔
    L₀.CoveredBy cursor₀ h ∨ h ∈ hashesOf t.delivered

section

variable [Crates] {L L₀ : OpLog} {cursor₀ : List Hash} {t : Tail}

theorem WriteAllowed.inserts {write : Write} (hw : WriteAllowed L write) (hL : L.Tailable) :
    ∃ new, Inserts L new (write.exec L) := by
  match write with
  | .append e =>
    rcases append_cases hL.wellFormed.nonempty e with ⟨-, h⟩ | ⟨-, -, h⟩ | ⟨hv, hd, hc, -⟩ |
      ⟨-, -, -, p, -, -, h⟩ | ⟨hv, hd, -, hp, h⟩
    · exact ⟨[], by rw [Write.exec, h]; exact .nil L⟩
    · exact ⟨[], by rw [Write.exec, h]; exact .nil L⟩
    · exact absurd (hw.1 e (List.mem_singleton_self e) hv hc) hd
    · exact ⟨[], by rw [Write.exec, h]; exact .nil L⟩
    · exact ⟨[e], by rw [Write.exec, h]; exact .single hv hd hp⟩
  | .merge es =>
    obtain ⟨new, -, hi⟩ := mergeBatch_inserts hL.wellFormed.nonempty hw.1
    exact ⟨new, hi⟩

/-- An allowed write keeps the log one that can be followed. -/
theorem WriteAllowed.tailable {write : Write} (hw : WriteAllowed L write) (hL : L.Tailable) :
    (write.exec L).Tailable := by
  obtain ⟨new, hi⟩ := hw.inserts hL
  exact ⟨hw.2, hi.wellFormed hL.wellFormed⟩

theorem WritesAllowed.inserts {writes : List Write} (hw : WritesAllowed L writes)
    (hL : L.Tailable) : (grown L writes).Tailable ∧ ∃ new, Inserts L new (grown L writes) := by
  induction writes generalizing L with
  | nil => exact ⟨hL, [], .nil L⟩
  | cons write writes ih =>
    obtain ⟨hw, hws⟩ := hw
    obtain ⟨new, hi⟩ := hw.inserts hL
    obtain ⟨hL', new', hi'⟩ := ih hws (hw.tailable hL)
    exact ⟨hL', new ++ new', hi.trans hi'⟩

theorem Inv.start (hL : L₀.Tailable) (hc : ∀ c ∈ cursor₀, c ∈ L₀.entries) :
    Inv L₀ cursor₀ (start L₀ cursor₀) :=
  ⟨hL, ⟨[], .nil L₀⟩, rfl, hc, List.nodup_nil, fun _ he => absurd he List.not_mem_nil,
    fun h => by simp [Tail.start, TailSubscription.new, hashesOf]⟩

/-- The log grows under the subscription. -/
theorem Inv.grow (hI : Inv L₀ cursor₀ t) {new : List Entry} (hL : L.Tailable)
    (hi : Inserts t.oplog new L) : Inv L₀ cursor₀ { t with oplog := L } := by
  obtain ⟨new₀, hi₀⟩ := hI.grew
  refine ⟨hL, ⟨new₀ ++ new, hi₀.trans hi⟩, hI.isOpen, fun c hc => hi.mem_mono (hI.known c hc),
    hI.nodup, fun e he => ⟨hi.grows (hI.fresh e he).1, (hI.fresh e he).2⟩, fun h => ?_⟩
  exact (hI.tailable.coveredBy_grown hi hI.known).trans (hI.covers h)

/-- A batch that starts past the cursor and moves it above itself. -/
theorem Inv.deliver (hI : Inv L₀ cursor₀ t) {es : List Entry} {cursor : List Hash}
    (hnd : (hashesOf es).Nodup)
    (hes : ∀ e ∈ es, t.oplog.entries[e.hash]? = some e ∧ ¬ t.oplog.CoveredBy t.sub.cursor e.hash)
    (hc : ∀ c ∈ cursor, c ∈ t.oplog.entries)
    (hcov : ∀ h, t.oplog.CoveredBy cursor h ↔ t.oplog.CoveredBy t.sub.cursor h ∨ h ∈ hashesOf es) :
    Inv L₀ cursor₀ ⟨t.oplog, { t.sub with cursor }, t.delivered ++ es⟩ := by
  have hhashes : hashesOf (t.delivered ++ es) = hashesOf t.delivered ++ hashesOf es :=
    List.map_append
  refine ⟨hI.tailable, hI.grew, hI.isOpen, hc, ?_, fun e he => ?_, fun h => ?_⟩
  · rw [hhashes]
    refine hI.nodup.append hnd fun h hdel hh => ?_
    obtain ⟨e, he, rfl⟩ := List.mem_map.mp hh
    exact (hes e he).2 ((hI.covers _).mpr (.inr hdel))
  · rcases List.mem_append.mp he with he | he
    · exact hI.fresh e he
    · exact ⟨(hes e he).1, fun hcov₀ => (hes e he).2 ((hI.covers _).mpr (.inl hcov₀))⟩
  · rw [hcov, hI.covers, hhashes, List.mem_append, or_assoc]

/-- Everything in the log is covered. -/
def Drained (t : Tail) : Prop := ∀ h ∈ t.oplog.entries, t.oplog.CoveredBy t.sub.cursor h

/-- **A look at the log** finds nothing and changes nothing, or delivers something. -/
theorem Inv.tryFetch (hI : Inv L₀ cursor₀ t) (σ : HashOrder) {maxCount : ℕ}
    (hcut : t.oplog.CutsWell t.sub.cursor maxCount) :
    (t.sub.tryFetch σ t.oplog maxCount = some (.ok none, t.sub) ∧ t.Drained) ∨
    ∃ es sub, t.sub.tryFetch σ t.oplog maxCount = some (.ok (some es), sub) ∧
      (∃ e ∈ es, t.oplog.entries[e.hash]? = some e ∧ ¬ t.oplog.CoveredBy t.sub.cursor e.hash) ∧
      Inv L₀ cursor₀ ⟨t.oplog, sub, t.delivered ++ es⟩ := by
  rcases @tryFetch_spec _ _ _ σ _ hI.tailable hI.known hcut with hnone |
    ⟨es, cursor, hrun, hne, hnd, hes, hc, hcov⟩
  · exact .inl hnone
  · obtain ⟨e, he⟩ := List.exists_mem_of_ne_nil es hne
    exact .inr ⟨es, _, hrun, ⟨e, he, hes e he⟩, hI.deliver hnd hes hc hcov⟩

/-- What other threads write while a call is blocked, or right after it. -/
theorem Inv.meanwhile (hI : Inv L₀ cursor₀ t) {meanwhile : Option (List Write)}
    (hw : ∀ writes, meanwhile = some writes → WritesAllowed t.oplog writes) :
    Inv L₀ cursor₀ { t with oplog := grown t.oplog (meanwhile.getD []) } := by
  match meanwhile with
  | none => exact hI
  | some writes =>
    obtain ⟨hL, new, hi⟩ := (hw writes rfl).inserts hI.tailable
    exact hI.grow hL hi

/-- If nothing is past the cursor, the listing past it is empty. -/
theorem Inv.entriesSinceHeads_of_drained (hI : Inv L₀ cursor₀ t) (hd : t.Drained) :
    t.oplog.entriesSinceHeads t.sub.cursor = some (.ok []) := by
  obtain ⟨es, hes, -, hmem, -⟩ := hI.tailable.entriesSinceHeads_spec hI.known
  suffices es = [] by rw [hes, this]
  refine List.eq_nil_iff_forall_not_mem.mpr fun e he => ?_
  obtain ⟨he, hne⟩ := (hmem e).mp he
  exact hne (hd _ (HashMap.mem_iff_getElem?.mpr ⟨e, he⟩))

/-- **Step.** An event that meets the condition does not fail and keeps the invariant. -/
theorem Inv.step (hI : Inv L₀ cursor₀ t) {event : TailEvent} (ha : t.Allowed event) :
    ∃ t', t.step event = some t' ∧ Inv L₀ cursor₀ t' := by
  match event with
  | .write write =>
    obtain ⟨new, hi⟩ := ha.inserts hI.tailable
    exact ⟨_, rfl, hI.grow (ha.tailable hI.tailable) hi⟩
  | .nextBatch σ maxCount meanwhile =>
    obtain ⟨hcut, hlater⟩ := ha
    have hwrites := fun writes h => (hlater writes h).1
    have hopen : ¬ t.sub.closed = true := by simp [hI.isOpen]
    rcases hI.tryFetch σ hcut with ⟨hnone, hd⟩ | ⟨es, sub, hsome, -, hI'⟩
    · match meanwhile with
      | none =>
        refine ⟨⟨t.oplog, t.sub, t.delivered ++ []⟩, ?_, by rwa [List.append_nil]⟩
        simp [Tail.step, TailSubscription.nextBatch, hopen, hnone, grown]
      | some writes =>
        -- the call blocks and looks again at the log as the writes leave it
        have hI' := hI.meanwhile hwrites
        have hcut' := (hlater writes rfl).2 (hI.entriesSinceHeads_of_drained hd)
        rcases hI'.tryFetch σ hcut' with ⟨hnone', -⟩ | ⟨es, sub, hsome, -, hI''⟩
        · refine ⟨⟨grown t.oplog writes, t.sub, t.delivered ++ []⟩, ?_, by rwa [List.append_nil]⟩
          change t.sub.tryFetch σ (grown t.oplog writes) maxCount = _ at hnone'
          simp [Tail.step, TailSubscription.nextBatch, hopen, hnone, hnone', Except.map]
        · refine ⟨⟨grown t.oplog writes, sub, t.delivered ++ es⟩, ?_, hI''⟩
          change t.sub.tryFetch σ (grown t.oplog writes) maxCount = _ at hsome
          simp [Tail.step, TailSubscription.nextBatch, hopen, hnone, hsome, Except.map]
    · refine ⟨⟨grown t.oplog (meanwhile.getD []), sub, t.delivered ++ es⟩, ?_,
        hI'.meanwhile hwrites⟩
      simp [Tail.step, TailSubscription.nextBatch, hopen, hsome]

/-- **Run.** -/
theorem Inv.run (hI : Inv L₀ cursor₀ t) {events : List TailEvent} (ha : t.AllowedRun events) :
    ∃ t', t.run events = some t' ∧ Inv L₀ cursor₀ t' := by
  induction events generalizing t with
  | nil => exact ⟨t, rfl, hI⟩
  | cons event events ih =>
    obtain ⟨ha, hrest⟩ := ha
    obtain ⟨t₁, hstep, hI₁⟩ := hI.step ha
    obtain ⟨t', hrun, hI'⟩ := ih hI₁ (hrest t₁ hstep)
    exact ⟨t', by rw [Tail.run, hstep, Option.bind_some, hrun], hI'⟩

/-! ### Draining -/

/-- A quiet call on a drained log changes nothing. -/
theorem Inv.step_of_drained (hI : Inv L₀ cursor₀ t) (hd : t.Drained) {event : TailEvent}
    (hq : Quiet event) : t.step event = some t := by
  match event, hq with
  | .nextBatch σ maxCount meanwhile, hq =>
    have hnone : t.sub.tryFetch σ t.oplog maxCount = some (.ok none, t.sub) := by
      simp [TailSubscription.tryFetch, hI.entriesSinceHeads_of_drained hd]
    rcases hq with rfl | rfl <;>
      simp [Tail.step, TailSubscription.nextBatch, hI.isOpen, hnone, grown, Except.map]

/-- A quiet call on a log that is not drained delivers something that was missing, and leaves
the log alone. -/
theorem Inv.step_quiet (hI : Inv L₀ cursor₀ t) (hd : ¬ t.Drained) {event : TailEvent}
    (hq : Quiet event) (ha : t.Allowed event) :
    ∃ es sub, t.step event = some ⟨t.oplog, sub, t.delivered ++ es⟩ ∧
      Inv L₀ cursor₀ ⟨t.oplog, sub, t.delivered ++ es⟩ ∧
      ∃ e ∈ es, t.oplog.entries[e.hash]? = some e ∧ ¬ t.oplog.CoveredBy t.sub.cursor e.hash := by
  match event, hq with
  | .nextBatch σ maxCount meanwhile, hq =>
    rcases hI.tryFetch σ ha.1 with ⟨-, hd'⟩ | ⟨es, sub, hsome, hnew, hI'⟩
    · exact absurd hd' hd
    refine ⟨es, sub, ?_, hI', hnew⟩
    rcases hq with rfl | rfl <;>
      simp [Tail.step, TailSubscription.nextBatch, hI.isOpen, hsome, grown]

/-- **Draining.** As many quiet calls as hashes are missing deliver them all. -/
theorem Inv.drains (hI : Inv L₀ cursor₀ t) {calls : List TailEvent} (hq : ∀ c ∈ calls, Quiet c)
    (ha : t.AllowedRun calls) {rest : List Hash}
    (hrest : ∀ h ∈ t.oplog.entries, ¬ t.oplog.CoveredBy t.sub.cursor h → h ∈ rest)
    (hlen : rest.length ≤ calls.length) :
    ∃ t', t.run calls = some t' ∧ Inv L₀ cursor₀ t' ∧ t'.oplog = t.oplog ∧ t'.Drained := by
  induction calls generalizing t rest with
  | nil =>
    obtain rfl := List.length_eq_zero_iff.mp (Nat.le_zero.mp hlen)
    refine ⟨t, rfl, hI, rfl, fun h hh => ?_⟩
    by_contra hcov
    exact List.not_mem_nil (hrest h hh hcov)
  | cons call calls ih =>
    obtain ⟨ha, hnext⟩ := ha
    have hqc := hq call List.mem_cons_self
    have hqs := fun c hc => hq c (List.mem_cons_of_mem _ hc)
    by_cases hd : t.Drained
    · have hstep := hI.step_of_drained hd hqc
      have hnil : ∀ h ∈ t.oplog.entries, ¬ t.oplog.CoveredBy t.sub.cursor h → h ∈ ([] : List Hash) :=
        fun h hh hcov => absurd (hd h hh) hcov
      obtain ⟨t', hrun, hI', hlog, hd'⟩ := ih hI hqs (hnext t hstep) hnil (Nat.zero_le _)
      exact ⟨t', by rw [Tail.run, hstep, Option.bind_some, hrun], hI', hlog, hd'⟩
    · obtain ⟨es, sub, hstep, hI₁, e, he, hget, hcov⟩ := hI.step_quiet hd hqc ha
      -- what is still missing is missing before, and the delivered entry no longer is
      let rest' := rest.filter fun h => h ≠ e.hash
      have hin : e.hash ∈ rest := hrest _ (HashMap.mem_iff_getElem?.mpr ⟨e, hget⟩) hcov
      have hshort : rest'.length < rest.length :=
        List.length_filter_lt_length_iff_exists.mpr ⟨e.hash, hin, by simp⟩
      have hrest' : ∀ h ∈ t.oplog.entries, ¬ t.oplog.CoveredBy sub.cursor h → h ∈ rest' := by
        intro h hh hno
        have hno' : ¬ (L₀.CoveredBy cursor₀ h ∨ h ∈ hashesOf (t.delivered ++ es)) :=
          fun hc => hno ((hI₁.covers h).mpr hc)
        rw [hashesOf, List.map_append, List.mem_append, ← or_assoc, not_or] at hno'
        refine List.mem_filter.mpr ⟨hrest h hh fun hc => hno'.1 ((hI.covers h).mp hc), ?_⟩
        simp only [ne_eq, decide_not, Bool.not_eq_eq_eq_not, Bool.not_true, decide_eq_false_iff_not]
        rintro rfl
        exact hno'.2 (List.mem_map_of_mem he)
      rw [List.length_cons] at hlen
      obtain ⟨t', hrun, hI', hlog, hd'⟩ := ih hI₁ hqs (hnext _ hstep) hrest' (by omega)
      exact ⟨t', by rw [Tail.run, hstep, Option.bind_some, hrun], hI', hlog, hd'⟩

end

end Tail

/-- **Exactly once, and everything.** Take a log that grew by appends from a hash-valid
parentless genesis, with parents named once and references to ancestors only, and a cursor of
hashes it holds. In every run in which the writes keep the links so and replace nothing, and
every batch is cut well, no call fails; what is delivered is stored, was not covered by the
initial cursor, and comes once. From then on, with no further writes, as many calls as
entries are missing deliver them all, and later calls return nothing. -/
theorem tail_exactly_once [Crates] (genesis : Entry) (hg : genesis.verifyHash ∧ genesis.next = [])
    (appends : List Entry) (L₀ : OpLog) (hL₀ : L₀ = (OpLog.new genesis).appendAll appends)
    (hlinks : L₀.LinksSound) (cursor₀ : List Hash) (hknown : L₀.headsKnown cursor₀)
    (events : List TailEvent) (hall : (Tail.start L₀ cursor₀).AllowedRun events) :
    ∃ t, (Tail.start L₀ cursor₀).run events = some t ∧ (hashesOf t.delivered).Nodup ∧
      (∀ e ∈ t.delivered, t.oplog.entries[e.hash]? = some e ∧ ¬ L₀.CoveredBy cursor₀ e.hash) ∧
      ∀ calls, (∀ c ∈ calls, Tail.Quiet c) → t.AllowedRun calls → ∀ rest : List Hash,
        (∀ h, h ∈ rest ↔ h ∈ t.oplog.entries ∧ ¬ L₀.CoveredBy cursor₀ h ∧
          h ∉ hashesOf t.delivered) → rest.length ≤ calls.length →
        ∃ t', t.run calls = some t' ∧ (hashesOf t'.delivered).Nodup ∧
          (∀ h ∈ rest, h ∈ hashesOf t'.delivered) ∧
          ∀ call, Tail.Quiet call → t'.step call = some t' := by
  have hc : ∀ c ∈ cursor₀, c ∈ L₀.entries := fun c hcc =>
    Std.ExtTreeMap.contains_iff_mem.mp (List.all_eq_true.mp hknown c hcc)
  have hL : L₀.Tailable := ⟨hlinks, hL₀ ▸ (WellFormed.new hg.1 hg.2).appendAll appends⟩
  obtain ⟨t, hrun, hI⟩ := (Tail.Inv.start hL hc).run hall
  refine ⟨t, hrun, hI.nodup, hI.fresh, fun calls hq ha rest hrest hlen => ?_⟩
  have hmissing : ∀ h ∈ t.oplog.entries, ¬ t.oplog.CoveredBy t.sub.cursor h → h ∈ rest := by
    intro h hh hcov
    rw [hI.covers, not_or] at hcov
    exact (hrest h).mpr ⟨hh, hcov⟩
  obtain ⟨t', hrun', hI', hlog, hd⟩ := hI.drains hq ha hmissing hlen
  refine ⟨t', hrun', hI'.nodup, fun h hh => ?_, fun call hqc => hI'.step_of_drained hd hqc⟩
  obtain ⟨hstored, hcov, -⟩ := (hrest h).mp hh
  have hcov' := (hI'.covers h).mp (hd h (hlog ▸ hstored))
  exact hcov'.resolve_left hcov

open Sample in
/-- On a chain, batches of one and of ten. -/
theorem tail_exactly_once_chain :
    let g := Entry.new (.defineOntology ⟨∅, ∅⟩) [] [] ⟨"ann", 1, 0⟩ "ann"
    let a := Entry.new (.removeNode "a") [g.hash] [] ⟨"ann", 2, 0⟩ "ann"
    let b := Entry.new (.removeNode "b") [a.hash] [] ⟨"ann", 3, 0⟩ "ann"
    let L := (OpLog.new g).appendAll [a]
    ∃ t, (Tail.start L []).run [.nextBatch .keyOrder 1 none, .write (.append b),
        .nextBatch .keyOrder 10 (some [])] = some t ∧ (hashesOf t.delivered).Nodup := by
  intro g a b L
  have hg : g.verifyHash ∧ g.next = [] := ⟨Entry.verifyHash_new .., rfl⟩
  have hlinks : ∀ L : OpLog, (L.entries.toList.all fun kv => kv.2.refs.isEmpty &&
      kv.2.next.Nodup) = true → L.LinksSound := fun L hL => by
    simp only [List.all_eq_true, Bool.and_eq_true, List.isEmpty_iff, decide_eq_true_eq] at hL
    refine ⟨fun h e he => (hL _ (HashMap.mem_toList.mpr he)).2, fun h e he r hr => ?_⟩
    rw [(hL _ (HashMap.mem_toList.mpr he)).1] at hr
    cases hr
  have hL : L.WellFormed := (WellFormed.new hg.1 hg.2).appendAll [a]
  have hLlinks : L.LinksSound := hlinks L (by decide +kernel)
  have hL' : ((Write.append b).exec L).WellFormed := hL.append b
  have hL'links : ((Write.append b).exec L).LinksSound := hlinks _ (by decide +kernel)
  have hsize : ((Write.append b).exec L).entries.size ≤ 10 := by decide +kernel
  have hb : ¬ b.isRootCheckpoint := by decide +kernel
  have hlog : L = (OpLog.new g).appendAll [a] := rfl
  clear_value L b
  have hall : (Tail.start L []).AllowedRun [.nextBatch .keyOrder 1 none, .write (.append b),
      .nextBatch .keyOrder 10 (some [])] := by
    refine .call (.first L) (.inl rfl) fun t ht => ?_
    obtain rfl : t.oplog = L := ht
    have hwrite : Tail.WriteAllowed t.oplog (.append b) := by
      refine ⟨fun e he _ hc => ?_, hL'links⟩
      rw [List.mem_singleton.mp he] at hc
      exact absurd hc hb
    exact .write hwrite (.call (.of_size hL' hsize) (.inr rfl) fun _ _ => trivial)
  obtain ⟨t, hrun, hnd, -⟩ := tail_exactly_once g hg [a] L hlog hLlinks [] rfl _ hall
  exact ⟨t, hrun, hnd⟩

open Sample in
/-- A call for no entries panics. On a fork of two chains, batches of one go back and forth
between the branches: after five calls for five entries one has been delivered twice and two
not at all. -/
theorem tail_redelivers :
    let g := Entry.new (.defineOntology ⟨∅, ∅⟩) [] [] ⟨"ann", 1, 0⟩ "ann"
    let a := Entry.new (.removeNode "a") [g.hash] [] ⟨"ann", 2, 0⟩ "ann"
    let a' := Entry.new (.removeNode "a") [a.hash] [] ⟨"ann", 4, 0⟩ "ann"
    let b := Entry.new (.removeNode "b") [g.hash] [] ⟨"bob", 3, 0⟩ "bob"
    let b' := Entry.new (.removeNode "b") [b.hash] [] ⟨"bob", 5, 0⟩ "bob"
    let L := (OpLog.new g).appendAll [a, a', b, b']
    ((Tail.start L []).run [.nextBatch .keyOrder 0 none]).isNone ∧
      (((Tail.start L []).run (List.replicate 5 (.nextBatch .keyOrder 1 none))).map fun t =>
        hashesOf t.delivered) = some [g.hash, a.hash, b.hash, a.hash, b.hash] := by
  intro g a a' b b' L
  refine ⟨?_, ?_⟩ <;> decide +kernel

end SilkGraph
