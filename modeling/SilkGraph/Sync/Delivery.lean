import SilkGraph.Sync.Merge

/-!
# Sync delivers everything

An exchange sends whatever the recipient lacks, for every content of the recipient's Bloom
filter. The filter only ever adds to the payload; what guarantees delivery is the two other
phases. The sender's heads that are not heads of the recipient are forced in, and the
payload is closed under parents except below the recipient's heads (`EntriesMissing`). An
entry the recipient lacks has only descendants it lacks, so walking down from a forced head
never stops before reaching it (`EntriesMissing.delivers`).

Entries are identified by hash, so two logs that are compared must not hold different
contents under one hash: `CollisionFree`, the property BLAKE3 is used for.
-/

namespace SilkGraph

open OpLog

/-! ### The three phases -/

section Phases

variable {L : OpLog} {h : Hash}

/-- Phase 1 answers, and sends entries of the log only. -/
theorem notInBloom_spec {bloom : BloomFilter} (hb : bloom.Dims) (all : List Entry) :
    ∃ send, notInBloom bloom all = some send := by
  induction all with
  | nil => exact ⟨∅, rfl⟩
  | cons e all ih =>
    obtain ⟨hit, hhit⟩ := hb.contains e.hash
    obtain ⟨send, hsend⟩ := ih
    exact ⟨if hit then send else send.insert e.hash, by simp [notInBloom, hhit, hsend]⟩

theorem mem_forceHeads {ourHeads remoteHeads send : HashSet Hash} :
    h ∈ forceHeads ourHeads remoteHeads send ↔ h ∈ send ∨ h ∈ ourHeads ∧ h ∉ remoteHeads := by
  have hfold : ∀ (l : List Hash) (send : HashSet Hash),
      h ∈ l.foldl (fun send h => if remoteHeads.contains h then send else send.insert h) send ↔
        h ∈ send ∨ h ∈ l ∧ h ∉ remoteHeads := by
    intro l
    induction l with
    | nil => simp
    | cons a l ih =>
      intro send
      rw [List.foldl_cons, ih]
      by_cases ha : a ∈ remoteHeads
      · rw [if_pos (Std.ExtTreeSet.contains_iff_mem.mpr ha), List.mem_cons]
        grind
      · rw [if_neg (fun hc => ha (Std.ExtTreeSet.contains_iff_mem.mp hc)), HashSet.mem_insert,
          List.mem_cons]
        grind
  rw [forceHeads, hfold, Std.ExtTreeSet.mem_toList]

/-- One more hash in a set is one fewer of a list outside of it. -/
theorem length_filter_insert {l : List Hash} {s : HashSet Hash} (hnd : l.Nodup) (hh : h ∈ l)
    (hs : h ∉ s) : (l.filter fun x => !(s.insert h).contains x).length + 1 =
      (l.filter fun x => !s.contains x).length := by
  have hmem : h ∈ l.filter fun x => !s.contains x := by
    rw [List.mem_filter, Bool.not_eq_true', HashSet.contains_eq_false]
    exact ⟨hh, hs⟩
  have herase : (l.filter fun x => !(s.insert h).contains x) =
      (l.filter fun x => !s.contains x).erase h := by
    rw [(hnd.filter _).erase_eq_filter, List.filter_filter]
    refine List.filter_congr fun x _ => ?_
    rw [Bool.eq_iff_iff]
    simp only [Bool.not_eq_true', HashSet.contains_eq_false, HashSet.mem_insert, not_or,
      Bool.and_eq_true, bne_iff_ne]
    rw [ne_comm, ne_eq]
  have hpos := List.length_pos_of_mem hmem
  rw [herase, List.length_erase_of_mem hmem]
  omega

/-- The stored hashes outside a set, counted. -/
def unsent (L : OpLog) (send : HashSet Hash) : ℕ :=
  (L.entries.keys.filter fun h => !send.contains h).length

theorem unsent_insert {send : HashSet Hash} (hh : h ∈ L.entries) (hs : h ∉ send) :
    unsent L (send.insert h) + 1 = unsent L send :=
  length_filter_insert Std.ExtTreeMap.nodup_keys (Std.ExtTreeMap.mem_keys.mpr hh) hs

/-- Pulling the parents of one entry: afterwards each stored parent is sent or a remote
head, and what joined the set joined the queue. -/
theorem pullParents_spec (L : OpLog) (remoteHeads : HashSet Hash) (next : List Hash) (send : HashSet Hash)
    (queue : List Hash) :
    ∃ send' pulled, pullParents L remoteHeads next send queue = (send', queue ++ pulled) ∧
      (∀ x, x ∈ send' ↔ x ∈ send ∨ x ∈ pulled) ∧
      (∀ p ∈ next, p ∈ L.entries → p ∈ send' ∨ p ∈ remoteHeads) ∧
      unsent L send' + pulled.length = unsent L send := by
  induction next generalizing send queue with
  | nil => exact ⟨send, [], by simp [pullParents]⟩
  | cons p next ih =>
    by_cases hp : p ∉ send ∧ p ∉ remoteHeads ∧ p ∈ L.entries
    · obtain ⟨hps, hpr, hpL⟩ := hp
      obtain ⟨send', pulled, hrun, hmem, hpar, hcount⟩ := ih (send.insert p) (queue ++ [p])
      have hget : (L.get p).isSome := by
        rw [OpLog.get, ← Std.ExtTreeMap.mem_iff_isSome_getElem?]
        exact hpL
      refine ⟨send', p :: pulled, ?_, fun x => ?_, ?_, ?_⟩
      · simp [pullParents, hps, hpr, hget, hrun]
      · rw [hmem, HashSet.mem_insert, List.mem_cons]
        grind
      · rintro q (_ | ⟨_, hq⟩) hqL
        · exact .inl ((hmem p).mpr (.inl (HashSet.mem_insert.mpr (.inl rfl))))
        · exact hpar q hq hqL
      · rw [← unsent_insert hpL hps, List.length_cons]
        omega
    · obtain ⟨send', pulled, hrun, hmem, hpar, hcount⟩ := ih send queue
      have hcond : (!send.contains p && !remoteHeads.contains p && (L.get p).isSome) = false := by
        rw [Bool.eq_false_iff]
        intro hc
        simp only [Bool.and_eq_true, Bool.not_eq_true', HashSet.contains_eq_false, OpLog.get,
          ← Std.ExtTreeMap.mem_iff_isSome_getElem?] at hc
        exact hp ⟨hc.1.1, hc.1.2, hc.2⟩
      refine ⟨send', pulled, by simp [pullParents, hcond, hrun], hmem, ?_, hcount⟩
      rintro q (_ | ⟨_, hq⟩) hqL
      · by_cases hps : p ∈ send
        · exact .inl ((hmem p).mpr (.inl hps))
        · by_cases hpr : p ∈ remoteHeads
          · exact .inr hpr
          · exact absurd ⟨hps, hpr, hqL⟩ hp
      · exact hpar q hq hqL

/-- **Ancestor closure.** The set it returns contains the one it was given, and every stored
parent of a member is a member or a remote head. -/
theorem closeAncestors_spec (L : OpLog) (remoteHeads : HashSet Hash) (fuel : ℕ) (queue : List Hash)
    (send : HashSet Hash) (hfuel : queue.length + unsent L send ≤ fuel)
    (hinv : ∀ x ∈ send, x ∈ queue ∨
      ∀ p ∈ L.nextOf x, p ∈ L.entries → p ∈ send ∨ p ∈ remoteHeads) :
    (∀ x ∈ send, x ∈ closeAncestors L remoteHeads fuel queue send) ∧
    ∀ x ∈ closeAncestors L remoteHeads fuel queue send, ∀ p ∈ L.nextOf x, p ∈ L.entries →
      p ∈ closeAncestors L remoteHeads fuel queue send ∨ p ∈ remoteHeads := by
  induction fuel generalizing queue send with
  | zero =>
    obtain rfl : queue = [] := List.eq_nil_of_length_eq_zero (by omega)
    exact ⟨fun x hx => hx, fun x hx => (hinv x hx).resolve_left (by simp)⟩
  | succ fuel ih =>
    cases queue with
    | nil => exact ⟨fun x hx => hx, fun x hx => (hinv x hx).resolve_left (by simp)⟩
    | cons h queue =>
      rw [List.length_cons] at hfuel
      cases he : L.get h with
      | none =>
        have hno : L.nextOf h = [] := by simp [OpLog.nextOf, he]
        have hstep : closeAncestors L remoteHeads (fuel + 1) (h :: queue) send =
            closeAncestors L remoteHeads fuel queue send := by simp [closeAncestors, he]
        rw [hstep]
        refine ih queue send (by omega) fun x hx => ?_
        rcases hinv x hx with hq | hq
        · rcases List.mem_cons.mp hq with rfl | hq
          · exact .inr (by simp [hno])
          · exact .inl hq
        · exact .inr hq
      | some e =>
        obtain ⟨send', pulled, hrun, hmem, hpar, hcount⟩ :=
          pullParents_spec L remoteHeads e.next send queue
        have hnext : L.nextOf h = e.next := nextOf_eq_of_get he
        have hstep : closeAncestors L remoteHeads (fuel + 1) (h :: queue) send =
            closeAncestors L remoteHeads fuel (queue ++ pulled) send' := by
          simp [closeAncestors, he, hrun]
        rw [hstep]
        obtain ⟨h1, h2⟩ := ih (queue ++ pulled) send' (by rw [List.length_append]; omega) <| by
          intro x hx
          rcases (hmem x).mp hx with hxs | hxp
          · rcases hinv x hxs with hq | hq
            · rcases List.mem_cons.mp hq with rfl | hq
              · exact .inr (by rw [hnext]; exact hpar)
              · exact .inl (List.mem_append_left _ hq)
            · refine .inr fun p hp hpL => (hq p hp hpL).imp_left fun hps => ?_
              exact (hmem p).mpr (.inl hps)
          · exact .inl (List.mem_append_right _ hxp)
        exact ⟨fun x hx => h1 x ((hmem x).mpr (.inl hx)), h2⟩

end Phases

/-! ### The payload -/

/-- The hashes of a batch. -/
def hashesOf (es : List Entry) : List Hash := es.map Entry.hash

/-- What a payload for an offer with the given heads satisfies. -/
structure EntriesMissing (L : OpLog) (remoteHeads : List Hash) (es : List Entry) : Prop where
  /-- Only stored entries are sent. -/
  stored : ∀ e ∈ es, L.entries[e.hash]? = some e
  /-- No entry is sent twice. -/
  nodup : (hashesOf es).Nodup
  /-- The heads the remote does not have as heads are sent. -/
  heads : ∀ h ∈ L.heads, h ∈ hashesOf es ∨ h ∈ remoteHeads
  /-- Parents are sent along, except the remote's heads. -/
  closed : ∀ e ∈ es, ∀ p ∈ e.next, p ∈ hashesOf es ∨ p ∈ remoteHeads
  /-- Parents come first. -/
  order : ∀ pre e post, es = pre ++ e :: post → ∀ p ∈ e.next, p ∈ hashesOf es → p ∈ hashesOf pre

/-- Entries the store writes: parents named once, no `refs`, no checkpoint. -/
structure Plain (L : OpLog) : Prop where
  nextNodup : L.NextNodup
  noRefs : ∀ (h : Hash) (e : Entry), L.entries[h]? = some e → e.refs = []
  noCheckpoint : ∀ (h : Hash) (e : Entry), L.entries[h]? = some e → e.payload.isCheckpoint = false

theorem Plain.refsStored {L : OpLog} (hp : Plain L) : L.RefsStored := fun h e he r hr => by
  rw [hp.noRefs h e he] at hr
  cases hr

/-- `entries_missing` answers every offer whose filter has sound dimensions, and its payload
satisfies `EntriesMissing` whatever bits the filter holds. -/
theorem entriesMissing_spec [Crates] {L : OpLog} (hL : L.WellFormed) (hnd : L.NextNodup)
    (hr : L.RefsStored) (offer : SyncOffer) (hb : offer.bloom.Dims) :
    ∃ payload, entriesMissing L offer = some payload ∧
      EntriesMissing L offer.heads payload.entries := by
  obtain ⟨all, hall, hallnd, hallmem, hallpf⟩ := entriesSince_none_spec hL hnd hr
  by_cases hup : L.heads.toList.all fun h =>
      (Std.ExtTreeSet.ofList offer.heads compare : HashSet Hash).contains h
  · refine ⟨⟨[], computeNeed L offer.heads⟩, ?_, ?_, ?_, ?_, ?_, ?_⟩
    · simp only [entriesMissing, hall, Option.bind_eq_bind, Option.bind_some, if_pos hup]
      rfl
    · simp
    · simp [hashesOf]
    · intro h hh
      have := List.all_eq_true.mp hup h (Std.ExtTreeSet.mem_toList.mpr hh)
      rw [Std.ExtTreeSet.contains_iff_mem, HashSet.mem_ofList] at this
      exact .inr this
    · simp
    · simp
  · obtain ⟨send₀, hsend₀⟩ := notInBloom_spec hb all
    let remote : HashSet Hash := Std.ExtTreeSet.ofList offer.heads compare
    let send := forceHeads L.heads remote send₀
    let closed := closeAncestors L remote (send.size + L.entries.size) send.toList send
    have hremote : ∀ x, x ∈ remote ↔ x ∈ offer.heads := fun x => HashSet.mem_ofList
    have hfuel : send.toList.length + unsent L send ≤ send.size + L.entries.size := by
      have h1 : unsent L send ≤ L.entries.keys.length := List.length_filter_le _ _
      rw [Std.ExtTreeMap.length_keys] at h1
      rw [Std.ExtTreeSet.length_toList]
      omega
    obtain ⟨hsub, hcl⟩ := closeAncestors_spec L remote
      (send.size + L.entries.size) send.toList send hfuel
      fun x hx => .inl (Std.ExtTreeSet.mem_toList.mpr hx)
    -- the payload holds the stored hashes of the closed set
    have hpay : ∀ x, x ∈ hashesOf (all.filter fun e => closed.contains e.hash) ↔
        x ∈ L.entries ∧ x ∈ closed := by
      intro x
      simp only [hashesOf, List.mem_map, List.mem_filter, Std.ExtTreeSet.contains_iff_mem]
      constructor
      · rintro ⟨e, ⟨he, hc⟩, rfl⟩
        exact ⟨HashMap.mem_iff_getElem?.mpr ⟨e, (hallmem e).mp he⟩, hc⟩
      · rintro ⟨hx, hc⟩
        obtain ⟨e, he⟩ := HashMap.mem_iff_getElem?.mp hx
        obtain ⟨rfl, -⟩ := hL.rep.keyed x e he
        exact ⟨e, ⟨(hallmem e).mpr he, hc⟩, rfl⟩
    refine ⟨⟨all.filter fun e => closed.contains e.hash, computeNeed L offer.heads⟩, ?_, ?_, ?_,
      ?_, ?_, ?_⟩
    · simp only [entriesMissing, hall, Option.bind_eq_bind, Option.bind_some, if_neg hup, hsend₀]
      rfl
    · exact fun e he => (hallmem e).mp (List.mem_of_mem_filter he)
    · exact hallnd.sublist (List.filter_sublist.map _)
    · intro h hh
      by_cases hhr : h ∈ remote
      · exact .inr ((hremote h).mp hhr)
      · refine .inl ((hpay h).mpr ⟨((hL.rep.heads h).mp hh).1, hsub h ?_⟩)
        exact mem_forceHeads.mpr (.inr ⟨hh, hhr⟩)
    · intro e he p hp
      obtain ⟨hea, hec⟩ := List.mem_filter.mp he
      have hget := (hallmem e).mp hea
      have hpL := hL.rep.parents _ e hget p hp
      rcases hcl e.hash (Std.ExtTreeSet.contains_iff_mem.mp hec) p
        (mem_nextOf.mpr ⟨e, hget, hp⟩) hpL with hpc | hpr
      · exact .inl ((hpay p).mpr ⟨hpL, hpc⟩)
      · exact .inr ((hremote p).mp hpr)
    · intro pre e post heq p hp hpP
      replace heq : (all.filter fun e => closed.contains e.hash) = pre ++ e :: post := heq
      have hmap : hashesOf (all.filter fun e => closed.contains e.hash) =
          (all.map Entry.hash).filter fun h => closed.contains h := by
        rw [hashesOf, List.filter_map]
        rfl
      have hpf := hallpf.filter fun h => closed.contains h
      rw [← hmap] at hpf
      have hget : L.entries[e.hash]? = some e := by
        refine (hallmem e).mp (List.mem_of_mem_filter (p := fun e => closed.contains e.hash) ?_)
        rw [heq]
        simp
      refine hpf (hashesOf pre) e.hash (hashesOf post) ?_ p (mem_nextOf.mpr ⟨e, hget, hp⟩) ?_
      · rw [heq]
        simp [hashesOf]
      · exact ⟨((hpay p).mp hpP).1, Std.ExtTreeSet.contains_iff_mem.mpr ((hpay p).mp hpP).2⟩

/-! ### One exchange -/

/-- Two logs that hold the same content under every hash they share. -/
def Agree (A B : OpLog) : Prop :=
  ∀ (h : Hash) (a b : Entry), A.entries[h]? = some a → B.entries[h]? = some b →
    a.content = b.content

section Exchange

variable [Crates] {A B : OpLog} {es : List Entry} {remoteHeads : List Hash}

/-- BLAKE3 gives no two entries of the two logs the same hash unless their contents are the
same. -/
def CollisionFree (A B : OpLog) : Prop :=
  ∀ (h h' : Hash) (a b : Entry), A.entries[h]? = some a → B.entries[h']? = some b →
    Crates.contentHash a.content = Crates.contentHash b.content → a.content = b.content

theorem CollisionFree.agree (hc : CollisionFree A B) (hA : A.RepInv) (hB : B.RepInv) :
    Agree A B := by
  intro h a b ha hb
  obtain ⟨rfl, hav⟩ := hA.keyed h a ha
  obtain ⟨hbh, hbv⟩ := hB.keyed a.hash b hb
  refine hc a.hash a.hash a b ha hb ?_
  rw [← Entry.verifyHash_iff.mp hav, ← Entry.verifyHash_iff.mp hbv, hbh]

omit [Crates] in
theorem Agree.nextOf_eq (hc : Agree A B) {h : Hash} (hA : h ∈ A.entries) (hB : h ∈ B.entries) :
    A.nextOf h = B.nextOf h := by
  obtain ⟨a, ha⟩ := HashMap.mem_iff_getElem?.mp hA
  obtain ⟨b, hb⟩ := HashMap.mem_iff_getElem?.mp hB
  have hnext : a.next = b.next := congrArg SignableContent.next (hc h a b ha hb)
  rw [nextOf_eq_of_get ha, nextOf_eq_of_get hb, hnext]

/-- What one log lacks, it lacks every descendant of, as the other log sees them. -/
theorem Agree.mem_of_ancestor (hc : Agree A B) (hA : A.RepInv) (hB : B.RepInv) {h t : Hash}
    (hanc : Dag.Ancestor A.nextOf h t) (htA : t ∈ A.entries) (htB : t ∈ B.entries) :
    h ∈ B.entries := by
  have hstep : ∀ x y, x ∈ A.nextOf y → y ∈ A.entries → y ∈ B.entries → x ∈ B.entries :=
    fun x y hxy hyA hyB => hB.parentClosed y hyB x (hc.nextOf_eq hyA hyB ▸ hxy)
  induction hanc with
  | single hht => exact hstep _ _ hht htA htB
  | tail _ hbc ih => exact ih (hA.parentClosed _ htA _ hbc) (hstep _ _ hbc htA htB)

/-- **Delivery.** The payload and the recipient's entries cover the sender's log. -/
theorem EntriesMissing.delivers (hp : EntriesMissing A remoteHeads es) (hA : A.WellFormed)
    (hB : B.RepInv) (hc : Agree A B) (hheads : ∀ h ∈ remoteHeads, h ∈ B.entries) {h : Hash}
    (hh : h ∈ A.entries) : h ∈ B.entries ∨ h ∈ hashesOf es := by
  obtain ⟨t, ht, hth⟩ := hA.exists_head hh
  have htA : t ∈ A.entries := ((hA.rep.heads t).mp ht).1
  rcases hth with rfl | hanc
  · exact (hp.heads t ht).symm.imp_left (hheads t)
  · by_cases hhB : h ∈ B.entries
    · exact .inl hhB
    · -- no descendant of `h` is held, so the walk down from the head meets no remote head
      have hsent : ∀ x, x ∈ A.entries → Dag.Ancestor A.nextOf h x → x ∉ B.entries := fun x hxA hx hxB =>
        hhB (hc.mem_of_ancestor hA.rep hB hx hxA hxB)
      have hdown : ∀ x, Dag.Ancestor A.nextOf h x → x ∈ hashesOf es → h ∈ hashesOf es := by
        intro x hx
        induction hx with
        | single hhx =>
          intro hxP
          obtain ⟨e, he, rfl⟩ := List.mem_map.mp hxP
          rw [nextOf_eq_of_get (hp.stored e he)] at hhx
          exact (hp.closed e he _ hhx).resolve_right fun hr => hhB (hheads _ hr)
        | @tail b c hhb hbc ih =>
          intro hcP
          obtain ⟨e, he, rfl⟩ := List.mem_map.mp hcP
          have hbA := hA.rep.parentClosed _ (HashMap.mem_iff_getElem?.mpr ⟨e, hp.stored e he⟩) _ hbc
          rw [nextOf_eq_of_get (hp.stored e he)] at hbc
          exact ih <| (hp.closed e he _ hbc).resolve_right fun hr => hsent b hbA hhb (hheads _ hr)
      refine .inr (hdown t hanc ((hp.heads t ht).resolve_right fun hr => ?_))
      exact hsent t htA hanc (hheads t hr)

/-- **Order.** Each entry of the payload comes after those of its parents the recipient
lacks. -/
theorem EntriesMissing.parents_first (hp : EntriesMissing A remoteHeads es) (hA : A.WellFormed)
    (hB : B.RepInv) (hc : Agree A B) (hheads : ∀ h ∈ remoteHeads, h ∈ B.entries)
    {pre post : List Entry} {e : Entry} (heq : es = pre ++ e :: post) {p : Hash} (hpe : p ∈ e.next)
    (hpB : p ∉ B.entries) : p ∈ hashesOf pre := by
  have he : A.entries[e.hash]? = some e := hp.stored e (by rw [heq]; simp)
  have hpA := hA.rep.parents e.hash e he p hpe
  exact hp.order pre e post heq p hpe ((hp.delivers hA hB hc hheads hpA).resolve_left hpB)

/-- Every stored entry is resolvable over the recipient's log, from any part of the payload
that has what the recipient lacks. -/
theorem EntriesMissing.resolvable (hp : EntriesMissing A remoteHeads es) (hA : A.WellFormed)
    (hB : B.RepInv) (hc : Agree A B) (hheads : ∀ h ∈ remoteHeads, h ∈ B.entries) {batch : List Entry}
    (hbatch : ∀ e ∈ es, e.hash ∉ B.entries → e ∈ batch) {h : Hash} (hh : h ∈ A.entries) :
    Resolvable B batch h := by
  obtain ⟨rank, hrank⟩ := hA.causal
  induction hn : rank h using Nat.strong_induction_on generalizing h with
  | _ n ih =>
    subst hn
    by_cases hhB : h ∈ B.entries
    · exact .held hhB
    · obtain ⟨e, he, rfl⟩ := List.mem_map.mp ((hp.delivers hA hB hc hheads hh).resolve_left hhB)
      have hget := hp.stored e he
      refine .entry (hbatch e he hhB) (hA.rep.keyed _ e hget).2 fun p hpe => ?_
      exact ih _ (hrank _ p (nextOf_eq_of_get hget ▸ hpe)) (hA.rep.parents _ e hget p hpe) rfl

/-- A recipient whose filter lets through what it lacks of a payload, no parentless checkpoint
among it, merges the payload if its entries can be resolved, and holds it afterwards with what
it held. -/
theorem mergeBatch_admitted (hB : B.WellFormed) (passes : Entry → Bool)
    (hlack : ∀ e ∈ es, e.hash ∉ B.entries → passes e = true ∧ ¬ e.isRootCheckpoint)
    (hres : ∀ batch : List Entry, (∀ e ∈ es, e.hash ∉ B.entries → e ∈ batch) →
      ∀ e ∈ es, e.verifyHash ∧ Resolvable B batch e.hash) :
    ∃ new, (mergeBatch B (es.filter passes)).1 = .ok new ∧
      Inserts B new (mergeBatch B (es.filter passes)).2 ∧ new ⊆ es.filter passes ∧
      ∀ h, h ∈ (mergeBatch B (es.filter passes)).2.entries ↔ h ∈ B.entries ∨ h ∈ hashesOf es := by
  have hn : NoReplace B (es.filter passes) := fun e he _ hroot => by
    by_contra hno
    exact (hlack e (List.mem_of_mem_filter he) hno).2 hroot
  have hbatch : ∀ e ∈ es, e.hash ∉ B.entries → e ∈ es.filter passes := fun e he hno =>
    List.mem_filter.mpr ⟨he, (hlack e he hno).1⟩
  obtain ⟨new, hok⟩ := (mergeBatch_ok_iff hB.nonempty hn).mpr fun e he =>
    hres _ hbatch e (List.mem_of_mem_filter he)
  obtain ⟨hi, hsub, hheld⟩ := mergeBatch_ok hB.nonempty hn hok
  refine ⟨new, hok, hi, hsub, fun h => ⟨fun hh => ?_, ?_⟩⟩
  · refine (hi.mem_iff.mp hh).imp_right fun hh => ?_
    obtain ⟨e, he, rfl⟩ := List.mem_map.mp hh
    exact List.mem_map_of_mem (List.mem_of_mem_filter (hsub he))
  · rintro (hh | hh)
    · exact hi.mem_mono hh
    · obtain ⟨e, he, rfl⟩ := List.mem_map.mp hh
      by_cases hB' : e.hash ∈ B.entries
      · exact hi.mem_mono hB'
      · exact (hheld e (hbatch e he hB')).2

/-- What one exchange from `A` to `B` does when the recipient filters what it merges: if the
filter lets through what `B` lacks, and that is no parentless checkpoint, the merge goes
through and leaves `B` with the union. -/
theorem EntriesMissing.merge_admitted (hp : EntriesMissing A remoteHeads es) (hA : A.WellFormed)
    (hB : B.WellFormed) (hc : Agree A B) (hheads : ∀ h ∈ remoteHeads, h ∈ B.entries)
    (passes : Entry → Bool)
    (hlack : ∀ e ∈ es, e.hash ∉ B.entries → passes e = true ∧ ¬ e.isRootCheckpoint) :
    ∃ new, (mergeBatch B (es.filter passes)).1 = .ok new ∧
      Inserts B new (mergeBatch B (es.filter passes)).2 ∧ new ⊆ es.filter passes ∧
      ∀ h, h ∈ (mergeBatch B (es.filter passes)).2.entries ↔ h ∈ A.entries ∨ h ∈ B.entries := by
  have hres : ∀ batch : List Entry, (∀ e ∈ es, e.hash ∉ B.entries → e ∈ batch) →
      ∀ e ∈ es, e.verifyHash ∧ Resolvable B batch e.hash := fun batch hbatch e he => by
    have hget := hp.stored e he
    exact ⟨(hA.rep.keyed _ e hget).2,
      hp.resolvable hA hB.rep hc hheads hbatch (HashMap.mem_iff_getElem?.mpr ⟨e, hget⟩)⟩
  obtain ⟨new, hok, hi, hsub, hmem⟩ := mergeBatch_admitted hB passes hlack hres
  refine ⟨new, hok, hi, hsub, fun h => (hmem h).trans ⟨?_, ?_⟩⟩
  · rintro (hh | hh)
    · exact .inr hh
    · obtain ⟨e, he, rfl⟩ := List.mem_map.mp hh
      exact .inl (HashMap.mem_iff_getElem?.mpr ⟨e, hp.stored e he⟩)
  · rintro (hh | hh)
    · exact hp.delivers hA hB.rep hc hheads hh
    · exact .inl hh

/-- What one exchange from `A` to `B` does: it goes through, inserts exactly what `B` lacks,
and leaves `B` with the union. -/
theorem EntriesMissing.merge (hp : EntriesMissing A remoteHeads es) (hA : A.WellFormed)
    (hplain : Plain A) (hB : B.WellFormed) (hc : Agree A B)
    (hheads : ∀ h ∈ remoteHeads, h ∈ B.entries) :
    ∃ new B', Inserts B new B' ∧ new ⊆ es ∧ (∀ h, h ∈ B'.entries ↔ h ∈ A.entries ∨ h ∈ B.entries) ∧
      mergeEntries B es =
        (.ok (A.entries.keys.filter fun h => !B.entries.contains h).length, B') := by
  obtain ⟨new, hok, hi, hsub, hunion⟩ := hp.merge_admitted hA hB hc hheads (fun _ => true)
    fun e he _ => ⟨rfl, fun hroot => by
      have hcp := hplain.noCheckpoint _ e (hp.stored e he)
      simp [Entry.isRootCheckpoint, hcp] at hroot⟩
  rw [List.filter_true] at hok hi hsub hunion
  refine ⟨new, (mergeBatch B es).2, hi, hsub, hunion, ?_⟩
  -- the inserted hashes and the missing ones are the same, and neither list repeats
  have hperm : (new.map Entry.hash).Perm (A.entries.keys.filter fun h => !B.entries.contains h) := by
    refine (List.perm_ext_iff_of_nodup hi.fresh.2 (Std.ExtTreeMap.nodup_keys.filter _)).mpr ?_
    intro h
    rw [List.mem_filter, Std.ExtTreeMap.mem_keys, Bool.not_eq_true', ← Bool.not_eq_true,
      Std.ExtTreeMap.contains_iff_mem]
    constructor
    · intro hh
      obtain ⟨e, he, rfl⟩ := List.mem_map.mp hh
      exact ⟨HashMap.mem_iff_getElem?.mpr ⟨e, hp.stored e (hsub he)⟩, hi.fresh.1 e he⟩
    · rintro ⟨hhA, hhB⟩
      exact (hi.mem_iff.mp ((hunion h).mpr (.inl hhA))).resolve_left hhB
  have hlen := hperm.length_eq
  rw [List.length_map] at hlen
  rw [mergeEntries_of_ok hok, hlen]

end Exchange

/-! ### Offers -/

/-- The offer of a log names its heads, and its filter has sound dimensions. -/
theorem SyncOffer.fromOplog_spec [Crates] {L : OpLog} (hL : L.WellFormed) (hnd : L.NextNodup)
    (hr : L.RefsStored) (σ : HashOrder) (physicalMs logical : ℕ) :
    ∃ offer, SyncOffer.fromOplog σ L physicalMs logical = some offer ∧ offer.bloom.Dims ∧
      ∀ h, h ∈ offer.heads ↔ h ∈ L.heads := by
  obtain ⟨all, hall, -⟩ := entriesSince_none_spec hL hnd hr
  have hfold : ∀ (es : List Entry) (bloom : BloomFilter), bloom.Dims →
      ∃ bloom', es.foldlM (fun bloom e => bloom.insert e.hash) bloom = some bloom' ∧ bloom'.Dims := by
    intro es
    induction es with
    | nil => exact fun bloom hb => ⟨bloom, rfl, hb⟩
    | cons e es ih =>
      intro bloom hb
      obtain ⟨bloom₁, hins, hb₁⟩ := hb.insert e.hash
      obtain ⟨bloom₂, hrun, hb₂⟩ := ih bloom₁ hb₁
      exact ⟨bloom₂, by rw [List.foldlM_cons, hins]; exact hrun, hb₂⟩
  obtain ⟨bloom, hrun, hb⟩ := hfold all (.new (max all.length 128)) (.new _)
  refine ⟨⟨currentProtocolVersion, σ.walk L.heads.toList, bloom, physicalMs, logical⟩, ?_, hb,
    fun h => ?_⟩
  · simp only [SyncOffer.fromOplog, hall, Option.bind_eq_bind, Option.bind_some, hrun]
    rfl
  · rw [HashOrder.mem_walk, Std.ExtTreeSet.mem_toList]

/-! ### Both directions -/

section Both

variable [Crates] {A B B' : OpLog} {new es : List Entry}

/-- A log that only had plain entries inserted stays plain. -/
theorem Inserts.plain (hi : Inserts B new B') (hB : Plain B) (hA : Plain A)
    (hsub : ∀ e ∈ new, A.entries[e.hash]? = some e) : Plain B' := by
  refine ⟨fun h e he => ?_, fun h e he => ?_, fun h e he => ?_⟩ <;>
    rcases hi.source he with he | ⟨he, -⟩
  · exact hB.nextNodup h e he
  · exact hA.nextNodup _ e (hsub e he)
  · exact hB.noRefs h e he
  · exact hA.noRefs _ e (hsub e he)
  · exact hB.noCheckpoint h e he
  · exact hA.noCheckpoint _ e (hsub e he)

/-- A log that only had entries of `A` inserted agrees with `A` if it did before. -/
theorem Inserts.agree (hi : Inserts B new B') (hc : Agree A B)
    (hsub : ∀ e ∈ new, A.entries[e.hash]? = some e) : Agree A B' := by
  intro h a b ha hb
  rcases hi.source hb with hb | ⟨hnew, rfl⟩
  · exact hc h a b ha hb
  · rw [hsub b hnew] at ha
    rw [Option.some.inj ha]

omit [Crates] in
theorem Agree.symm (hc : Agree A B) : Agree B A := fun h b a hb ha => (hc h a b ha hb).symm

/-- Two logs with the same hashes and contents have the same heads. -/
theorem Agree.heads_eq (hc : Agree A B) (hA : A.RepInv) (hB : B.RepInv)
    (hmem : ∀ h, h ∈ A.entries ↔ h ∈ B.entries) : A.heads = B.heads := by
  have hparent : ∀ (A B : OpLog), Agree A B → (∀ h, h ∈ A.entries ↔ h ∈ B.entries) → ∀ h,
      (∀ (h' : Hash) (e : Entry), B.entries[h']? = some e → h ∉ e.next) →
        ∀ (h' : Hash) (e : Entry), A.entries[h']? = some e → h ∉ e.next := by
    intro A B hc hmem h hno h' a ha hcontra
    obtain ⟨b, hb⟩ := HashMap.mem_iff_getElem?.mp
      ((hmem h').mp (HashMap.mem_iff_getElem?.mpr ⟨a, ha⟩))
    have hnext : a.next = b.next := congrArg SignableContent.next (hc h' a b ha hb)
    exact hno h' b hb (hnext ▸ hcontra)
  ext h
  rw [hA.heads, hB.heads, hmem]
  refine and_congr_right fun _ => ⟨?_, ?_⟩
  · exact hparent B A hc.symm (fun h => (hmem h).symm) h
  · exact hparent A B hc hmem h

omit [Crates] in
/-- Two logs with the same hashes and contents hold the same under each hash. -/
theorem Agree.contents_eq (hc : Agree A B) (hmem : ∀ h, h ∈ A.entries ↔ h ∈ B.entries) (h : Hash) :
    A.entries[h]?.map Entry.content = B.entries[h]?.map Entry.content := by
  cases hA : A.entries[h]? with
  | none =>
    have hB : h ∉ B.entries := fun hb => HashMap.not_mem_iff_getElem?.mpr hA ((hmem h).mpr hb)
    rw [HashMap.not_mem_iff_getElem?.mp hB]
  | some a =>
    obtain ⟨b, hb⟩ := HashMap.mem_iff_getElem?.mp
      ((hmem h).mp (HashMap.mem_iff_getElem?.mpr ⟨a, hA⟩))
    rw [hb, Option.map_some, Option.map_some, hc h a b hA hb]

end Both

/-- **Sync delivers everything whatever the filter says.** Two logs grown by `append` from
hash-valid parentless entries, without checkpoints, with repeat-free parent lists and empty
`refs`, exchange entries in one direction and then in the other. The payload covers what the
recipient lacks, parents first; the merge reports exactly the missing entries; afterwards
the two logs hold the same entries and have the same heads. -/
theorem sync_delivers [Crates] (genesisA genesisB : Entry) (appendsA appendsB : List Entry)
    (hgA : genesisA.verifyHash ∧ genesisA.next = []) (hgB : genesisB.verifyHash ∧ genesisB.next = [])
    (A B : OpLog) (hA : A = (OpLog.new genesisA).appendAll appendsA)
    (hB : B = (OpLog.new genesisB).appendAll appendsB) (hplainA : Plain A) (hplainB : Plain B)
    (hc : CollisionFree A B) (offerA offerB : SyncOffer)
    (hofferA : ∀ h, h ∈ offerA.heads ↔ h ∈ A.heads) (hofferB : ∀ h, h ∈ offerB.heads ↔ h ∈ B.heads)
    (hdimsA : offerA.bloom.Dims) (hdimsB : offerB.bloom.Dims) :
    ∃ (payload : SyncPayload) (B' : OpLog), entriesMissing A offerB = some payload ∧
      (∀ h ∈ A.entries, h ∈ B.entries ∨ h ∈ hashesOf payload.entries) ∧
      (∀ pre e post, payload.entries = pre ++ e :: post →
        ∀ p ∈ e.next, p ∉ B.entries → p ∈ hashesOf pre) ∧
      mergeEntries B payload.entries =
        (.ok (A.entries.keys.filter fun h => !B.entries.contains h).length, B') ∧
      ∃ (payload' : SyncPayload) (A' : OpLog), entriesMissing B' offerA = some payload' ∧
        mergeEntries A payload'.entries =
          (.ok (B'.entries.keys.filter fun h => !A.entries.contains h).length, A') ∧
        (∀ h : Hash, A'.entries[h]?.map Entry.content = B'.entries[h]?.map Entry.content) ∧
        A'.heads = B'.heads := by
  have hwA : A.WellFormed := hA ▸ (WellFormed.new hgA.1 hgA.2).appendAll appendsA
  have hwB : B.WellFormed := hB ▸ (WellFormed.new hgB.1 hgB.2).appendAll appendsB
  have hag : Agree A B := hc.agree hwA.rep hwB.rep
  have hheadsB : ∀ h ∈ offerB.heads, h ∈ B.entries := fun h hh =>
    ((hwB.rep.heads h).mp ((hofferB h).mp hh)).1
  have hheadsA : ∀ h ∈ offerA.heads, h ∈ A.entries := fun h hh =>
    ((hwA.rep.heads h).mp ((hofferA h).mp hh)).1
  -- there
  obtain ⟨payload, hpay, hp⟩ :=
    entriesMissing_spec hwA hplainA.nextNodup hplainA.refsStored offerB hdimsB
  obtain ⟨new, B', hi, hsub, hunion, hmerge⟩ := hp.merge hwA hplainA hwB hag hheadsB
  have hstored : ∀ e ∈ new, A.entries[e.hash]? = some e := fun e he => hp.stored e (hsub he)
  have hwB' := hi.wellFormed hwB
  have hplainB' : Plain B' := hi.plain hplainB hplainA hstored
  have hag' : Agree B' A := (hi.agree hag hstored).symm
  -- and back
  obtain ⟨payload', hpay', hp'⟩ :=
    entriesMissing_spec hwB' hplainB'.nextNodup hplainB'.refsStored offerA hdimsA
  obtain ⟨new', A', hi', hsub', hunion', hmerge'⟩ := hp'.merge hwB' hplainB' hwA hag' hheadsA
  have hag'' : Agree A' B' := (hi'.agree hag' fun e he => hp'.stored e (hsub' he)).symm
  have hmem : ∀ h, h ∈ A'.entries ↔ h ∈ B'.entries := fun h => by
    rw [hunion', hunion]
    tauto
  refine ⟨payload, B', hpay, fun h => hp.delivers hwA hwB.rep hag hheadsB,
    fun pre e post heq p hpe => hp.parents_first hwA hwB.rep hag hheadsB heq hpe, hmerge,
    payload', A', hpay', hmerge', hag''.contents_eq hmem,
    hag''.heads_eq (hi'.wellFormed hwA).rep hwB'.rep hmem⟩

/-- Plainness, checked entry by entry. -/
theorem Plain.of_toList {L : OpLog} (hL : ∀ kv ∈ L.entries.toList,
    kv.2.next.Nodup ∧ kv.2.refs.isEmpty ∧ kv.2.payload.isCheckpoint = false) : Plain L :=
  ⟨fun h e he => (hL (h, e) (HashMap.mem_toList.mpr he)).1,
    fun h e he => List.isEmpty_iff.mp (hL (h, e) (HashMap.mem_toList.mpr he)).2.1,
    fun h e he => (hL (h, e) (HashMap.mem_toList.mpr he)).2.2⟩

/-- Logs whose contents all hash differently do not collide. -/
theorem CollisionFree.of_toList [Crates] {A B : OpLog} (h : ∀ a ∈ A.entries.toList,
    ∀ b ∈ B.entries.toList, Crates.contentHash a.2.content ≠ Crates.contentHash b.2.content) :
    CollisionFree A B := fun i j a b ha hb heq =>
  absurd heq (h (i, a) (HashMap.mem_toList.mpr ha) (j, b) (HashMap.mem_toList.mpr hb))

open Sample in
/-- A log with a fork against a lone genesis, both offers with a filter that claims to hold
everything. -/
theorem sync_delivers_fork :
    let gA := Entry.new (.removeNode "a") [] [] ⟨"ann", 1, 0⟩ "ann"
    let l := Entry.new (.removeNode "l") [gA.hash] [] ⟨"ann", 2, 0⟩ "ann"
    let r := Entry.new (.removeNode "r") [gA.hash] [] ⟨"ann", 3, 0⟩ "ann"
    let gB := Entry.new (.removeNode "b") [] [] ⟨"bob", 1, 0⟩ "bob"
    let A := (OpLog.new gA).appendAll [l, r]
    let B := OpLog.new gB
    let full : BloomFilter := ⟨[BitVec.allOnes 64], 64, 1, 0⟩
    ∃ payload B', entriesMissing A ⟨3, B.heads.toList, full, 0, 0⟩ = some payload ∧
      mergeEntries B payload.entries = (.ok 3, B') ∧ B'.entries.size = 4 := by
  intro gA l r gB A B full
  obtain ⟨payload, B', hpay, -, -, hmerge, -⟩ := sync_delivers gA gB [l, r] []
    ⟨Entry.verifyHash_new .., rfl⟩ ⟨Entry.verifyHash_new .., rfl⟩ A B rfl rfl
    (Plain.of_toList (by decide +kernel)) (Plain.of_toList (by decide +kernel))
    (CollisionFree.of_toList (by decide +kernel))
    ⟨3, A.heads.toList, full, 0, 0⟩ ⟨3, B.heads.toList, full, 0, 0⟩
    (fun h => by simp only [Std.ExtTreeSet.mem_toList]) (fun h => by simp only [Std.ExtTreeSet.mem_toList])
    ⟨by decide, by decide⟩ ⟨by decide, by decide⟩
  have hcount : (A.entries.keys.filter fun h => !B.entries.contains h).length = 3 := by
    decide +kernel
  rw [hcount] at hmerge
  refine ⟨payload, B', hpay, hmerge, ?_⟩
  have hB' : B' = ((entriesMissing A ⟨3, B.heads.toList, full, 0, 0⟩).map
      fun p => (mergeEntries B p.entries).2).getD B := by
    rw [hpay, Option.map_some, hmerge, Option.getD_some]
  rw [hB']
  decide +kernel

open Sample in
/-- `OpLog::new` takes its genesis unchecked. One with a wrong hash is sent and refused by
the recipient; one with a parent makes the traversal index a hash that is not stored. -/
theorem sync_stops_at_unchecked_genesis :
    let empty : BloomFilter := ⟨[0#64], 64, 1, 0⟩
    let B := OpLog.new (Entry.new (.removeNode "b") [] [] ⟨"bob", 1, 0⟩ "bob")
    let offer : SyncOffer := ⟨3, B.heads.toList, empty, 0, 0⟩
    let unhashed : Entry := ⟨0, .removeNode "a", [], [], ⟨"ann", 1, 0⟩, "ann", none⟩
    let orphan := Entry.new (.removeNode "a") [1] [] ⟨"ann", 1, 0⟩ "ann"
    (entriesMissing (OpLog.new unhashed) offer).map
        (fun p => (hashesOf p.entries, (mergeEntries B p.entries).1)) =
      some ([0], .error ("invalid hash for entry " ++ hexEncode 0)) ∧
    (entriesMissing (OpLog.new orphan) offer).isNone := by
  refine ⟨?_, ?_⟩
  · decide +kernel
  · decide +kernel

end SilkGraph
