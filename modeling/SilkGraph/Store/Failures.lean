import SilkGraph.Store.Durability

/-!
# Transactions that fail

Every call of the store whose transaction may fail: what it leaves in the log, on disk and in
the buffer. The log is written before the transaction and is not taken back, and a flush empties
the buffer before its transaction. So nothing is lost (`NothingLost`) in a run whose transactions
may fail as long as each that fails carries nothing that is not on disk or in the buffer without
it.
-/

namespace SilkGraph

namespace Store

section

variable [Crates] {s : Store} {σ : HashOrder} {txn : TxnResult}

/-! ### The property -/

omit [Crates] in
/-- A hash that is on disk or waits for the flush. -/
def Secured (s : Store) (h : Hash) : Prop := h ∈ s.db.entries ∨ ∃ e ∈ s.pending, e.hash = h

instance (s : Store) : DecidablePred s.Secured := fun _ => inferInstanceAs (Decidable (_ ∨ _))

omit [Crates] in
/-- Every entry of the log is on disk or waits for the flush, and a flush that commits brings
every one to disk. -/
structure NothingLost (s : Store) : Prop where
  secured : ∀ h ∈ s.oplog.entries, s.Secured h
  flushed : ∀ σ, ∀ h ∈ s.oplog.entries, h ∈ (s.flush σ (.ok ())).2.db.entries

omit [Crates] in
theorem mem_flush {h : Hash} : h ∈ (s.flush σ (.ok ())).2.db.entries ↔ s.Secured h := by
  rw [Store.flush, Secured]
  split
  · rename_i hempty
    simp [List.isEmpty_iff.mp hempty]
  · change h ∈ s.pending.foldl _ s.db.entries ↔ _
    rw [mem_persist, List.mem_map]

/-- The invariant behind `NothingLost`. -/
structure KeptInv (s : Store) : Prop where
  sound : s.Sound
  secured : s.oplog.All fun h _ => s.Secured h

theorem KeptInv.nothingLost (hs : s.KeptInv) : s.NothingLost := by
  have hsec : ∀ h ∈ s.oplog.entries, s.Secured h := fun h hh => by
    obtain ⟨e, he⟩ := HashMap.mem_iff_getElem?.mp hh
    exact hs.secured h e he
  exact ⟨hsec, fun σ h hh => mem_flush.mpr (hsec h hh)⟩

/-! ### Calls whose transaction may fail -/

omit [Crates] in
/-- What a call writes through is safe: its transaction commits, or there is none as writes are
deferred, or all of it is on disk or pending already. -/
def Safe (s : Store) (txn : TxnResult) (es : List Entry) : Prop :=
  txn = .ok () ∨ s.flushMode = .deferred ∨ ∀ e ∈ es, s.Secured e.hash

omit [Crates] in
/-- After a call settles what it inserted, all that was secured is, and so is what it inserted. -/
theorem secured_settle {L : OpLog} {new : List Entry} (hsafe : Safe s txn new) {h : Hash}
    (hh : s.Secured h ∨ ∃ e ∈ new, e.hash = h) : (s.settle σ txn L new).Secured h := by
  rw [Store.settle]
  split
  · rename_i hempty
    refine hh.resolve_right ?_
    rintro ⟨e, he, -⟩
    rw [List.isEmpty_iff.mp hempty] at he
    cases he
  · split
    · rename_i hm
      cases txn with
      | error msg =>
        -- nothing is written, so all of it was secured before
        rcases hh with hh | ⟨e, he, rfl⟩
        · exact hh
        · rcases hsafe with htxn | hmode | hall
          · cases htxn
          · rw [hm] at hmode
            cases hmode
          · exact hall e he
      | ok _ =>
        rcases hh with (hh | hh) | ⟨e, he, rfl⟩
        · exact .inl (mem_persist.mpr (.inl hh))
        · exact .inr hh
        · exact .inl (mem_persist.mpr (.inr (List.mem_map_of_mem he)))
    · rcases hh with (hh | ⟨e, he, rfl⟩) | ⟨e, he, rfl⟩
      · exact .inl hh
      · exact .inr ⟨e, List.mem_append_left _ he, rfl⟩
      · exact .inr ⟨e, List.mem_append_right _ he, rfl⟩

omit [Crates] in
theorem settle_oplog {L : OpLog} {new : List Entry} : (s.settle σ txn L new).oplog = L := by
  rw [Store.settle]
  split
  · rfl
  · split
    · cases txn <;> rfl
    · rfl

omit [Crates] in
/-- Settling what a call inserted secures a log whose entries were secured or inserted. -/
theorem secured_of_settle {L : OpLog} {new : List Entry} (hsafe : Safe s txn new)
    (hL : L.All fun h _ => s.Secured h ∨ ∃ e ∈ new, e.hash = h) :
    (s.settle σ txn L new).oplog.All fun h _ => (s.settle σ txn L new).Secured h := by
  rw [settle_oplog]
  exact hL.mono fun h _ => secured_settle hsafe

omit [Crates] in
theorem safe_nil : Safe s txn [] := .inr (.inr nofun)

omit [Crates] in
theorem Safe.mono {es new : List Entry} (h : Safe s txn es) (hsub : ∀ e ∈ new, e ∈ es) :
    Safe s txn new :=
  h.imp_right fun h => h.imp_right fun h e he => h e (hsub e he)

theorem KeptInv.append (hs : s.KeptInv) (e : Entry)
    (hok : Insertable s.oplog e → Safe s txn [e]) : (s.append σ txn e).2.KeptInv := by
  refine ⟨hs.sound.append e, ?_⟩
  rw [append_snd]
  by_cases hins : (s.oplog.append e).1 = .ok true
  · have hins' := (append_inserts_iff hs.sound.log.nonempty e).1.mp hins
    rw [hins]
    refine secured_of_settle (hok hins') ?_
    exact (hs.secured.mono fun _ _ => .inl).append (.inr ⟨e, List.mem_cons_self, rfl⟩)
  · have hnone : appended e (s.oplog.append e).1 = [] := by
      generalize (s.oplog.append e).1 = r at hins
      rcases r with err | (_ | _)
      · rfl
      · rfl
      · exact absurd rfl hins
    rw [hnone, OpLog.append_unchanged _ _ hins]
    exact secured_of_settle safe_nil (hs.secured.mono fun _ _ => .inl)

/-- The condition on an append is exact. -/
theorem KeptInv.append_iff (hs : s.KeptInv) (e : Entry) :
    (s.append σ txn e).2.NothingLost ↔ (Insertable s.oplog e → Safe s txn [e]) := by
  refine ⟨fun hkept hins => ?_, fun hok => (hs.append e hok).nothingLost⟩
  obtain ⟨happ, hmem⟩ := append_inserts_iff hs.sound.log.nonempty e
  have hsecured := hkept.secured e.hash (by rw [append_snd, settle_oplog]; exact hmem hins)
  rw [append_snd, happ.mpr hins] at hsecured
  cases txn with
  | ok _ => exact .inl rfl
  | error msg =>
    cases hm : s.flushMode with
    | deferred => exact .inr (.inl hm)
    | immediate =>
      refine .inr (.inr ?_)
      rw [appended, Store.settle, if_neg (by simp), hm] at hsecured
      rw [List.forall_mem_singleton]
      exact hsecured

theorem KeptInv.merge (hs : s.KeptInv) (es : List Entry) (hatomic : MergeAtomic s.oplog es)
    (hok : InsertsNothing s.oplog es ∨ Safe s txn es) : (s.merge σ txn es).2.KeptInv := by
  refine ⟨hs.sound.merge es, ?_⟩
  rw [merge_snd]
  have hold : s.oplog.All fun h _ => s.Secured h ∨ ∃ e ∈ ([] : List Entry), e.hash = h :=
    hs.secured.mono fun _ _ => .inl
  cases hres : (mergeBatch s.oplog es).1 with
  | error err =>
    rw [hatomic err hres]
    exact secured_of_settle safe_nil hold
  | ok new =>
    rcases hok with hnothing | hsafe
    · obtain ⟨hsame, hnew⟩ := mergeBatch_insertsNothing hs.sound.log.nonempty hnothing
      rw [hsame, merged, hnew new hres]
      exact secured_of_settle safe_nil hold
    · have hsub : ∀ e ∈ new, e ∈ es := fun e he =>
        ((mergeBatch_any hs.sound.log es).2 new hres e he).1
      refine secured_of_settle (hsafe.mono hsub) ?_
      exact mergeBatch_reported (hs.secured.mono fun _ _ => .inl) hres
        fun e he => .inr ⟨e, he, rfl⟩

theorem KeptInv.flush (hs : s.KeptInv) (hok : txn = .ok () ∨
    ∀ e ∈ s.pending, e.hash ∈ s.oplog.entries → e.hash ∈ s.db.entries) :
    (s.flush σ txn).2.KeptInv := by
  refine ⟨hs.sound.flush, ?_⟩
  rw [Store.flush]
  split
  · exact hs.secured
  · cases txn with
    | ok _ =>
      intro h e he
      rcases hs.secured h e he with hh | ⟨e', he', rfl⟩
      · exact .inl (mem_persist.mpr (.inl hh))
      · exact .inl (mem_persist.mpr (.inr (List.mem_map_of_mem he')))
    | error msg =>
      -- the buffer is gone, and so its part of the log has to be on disk
      have hdisk := hok.resolve_left fun h => by cases h
      intro h e he
      rcases hs.secured h e he with hh | ⟨e', he', rfl⟩
      · exact .inl hh
      · exact .inl (hdisk e' he' (HashMap.mem_iff_getElem?.mpr ⟨e, he⟩))

/-- The condition on a flush is exact. -/
theorem KeptInv.flush_iff (hs : s.KeptInv) : (s.flush σ txn).2.NothingLost ↔
    txn = .ok () ∨ ∀ e ∈ s.pending, e.hash ∈ s.oplog.entries → e.hash ∈ s.db.entries := by
  refine ⟨fun hkept => ?_, fun hok => (hs.flush hok).nothingLost⟩
  cases txn with
  | ok _ => exact .inl rfl
  | error msg =>
    refine .inr fun e he hlog => ?_
    have hne : ¬ s.pending.isEmpty = true := fun h => by
      rw [List.isEmpty_iff.mp h] at he
      cases he
    rw [Store.flush, if_neg hne] at hkept
    refine (hkept.secured e.hash hlog).resolve_right ?_
    rintro ⟨e', he', -⟩
    cases he'

/-! ### Opening the file -/

omit [Crates] in
theorem getElem?_indexByHash {es : List Entry} {h : Hash} {e : Entry}
    (he : (indexByHash es)[h]? = some e) : e ∈ es := by
  rcases getElem?_persist he with he | ⟨he, -⟩
  · simp at he
  · exact he

/-- The main loop of the reconstruction brings in nothing but the entries of its index. -/
theorem reconstructLoop_all {P : Hash → Entry → Prop} {byHash : HashMap Hash Entry}
    {childrenOf : HashMap Hash (List Hash)} (hes : ∀ (h : Hash) (e : Entry),
      byHash[h]? = some e → P e.hash e) (fuel : ℕ) {ready : List Hash}
    {pp pp' : HashMap Hash (HashSet Hash)} {L L' : OpLog} (hL : L.All P)
    (hrun : reconstructLoop byHash childrenOf fuel ready pp L = .ok (L', pp')) : L'.All P := by
  induction fuel generalizing ready pp L with
  | zero =>
    rw [reconstructLoop] at hrun
    cases hrun
    exact hL
  | succ fuel ih =>
    cases ready with
    | nil =>
      rw [reconstructLoop] at hrun
      cases hrun
      exact hL
    | cons x ready =>
      rw [reconstructLoop] at hrun
      cases he : byHash[x]? with
      | none =>
        rw [he] at hrun
        exact ih hL hrun
      | some e =>
        rw [he] at hrun
        simp only at hrun
        split at hrun
        · cases hrun
        · rename_i b L₁ happ
          have hL₁ := hL.append (hes x e he)
          rw [happ] at hL₁
          exact ih hL₁ hrun

/-- A reconstruction brings in nothing but the entries it is given. -/
theorem reconstructOplog_all {P : Hash → Entry → Prop} {es : List Entry} {L : OpLog}
    (hes : ∀ e ∈ es, P e.hash e) (hrun : reconstructOplog σ es = .ok L) : L.All P := by
  rw [reconstructOplog] at hrun
  split at hrun
  · cases hrun
  · split at hrun
    · cases hrun
    · rename_i genesis others hroots
      have hmem : ∀ e ∈ genesis :: others, e ∈ es := by
        rw [← hroots]
        exact fun e he => (List.mem_filter.mp he).1
      rw [reconstructFrom] at hrun
      simp only at hrun
      split at hrun
      · cases hrun
      · rename_i L' pp' hloop
        split at hrun
        · obtain rfl := Except.ok.inj hrun
          have hstart : ((OpLog.new genesis).appendAll others).All P := by
            have hnew : (OpLog.new genesis).All P :=
              .new (hes genesis (hmem genesis List.mem_cons_self))
            exact hnew.appendAll fun e he => hes e (hmem e (List.mem_cons_of_mem _ he))
          exact reconstructLoop_all (fun h e he => hes e (getElem?_indexByHash he)) _ hstart hloop
        · cases hrun

/-- The log of a file that was opened is on disk. -/
theorem KeptInv.openDb {s' : Store} (hs : s.KeptInv)
    (hrun : Store.openDb σ txn s.db none = .ok s') : s'.KeptInv := by
  refine ⟨hs.sound.openDb hrun, ?_⟩
  obtain ⟨L, hrec, rfl⟩ := openDb_ok hrun
  refine reconstructOplog_all (fun e he => .inl ?_) hrec
  obtain ⟨h, he⟩ := mem_loadEntries.mp he
  obtain ⟨rfl, -⟩ := hs.sound.rows h e he
  exact HashMap.mem_iff_getElem?.mpr ⟨e, he⟩

end

end Store

end SilkGraph
