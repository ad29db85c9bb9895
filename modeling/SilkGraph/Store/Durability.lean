import SilkGraph.Store.Reopen
import SilkGraph.Sync.Atomic

/-!
# Durability

What is on disk and what waits for the flush is the log, and what is on disk can be opened:
`Durable`. The store keeps this up (`durable_of_run`) as long as no call

* lets a checkpoint replace the log through `append` or `merge`, which leave the old rows in
  the file;
* fails a merge after it inserted something, which leaves the log ahead of the file;
* compacts while writes are pending, which leaves them in the buffer;
* writes an entry through whose parent is still pending, after a switch of the flush mode;
* brings in a root whose hash is below that of a checkpoint root, which the next opening
  reads first.

The counterexample at the end runs into four of the five.
-/

namespace SilkGraph

namespace Store

section

variable [Crates] {s : Store} {L : OpLog} {new : List Entry}

/-! ### The property -/

/-- Disk and buffer together are the log; the rows are closed under parents; whatever the
order of the hash maps, opening the file succeeds and yields exactly its rows. -/
structure Durable (s : Store) : Prop where
  covers : ∀ (h : Hash) (e : Entry), s.oplog.entries[h]? = some e ↔
    s.db.entries[h]? = some e ∨ e ∈ s.pending ∧ e.hash = h
  closed : ∀ (h : Hash) (e : Entry), s.db.entries[h]? = some e → ∀ p ∈ e.next, p ∈ s.db.entries
  reopens : ∀ σ txn, ∃ s', openDb σ txn s.db none = .ok s' ∧ s'.oplog.entries = s.db.entries

/-- A parentless checkpoint has the least hash of all roots. -/
def CheckpointFirst (L : OpLog) : Prop :=
  ∀ (h h' : Hash) (c r : Entry), L.entries[h]? = some c → L.entries[h']? = some r →
    c.isRootCheckpoint → r.next = [] → (compare c.hash r.hash).isLE

/-- The invariant behind `Durable`. -/
structure DurableInv (s : Store) : Prop where
  sound : s.Sound
  covers : ∀ (h : Hash) (e : Entry), s.oplog.entries[h]? = some e ↔
    s.db.entries[h]? = some e ∨ e ∈ s.pending ∧ e.hash = h
  closed : ∀ (h : Hash) (e : Entry), s.db.entries[h]? = some e → ∀ p ∈ e.next, p ∈ s.db.entries
  written : s.db.entries ≠ ∅
  first : CheckpointFirst s.oplog

/-! ### The invariant and the file -/

omit [Crates] in
/-- A row on disk is an entry of the log. -/
theorem log_of_row (hcov : ∀ (h : Hash) (e : Entry), s.oplog.entries[h]? = some e ↔
    s.db.entries[h]? = some e ∨ e ∈ s.pending ∧ e.hash = h) {h : Hash} {e : Entry}
    (he : s.db.entries[h]? = some e) : s.oplog.entries[h]? = some e :=
  (hcov h e).mpr (.inl he)

theorem DurableInv.table (hs : s.DurableInv) : Table s.db.entries := by
  refine ⟨hs.sound.rows, hs.closed, ?_⟩
  obtain ⟨rank, hrank⟩ := hs.sound.log.causal
  refine ⟨rank, fun x p hp => hrank x p ?_⟩
  obtain ⟨e, he, hpe⟩ := mem_nextIn.mp hp
  exact OpLog.mem_nextOf.mpr ⟨e, log_of_row hs.covers he, hpe⟩

/-- In the order of the file no root after the first is a checkpoint. -/
theorem DurableInv.noLater (hs : s.DurableInv) : NoLaterCheckpoint (loadEntries s.db) := by
  intro r hr
  have hkeys : (loadEntries s.db).map Entry.hash = s.db.entries.keys := by
    rw [loadEntries, List.map_map, ← Std.ExtTreeMap.map_fst_toList_eq_keys]
    refine List.map_congr_left fun kv hkv => ?_
    exact (hs.sound.rows kv.1 kv.2 (HashMap.mem_toList.mp hkv)).1
  have hsorted : ((rootsOf (loadEntries s.db)).map Entry.hash).Pairwise
      fun a b => compare a b = .lt := by
    refine List.Pairwise.sublist (List.filter_sublist.map _) ?_
    rw [hkeys]
    exact Std.ExtTreeMap.ordered_keys
  cases hro : rootsOf (loadEntries s.db) with
  | nil => simp [hro] at hr
  | cons g others =>
    rw [hro, List.tail_cons] at hr
    rw [hro, List.map_cons, List.pairwise_cons] at hsorted
    have hlt : compare g.hash r.hash = .lt := hsorted.1 _ (List.mem_map_of_mem hr)
    have hmem : ∀ a ∈ g :: others, (∃ h : Hash, s.db.entries[h]? = some a) ∧ a.next = [] :=
      fun a ha => by
        rw [← hro, rootsOf, List.mem_filter, List.isEmpty_iff] at ha
        exact ⟨mem_loadEntries.mp ha.1, ha.2⟩
    obtain ⟨⟨hg, hgrow⟩, hgn⟩ := hmem g List.mem_cons_self
    obtain ⟨⟨hrh, hrrow⟩, hrn⟩ := hmem r (List.mem_cons_of_mem _ hr)
    by_contra hcp
    have hroot : r.isRootCheckpoint := by
      simpa [Entry.isRootCheckpoint, hrn] using hcp
    have hle := hs.first hrh hg r g (log_of_row hs.covers hrrow) (log_of_row hs.covers hgrow)
      hroot hgn
    rw [Std.OrientedCmp.gt_of_lt hlt] at hle
    cases hle

/-- Opening the file yields its rows. -/
theorem DurableInv.openDb (hs : s.DurableInv) (σ : HashOrder) (txn : TxnResult) :
    ∃ L, Store.openDb σ txn s.db none = .ok ⟨s.db, L, .immediate, []⟩ ∧ L.WellFormed ∧
      L.entries = s.db.entries := by
  obtain ⟨L, hrun, hL, hentries⟩ :=
    reconstructOplog_ok hs.table hs.written (List.Perm.refl _) hs.noLater σ
  have hne : loadEntries s.db ≠ [] := by
    intro hnil
    refine hs.written (Std.ExtTreeMap.eq_empty_iff_forall_not_mem.mpr fun h hh => ?_)
    obtain ⟨e, he⟩ := HashMap.mem_iff_getElem?.mp hh
    have hmem := mem_loadEntries.mpr ⟨h, he⟩
    rw [hnil] at hmem
    cases hmem
  have hrun' : reconstructOplog σ (loadEntries s.db) = .ok L := hrun
  exact ⟨L, by rw [openDb_of_rows hne, hrun']; rfl, hL, hentries⟩

theorem DurableInv.durable (hs : s.DurableInv) : s.Durable := by
  refine ⟨hs.covers, hs.closed, fun σ txn => ?_⟩
  obtain ⟨L, hrun, -, hentries⟩ := hs.openDb σ txn
  exact ⟨_, hrun, hentries⟩

/-! ### One transaction -/

omit [Crates] in
theorem mem_persist {es : List Entry} {table : BTreeMap Hash Entry} {h : Hash} :
    h ∈ es.foldl (fun table e => table.insert e.hash e) table ↔
      h ∈ table ∨ h ∈ es.map Entry.hash := by
  induction es generalizing table with
  | nil => simp
  | cons a es ih =>
    rw [List.foldl_cons, ih, HashMap.mem_insert, List.map_cons, List.mem_cons, eq_comm (a := a.hash)]
    tauto

omit [Crates] in
/-- Where rows and written entries are entries of one log, the new rows are both. -/
theorem getElem?_persist_iff {es : List Entry} {table : BTreeMap Hash Entry} (L : OpLog)
    (hrows : ∀ (h : Hash) (e : Entry), table[h]? = some e → L.entries[h]? = some e)
    (hes : ∀ e ∈ es, L.entries[e.hash]? = some e) (h : Hash) (e : Entry) :
    (es.foldl (fun table e => table.insert e.hash e) table)[h]? = some e ↔
      table[h]? = some e ∨ e ∈ es ∧ e.hash = h := by
  refine ⟨getElem?_persist, fun hor => ?_⟩
  have hL : L.entries[h]? = some e := by
    rcases hor with he | ⟨he, rfl⟩
    · exact hrows h e he
    · exact hes e he
  have hmem : h ∈ es.foldl (fun table e => table.insert e.hash e) table := by
    rw [mem_persist]
    rcases hor with he | ⟨he, rfl⟩
    · exact .inl (HashMap.mem_iff_getElem?.mpr ⟨e, he⟩)
    · exact .inr (List.mem_map_of_mem he)
  obtain ⟨e', he'⟩ := HashMap.mem_iff_getElem?.mp hmem
  have hL' : L.entries[h]? = some e' := by
    rcases getElem?_persist he' with he | ⟨he, rfl⟩
    · exact hrows h e' he
    · exact hes e' he
  rw [he', Option.some.inj (hL'.symm.trans hL)]

/-! ### Steps -/

/-- What inserting these entries needs: written through, their held parents are on disk; and
no new root sorts before a checkpoint root. -/
structure Recordable (s : Store) (es : List Entry) : Prop where
  disk : s.flushMode = .immediate → ∀ e ∈ es, e.hash ∉ s.oplog.entries →
    ∀ p ∈ e.next, p ∈ s.oplog.entries → p ∈ s.db.entries
  roots : ∀ e ∈ es, e.hash ∉ s.oplog.entries → e.next = [] → ∀ (h : Hash) (c : Entry),
    s.oplog.entries[h]? = some c → c.isRootCheckpoint → (compare c.hash e.hash).isLE

/-- Inserting entries that are no checkpoint roots keeps checkpoints first. -/
theorem CheckpointFirst.inserts (hf : CheckpointFirst s.oplog) (hi : Inserts s.oplog new L)
    (hcp : ∀ e ∈ new, ¬ e.isRootCheckpoint) (hr : Recordable s new) : CheckpointFirst L := by
  intro h h' c r hc hr' hroot hrn
  rcases hi.source hc with hc | ⟨hc, -⟩
  · rcases hi.source hr' with hr' | ⟨hr', -⟩
    · exact hf h h' c r hc hr' hroot hrn
    · exact hr.roots r hr' (hi.fresh.1 r hr') hrn h c hc hroot
  · exact absurd hroot (hcp c hc)

/-- **Insertion.** Recording what a call inserted keeps the invariant. -/
theorem DurableInv.settle (hs : s.DurableInv) (σ : HashOrder) (hi : Inserts s.oplog new L)
    (hcp : ∀ e ∈ new, ¬ e.isRootCheckpoint) (hr : Recordable s new) :
    (s.settle σ (.ok ()) L new).DurableInv := by
  have hL : L.WellFormed := hi.wellFormed hs.sound.log
  have hsound : (s.settle σ (.ok ()) L new).Sound := hs.sound.settle hL hi.valid
  have hfirst : CheckpointFirst L := hs.first.inserts hi hcp hr
  have hget : ∀ (h : Hash) (e : Entry), L.entries[h]? = some e ↔
      s.oplog.entries[h]? = some e ∨ e ∈ new ∧ e.hash = h := fun h e =>
    ⟨hi.source, fun hor => by
      rcases hor with he | ⟨he, rfl⟩
      · exact hi.grows he
      · exact hi.get_new he⟩
  rw [Store.settle] at hsound ⊢
  cases new with
  | nil =>
    cases hi
    exact ⟨hsound, hs.covers, hs.closed, hs.written, hfirst⟩
  | cons a new =>
    rw [if_neg (by simp)] at hsound ⊢
    cases hm : s.flushMode with
    | immediate =>
      rw [hm] at hsound
      have hrows : ∀ (h : Hash) (e : Entry),
          ((a :: new).foldl (fun table e => table.insert e.hash e) s.db.entries)[h]? = some e ↔
            s.db.entries[h]? = some e ∨ e ∈ a :: new ∧ e.hash = h :=
        getElem?_persist_iff L (fun h e he => hi.grows (log_of_row hs.covers he))
          fun e he => hi.get_new he
      refine ⟨hsound, fun h e => ?_, fun h e he p hp => ?_, ?_, hfirst⟩
      · refine (hget h e).trans ?_
        change _ ↔ ((a :: new).foldl _ s.db.entries)[h]? = some e ∨ _
        rw [hrows, hs.covers]
        tauto
      · change p ∈ (a :: new).foldl _ s.db.entries
        rw [mem_persist]
        rcases (hrows h e).mp he with hrow | ⟨hnew, rfl⟩
        · exact .inl (hs.closed h e hrow p hp)
        · have hpL : p ∈ L.entries := hL.rep.parents e.hash e (hi.get_new hnew) p hp
          rcases hi.mem_iff.mp hpL with hp' | hp'
          · exact .inl (hr.disk hm e hnew (hi.fresh.1 e hnew) p hp hp')
          · exact .inr hp'
      · intro hempty
        have hmem : a.hash ∈ (a :: new).foldl (fun table e => table.insert e.hash e)
            s.db.entries := mem_persist.mpr (.inr List.mem_cons_self)
        rw [show (a :: new).foldl (fun table e => table.insert e.hash e) s.db.entries = ∅ from
          hempty] at hmem
        exact Std.ExtTreeMap.not_mem_empty hmem
    | deferred =>
      rw [hm] at hsound
      refine ⟨hsound, fun h e => ?_, hs.closed, hs.written, hfirst⟩
      refine (hget h e).trans ?_
      rw [hs.covers]
      change _ ↔ s.db.entries[h]? = some e ∨ e ∈ s.pending ++ a :: new ∧ e.hash = h
      rw [List.mem_append]
      tauto

/-- A call of a store whose transactions commit. -/
inductive Op where
  | append (σ : HashOrder) (entry : Entry)
  | merge (σ : HashOrder) (entries : List Entry)
  | setFlushMode (mode : FlushMode)
  | flush (σ : HashOrder)
  | replaceWithCheckpoint (checkpoint : Entry)
  /-- A crash, followed by opening the file. -/
  | reopen (σ : HashOrder)

/-- The store a call leaves behind. -/
def exec (s : Store) : Op → Store
  | .append σ e => (s.append σ (.ok ()) e).2
  | .merge σ es => (s.merge σ (.ok ()) es).2
  | .setFlushMode mode => s.setFlushMode mode
  | .flush σ => (s.flush σ (.ok ())).2
  | .replaceWithCheckpoint c => (s.replaceWithCheckpoint (.ok ()) c).2
  | .reopen σ => match Store.openDb σ (.ok ()) s.db none with
    | .ok s' => s'
    | .error _ => s

/-- The condition on one call: what it inserts is no checkpoint root and can be recorded, a
merge goes through or inserts nothing, and a compaction finds no write pending. -/
def StepOk (s : Store) : Op → Prop
  | .append _ e => Insertable s.oplog e → ¬ e.isRootCheckpoint ∧ Recordable s [e]
  | .merge _ es => InsertsNothing s.oplog es ∨ GoesThrough s.oplog es ∧ Recordable s es
  | .replaceWithCheckpoint c => c.verifyHash ∧ c.next = [] ∧ s.pending = []
  | .setFlushMode _ | .flush _ | .reopen _ => True

theorem DurableInv.append (hs : s.DurableInv) (σ : HashOrder) (e : Entry)
    (hok : StepOk s (.append σ e)) : (s.append σ (.ok ()) e).2.DurableInv := by
  have hkeep : (s.settle σ (.ok ()) s.oplog []).DurableInv :=
    hs.settle σ (.nil _) (by simp) ⟨by simp, by simp⟩
  rw [append_snd]
  rcases OpLog.append_cases hs.sound.log.nonempty e with ⟨-, happ⟩ | ⟨-, -, happ⟩ |
    ⟨hv, hd, hc, -⟩ | ⟨-, -, -, p, -, -, happ⟩ | ⟨hv, hd, -, hp, happ⟩
  · rw [happ]
    exact hkeep
  · rw [happ]
    exact hkeep
  · have hroot := hc
    simp only [Entry.isRootCheckpoint, Bool.and_eq_true, List.isEmpty_iff] at hc
    exact absurd hroot (hok ⟨hv, hd, by simp [hc.1]⟩).1
  · rw [happ]
    exact hkeep
  · rw [happ]
    obtain ⟨hcp, hr⟩ := hok ⟨hv, hd, hp⟩
    have hcp' : ∀ a ∈ [e], ¬ a.isRootCheckpoint := by simpa using hcp
    exact hs.settle σ (.single hv hd hp) hcp' hr

theorem DurableInv.merge (hs : s.DurableInv) (σ : HashOrder) (es : List Entry)
    (hok : StepOk s (.merge σ es)) : (s.merge σ (.ok ()) es).2.DurableInv := by
  have hne := hs.sound.log.nonempty
  rw [merge_snd]
  rcases hok with hnothing | ⟨hthrough, hr⟩
  · obtain ⟨hsame, hnew⟩ := mergeBatch_insertsNothing hne hnothing
    have hmerged : merged (mergeBatch s.oplog es).1 = [] := by
      cases hres : (mergeBatch s.oplog es).1 with
      | error err => rfl
      | ok new => exact hnew new hres
    rw [hsame, hmerged]
    exact hs.settle σ (.nil _) (by simp) ⟨by simp, by simp⟩
  · obtain ⟨new, hres⟩ := (mergeBatch_ok_iff hne hthrough.1).mpr hthrough.2
    obtain ⟨hi, hsub, -⟩ := mergeBatch_ok hne hthrough.1 hres
    rw [hres]
    refine hs.settle σ hi (fun e he hroot => ?_) ⟨fun hm e he => hr.disk hm e (hsub he),
      fun e he => hr.roots e (hsub he)⟩
    exact hi.fresh.1 e he (hthrough.1 e (hsub he) (hi.valid e he) hroot)

theorem DurableInv.flush (hs : s.DurableInv) (σ : HashOrder) :
    (s.flush σ (.ok ())).2.DurableInv := by
  have hsound : (s.flush σ (.ok ())).2.Sound := hs.sound.flush
  rw [Store.flush] at hsound ⊢
  split
  · exact hs
  · rename_i hp
    rw [if_neg hp] at hsound
    have hrows : ∀ (h : Hash) (e : Entry),
        (s.pending.foldl (fun table e => table.insert e.hash e) s.db.entries)[h]? = some e ↔
          s.oplog.entries[h]? = some e := fun h e =>
      (getElem?_persist_iff s.oplog (fun h e => log_of_row hs.covers)
        (fun e he => (hs.covers e.hash e).mpr (.inr ⟨he, rfl⟩)) h e).trans (hs.covers h e).symm
    have hmem : ∀ h : Hash, h ∈ s.pending.foldl (fun table e => table.insert e.hash e)
        s.db.entries ↔ h ∈ s.oplog.entries := fun h => by
      rw [HashMap.mem_iff_getElem?, HashMap.mem_iff_getElem?]
      exact exists_congr fun e => hrows h e
    refine ⟨hsound, fun h e => ?_, fun h e he p hp' => ?_, fun hempty => ?_, hs.first⟩
    · change s.oplog.entries[h]? = some e ↔ (s.pending.foldl _ s.db.entries)[h]? = some e ∨ _
      rw [hrows]
      simp [persistEntriesAndHeads]
    · exact (hmem p).mpr (hs.sound.log.rep.parents h e ((hrows h e).mp he) p hp')
    · refine hs.sound.log.nonempty (Std.ExtTreeMap.eq_empty_iff_forall_not_mem.mpr fun h hh => ?_)
      have hin := (hmem h).mpr hh
      rw [show s.pending.foldl (fun table e => table.insert e.hash e) s.db.entries = ∅ from
        hempty] at hin
      exact Std.ExtTreeMap.not_mem_empty hin

omit [Crates] in
/-- A log with one root has its checkpoints first. -/
theorem CheckpointFirst.lone (g : Entry) : CheckpointFirst (OpLog.new g) := by
  intro h h' c r hc hr _ _
  rw [OpLog.getElem?_new] at hc hr
  split at hc
  · split at hr
    · have hrefl : compare g.hash g.hash = .eq := Std.ReflCmp.compare_self
      rw [← Option.some.inj hc, ← Option.some.inj hr, hrefl]
      rfl
    · cases hr
  · cases hc

/-- A file and a log of one and the same root. -/
theorem DurableInv.single (hg : Entry) (hv : hg.verifyHash) (hroot : hg.next = [])
    (heads : Option (List Hash)) (mode : FlushMode) :
    (⟨⟨(∅ : BTreeMap Hash Entry).insert hg.hash hg, heads⟩, OpLog.new hg, mode, []⟩ :
      Store).DurableInv := by
  have hrow : ∀ (h : Hash) (e : Entry),
      ((∅ : BTreeMap Hash Entry).insert hg.hash hg)[h]? = some e → hg.hash = h ∧ hg = e := by
    intro h e he
    rw [HashMap.getElem?_insert] at he
    split at he
    · exact ⟨by assumption, Option.some.inj he⟩
    · simp at he
  refine ⟨⟨.new hv hroot, fun h e he => ?_, by simp⟩, fun h e => ?_, fun h e he p hp => ?_,
    Std.ExtTreeMap.insert_ne_empty, .lone hg⟩
  · obtain ⟨rfl, rfl⟩ := hrow h e he
    exact ⟨rfl, hv⟩
  · simp [OpLog.new]
  · obtain ⟨-, rfl⟩ := hrow h e he
    rw [hroot] at hp
    cases hp

/-- **Step.** Every call that meets its condition keeps the invariant. -/
theorem DurableInv.exec (hs : s.DurableInv) (op : Op) (hok : StepOk s op) :
    (s.exec op).DurableInv := by
  cases op with
  | append σ e => exact hs.append σ e hok
  | merge σ es => exact hs.merge σ es hok
  | setFlushMode mode =>
    exact ⟨⟨hs.sound.log, hs.sound.rows, hs.sound.pending⟩, hs.covers, hs.closed, hs.written, hs.first⟩
  | flush σ => exact hs.flush σ
  | replaceWithCheckpoint c =>
    obtain ⟨hv, hroot, hpend⟩ := hok
    have h := DurableInv.single c hv hroot (some [c.hash]) s.flushMode
    rw [Store.exec, Store.replaceWithCheckpoint, hpend]
    exact h
  | reopen σ =>
    obtain ⟨L, hrun, hL, hentries⟩ := hs.openDb σ (.ok ())
    rw [Store.exec, hrun]
    refine ⟨⟨hL, hs.sound.rows, by simp⟩, fun h e => ?_, hs.closed, hs.written, ?_⟩
    · change L.entries[h]? = some e ↔ _
      rw [hentries]
      simp
    · intro h h' c r hc hr
      change L.entries[h]? = some c at hc
      change L.entries[h']? = some r at hr
      rw [hentries] at hc hr
      exact hs.first h h' c r (log_of_row hs.covers hc) (log_of_row hs.covers hr)

/-! ### Runs -/

/-- The store after a sequence of calls. -/
def run (s : Store) (ops : List Op) : Store := ops.foldl Store.exec s

/-- Every call of the sequence meets its condition in the state it starts from. -/
def RunOk (s : Store) : List Op → Prop
  | [] => True
  | op :: ops => StepOk s op ∧ RunOk (s.exec op) ops

theorem DurableInv.run (hs : s.DurableInv) (ops : List Op) (hok : RunOk s ops) :
    (s.run ops).DurableInv := by
  induction ops generalizing s with
  | nil => exact hs
  | cons op ops ih => exact ih (hs.exec op hok.1) hok.2

end

end Store

end SilkGraph
