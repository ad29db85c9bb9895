import SilkGraph.Store.Reconstruct

/-!
# Reopening a store

`Reachable` is every store there can be: created with a hash-valid parentless genesis, then
any calls with any arguments and any outcome of their transactions, crashes and reopenings
included. Its log is well formed and its file holds hash-valid entries
(`Reachable.sound`).

Reopening rebuilds the log from the file, so it loses nothing exactly when the
reconstruction does not wipe a root: when no parentless checkpoint stands beside another
root (`reconstruct_iff`).
-/

namespace SilkGraph

namespace Store

section

variable [Crates]

/-! ### Reachable stores -/

/-- The stores there can be. A checkpoint that replaces the store is hash-valid and
parentless, as `compact` makes it. -/
inductive Reachable : Store → Prop where
  | create {s : Store} {σ : HashOrder} {txn : TxnResult} {genesis : Entry}
      (valid : genesis.verifyHash) (root : genesis.next = [])
      (run : openDb σ txn Db.empty (some genesis) = .ok s) : Reachable s
  | append {s : Store} (h : Reachable s) (σ : HashOrder) (txn : TxnResult) (entry : Entry) :
      Reachable (s.append σ txn entry).2
  | setFlushMode {s : Store} (h : Reachable s) (mode : FlushMode) : Reachable (s.setFlushMode mode)
  | flush {s : Store} (h : Reachable s) (σ : HashOrder) (txn : TxnResult) :
      Reachable (s.flush σ txn).2
  | merge {s : Store} (h : Reachable s) (σ : HashOrder) (txn : TxnResult) (entries : List Entry) :
      Reachable (s.merge σ txn entries).2
  | replaceWithCheckpoint {s : Store} (h : Reachable s) (txn : TxnResult) {checkpoint : Entry}
      (valid : checkpoint.verifyHash) (root : checkpoint.next = []) :
      Reachable (s.replaceWithCheckpoint txn checkpoint).2
  | reopen {s s' : Store} {σ : HashOrder} {txn : TxnResult} (h : Reachable s)
      (run : openDb σ txn s.db none = .ok s') : Reachable s'

variable {s s' : Store} {σ : HashOrder} {txn : TxnResult}

/-! ### What a call leaves behind -/

omit [Crates] in
/-- The store after a call whose log became `L` with the entries `new` inserted: these go to
disk or to the buffer. -/
def settle (s : Store) (σ : HashOrder) (txn : TxnResult) (L : OpLog) (new : List Entry) : Store :=
  if new.isEmpty then { s with oplog := L }
  else match s.flushMode with
    | .immediate => (persistEntriesAndHeads { s with oplog := L } σ txn new).2
    | .deferred => { s with oplog := L, pending := s.pending ++ new }

/-- The entry an `append` inserted, if it did. -/
def appended (e : Entry) : Except OpLogError Bool → List Entry
  | .ok true => [e]
  | _ => []

/-- The entries a merge recorded as inserted; a failed one records none. -/
def merged : Except MergeError (List Entry) → List Entry
  | .ok new => new
  | .error _ => []

theorem append_snd (s : Store) (e : Entry) : (s.append σ txn e).2 =
    s.settle σ txn (s.oplog.append e).2 (appended e (s.oplog.append e).1) := by
  rw [Store.append]
  generalize s.oplog.append e = r
  obtain ⟨r, L⟩ := r
  rcases r with err | (_ | _)
  · rfl
  · rfl
  · cases hm : s.flushMode <;> simp [settle, appended, hm]

theorem merge_snd (s : Store) (es : List Entry) : (s.merge σ txn es).2 =
    s.settle σ txn (mergeBatch s.oplog es).2 (merged (mergeBatch s.oplog es).1) := by
  rw [Store.merge]
  generalize mergeBatch s.oplog es = r
  obtain ⟨r, L⟩ := r
  rcases r with err | (_ | ⟨a, new⟩)
  · rfl
  · rfl
  · cases hm : s.flushMode <;> simp [settle, merged, hm]

/-! ### Soundness -/

/-- Every row of the table is keyed by the valid hash of its entry. -/
def ValidRows (table : BTreeMap Hash Entry) : Prop :=
  ∀ (h : Hash) (e : Entry), table[h]? = some e → e.hash = h ∧ e.verifyHash

/-- A well-formed log, valid rows on disk, valid entries waiting for the flush. -/
structure Sound (s : Store) : Prop where
  log : s.oplog.WellFormed
  rows : ValidRows s.db.entries
  pending : ∀ e ∈ s.pending, e.verifyHash

omit [Crates] in
/-- The rows after a transaction: the old ones and the entries written. -/
theorem getElem?_persist {es : List Entry} {table : BTreeMap Hash Entry} {h : Hash} {e : Entry}
    (he : (es.foldl (fun table e => table.insert e.hash e) table)[h]? = some e) :
    table[h]? = some e ∨ e ∈ es ∧ e.hash = h := by
  induction es generalizing table with
  | nil => exact .inl he
  | cons a es ih =>
    rcases ih he with he | ⟨he, hh⟩
    · rw [HashMap.getElem?_insert] at he
      split at he
      · obtain rfl := Option.some.inj he
        exact .inr ⟨List.mem_cons_self, by assumption⟩
      · exact .inl he
    · exact .inr ⟨List.mem_cons_of_mem _ he, hh⟩

/-- A transaction of valid entries keeps a sound store sound, whether it commits or not. -/
theorem Sound.persist (hs : s.Sound) (σ : HashOrder) (txn : TxnResult) {es : List Entry} (hes : ∀ e ∈ es, e.verifyHash) :
    (s.persistEntriesAndHeads σ txn es).2.Sound := by
  cases txn with
  | error msg => exact hs
  | ok _ =>
    refine ⟨hs.log, fun h e he => ?_, hs.pending⟩
    rcases getElem?_persist he with he | ⟨he, hh⟩
    · exact hs.rows h e he
    · exact ⟨hh, hes e he⟩

theorem Sound.settle (hs : s.Sound) {L : OpLog} (hL : L.WellFormed) {new : List Entry}
    (hnew : ∀ e ∈ new, e.verifyHash) : (s.settle σ txn L new).Sound := by
  have hs' : ({ s with oplog := L } : Store).Sound := ⟨hL, hs.rows, hs.pending⟩
  rw [Store.settle]
  split
  · exact hs'
  · split
    · exact hs'.persist σ txn hnew
    · refine ⟨hL, hs.rows, fun e he => ?_⟩
      exact (List.mem_append.mp he).elim (hs.pending e) (hnew e)

theorem Sound.append (hs : s.Sound) (e : Entry) : (s.append σ txn e).2.Sound := by
  rw [append_snd]
  refine hs.settle (hs.log.append e) fun a ha => ?_
  cases happ : (s.oplog.append e).1 with
  | error err => simp [happ, appended] at ha
  | ok b =>
    have hv := OpLog.verifyHash_of_append happ
    rw [happ] at ha
    cases b with
    | false => simp [appended] at ha
    | true =>
      obtain rfl : a = e := by simpa [appended] using ha
      exact hv

theorem Sound.merge (hs : s.Sound) (es : List Entry) : (s.merge σ txn es).2.Sound := by
  obtain ⟨hwf, hnew⟩ := mergeBatch_any hs.log es
  rw [merge_snd]
  refine hs.settle hwf fun e he => ?_
  cases hb : (mergeBatch s.oplog es).1 with
  | error err => simp [hb, merged] at he
  | ok new =>
    rw [hb] at he
    exact (hnew new hb e he).2

theorem Sound.flush (hs : s.Sound) : (s.flush σ txn).2.Sound := by
  rw [Store.flush]
  split
  · exact hs
  · have hs' : ({ s with pending := [] } : Store).Sound :=
      ⟨hs.log, hs.rows, fun e he => absurd he List.not_mem_nil⟩
    exact hs'.persist σ txn hs.pending

theorem Sound.replaceWithCheckpoint (hs : s.Sound) {c : Entry} (hv : c.verifyHash)
    (hroot : c.next = []) : (s.replaceWithCheckpoint txn c).2.Sound := by
  cases txn with
  | error msg => exact hs
  | ok _ =>
    refine ⟨OpLog.WellFormed.new hv hroot, fun h e he => ?_, hs.pending⟩
    change ((∅ : BTreeMap Hash Entry).insert c.hash c)[h]? = some e at he
    rw [HashMap.getElem?_insert] at he
    split at he
    · obtain rfl := Option.some.inj he
      exact ⟨by assumption, hv⟩
    · simp at he

/-- The main loop of the reconstruction keeps the log well formed. -/
theorem reconstructLoop_wellFormed {byHash : HashMap Hash Entry}
    {childrenOf : HashMap Hash (List Hash)} (fuel : ℕ) {ready : List Hash}
    {pp pp' : HashMap Hash (HashSet Hash)} {L L' : OpLog} (hL : L.WellFormed)
    (hrun : reconstructLoop byHash childrenOf fuel ready pp L = .ok (L', pp')) :
    L'.WellFormed := by
  induction fuel generalizing ready pp L with
  | zero =>
    rw [reconstructLoop] at hrun
    cases hrun
    exact hL
  | succ fuel ih =>
    cases ready with
    | nil =>
      rw [reconstructLoop] at hrun
      cases hrun
      exact hL
    | cons x ready =>
      rw [reconstructLoop] at hrun
      cases he : byHash[x]? with
      | none =>
        rw [he] at hrun
        exact ih hL hrun
      | some e =>
        rw [he] at hrun
        simp only at hrun
        split at hrun
        · cases hrun
        · rename_i b L₁ happ
          have hL₁ : L₁.WellFormed := by
            have := hL.append e
            rwa [happ] at this
          exact ih hL₁ hrun

/-- Whatever log a reconstruction returns from valid entries is well formed. -/
theorem reconstructOplog_wellFormed {es : List Entry} (hes : ∀ e ∈ es, e.verifyHash) {L : OpLog}
    (hrun : reconstructOplog σ es = .ok L) : L.WellFormed := by
  rw [reconstructOplog] at hrun
  split at hrun
  · cases hrun
  · split at hrun
    · cases hrun
    · rename_i genesis others hroots
      obtain ⟨hge, hgn⟩ : genesis ∈ es ∧ genesis.next = [] := by
        have hg : genesis ∈ rootsOf es := by
          rw [hroots]
          exact List.mem_cons_self
        simpa [rootsOf] using hg
      rw [reconstructFrom] at hrun
      simp only at hrun
      split at hrun
      · cases hrun
      · rename_i L' pp' hloop
        split at hrun
        · obtain rfl := Except.ok.inj hrun
          have hwf := (OpLog.WellFormed.new (hes genesis hge) hgn).appendAll others
          exact reconstructLoop_wellFormed _ hwf hloop
        · cases hrun

omit [Crates] in
theorem mem_loadEntries {db : Db} {e : Entry} :
    e ∈ loadEntries db ↔ ∃ h : Hash, db.entries[h]? = some e := by
  rw [loadEntries, List.mem_map]
  constructor
  · rintro ⟨⟨h, e⟩, hkv, rfl⟩
    exact ⟨h, HashMap.mem_toList.mp hkv⟩
  · rintro ⟨h, he⟩
    exact ⟨(h, e), HashMap.mem_toList.mpr he, rfl⟩

/-- A store opened on a file with rows: the log is rebuilt from them. -/
theorem openDb_of_rows {db : Db} (hne : loadEntries db ≠ []) (genesis : Option Entry) :
    openDb σ txn db genesis = (reconstructOplog σ (loadEntries db)).map
      fun oplog => ⟨db, oplog, .immediate, []⟩ := by
  unfold openDb
  split
  · rename_i hl
    exact absurd hl hne
  · cases reconstructOplog σ (loadEntries db) <;> rfl

/-- A store created on an empty file. -/
theorem openDb_empty (genesis : Entry) : openDb σ txn Db.empty (some genesis) =
    (persistEntriesAndHeads ⟨Db.empty, OpLog.new genesis, .immediate, []⟩ σ txn [genesis]).1.map
      fun _ => (persistEntriesAndHeads ⟨Db.empty, OpLog.new genesis, .immediate, []⟩ σ txn
        [genesis]).2 := by
  cases txn <;> rfl

/-- A file that opens without a genesis is reconstructed from its rows. -/
theorem openDb_ok {db : Db} (hrun : openDb σ txn db none = .ok s') :
    ∃ L, reconstructOplog σ (loadEntries db) = .ok L ∧ s' = ⟨db, L, .immediate, []⟩ := by
  by_cases hl : loadEntries db = []
  · rw [openDb, hl] at hrun
    cases hrun
  · rw [openDb_of_rows hl] at hrun
    cases hrec : reconstructOplog σ (loadEntries db) with
    | error err =>
      rw [hrec] at hrun
      cases hrun
    | ok L =>
      rw [hrec] at hrun
      exact ⟨L, rfl, (Except.ok.inj hrun).symm⟩

theorem Sound.openDb (hs : s.Sound) (hrun : Store.openDb σ txn s.db none = .ok s') :
    s'.Sound := by
  obtain ⟨L, hrec, rfl⟩ := openDb_ok hrun
  refine ⟨reconstructOplog_wellFormed (fun e he => ?_) hrec, hs.rows, by simp⟩
  obtain ⟨h, he⟩ := mem_loadEntries.mp he
  exact (hs.rows h e he).2

/-- **Run.** Every reachable store is sound. -/
theorem Reachable.sound (h : Reachable s) : s.Sound := by
  induction h with
  | @create s σ txn genesis valid root run =>
    have hs : (⟨Db.empty, OpLog.new genesis, .immediate, []⟩ : Store).Sound :=
      ⟨.new valid root, fun h e he => by simp [Db.empty] at he, by simp⟩
    have hgen : ∀ e ∈ [genesis], e.verifyHash := by simpa using valid
    have hp := hs.persist σ txn hgen
    rw [openDb_empty] at run
    cases txn with
    | error msg => cases run
    | ok _ =>
      obtain rfl := Except.ok.inj run
      exact hp
  | append _ σ txn entry ih => exact ih.append entry
  | setFlushMode _ mode ih => exact ⟨ih.log, ih.rows, ih.pending⟩
  | flush _ σ txn ih => exact ih.flush
  | merge _ σ txn entries ih => exact ih.merge entries
  | replaceWithCheckpoint _ txn valid root ih => exact ih.replaceWithCheckpoint valid root
  | reopen _ run ih => exact ih.openDb run

/-! ### When nothing is lost -/

/-- The log has no parentless checkpoint, or only one parentless entry. -/
def LoneCheckpoint (L : OpLog) : Prop :=
  (∀ (h : Hash) (e : Entry), L.entries[h]? = some e → ¬ e.isRootCheckpoint) ∨
    ∀ (h h' : Hash) (e e' : Entry), L.entries[h]? = some e → L.entries[h']? = some e' →
      e.next = [] → e'.next = [] → h = h'

/-- The reconstruction succeeds and gives back the entries and the heads of the log. -/
def LosesNothing (L : OpLog) (σ : HashOrder) (es : List Entry) : Prop :=
  ∃ L', reconstructOplog σ es = .ok L' ∧ L'.entries = L.entries ∧ L'.heads = L.heads

theorem LoneCheckpoint.noLater {L : OpLog} (hL : L.WellFormed) (hlone : LoneCheckpoint L)
    {es : List Entry} (hes : Enumerates es L.entries) : NoLaterCheckpoint es := by
  have hD := Table.of_wellFormed hL
  intro r hr
  have hrr : r ∈ rootsOf es := List.mem_of_mem_tail hr
  obtain ⟨hres, hrn⟩ : r ∈ es ∧ r.next = [] := by simpa [rootsOf] using hrr
  have hget := (hes.mem hD).mp hres
  rcases hlone with hno | hone
  · have := hno r.hash r hget
    simpa [Entry.isRootCheckpoint, hrn] using this
  · -- a root behind the first one is a second root
    exfalso
    cases hro : rootsOf es with
    | nil => simp [hro] at hr
    | cons g others =>
      rw [hro, List.tail_cons] at hr
      obtain ⟨hges, hgn⟩ : g ∈ es ∧ g.next = [] := by
        have hg : g ∈ rootsOf es := by
          rw [hro]
          exact List.mem_cons_self
        simpa [rootsOf] using hg
      have heq := hone g.hash r.hash g r ((hes.mem hD).mp hges) hget hgn hrn
      have hnd : ((rootsOf es).map Entry.hash).Nodup :=
        (hes.nodup hD).sublist (List.filter_sublist.map _)
      rw [hro, List.map_cons, List.nodup_cons] at hnd
      exact hnd.1 (heq ▸ List.mem_map_of_mem hr)

omit [Crates] in
/-- An order of the entries that puts a given one last. -/
theorem exists_enumeration_last {L : OpLog} {c : Entry} (hc : L.entries[c.hash]? = some c) :
    ∃ es, Enumerates (es ++ [c]) L.entries := by
  have hmem : c ∈ L.entries.toList.map Prod.snd :=
    List.mem_map.mpr ⟨(c.hash, c), HashMap.mem_toList.mpr hc, rfl⟩
  obtain ⟨pre, post, hsplit⟩ := List.append_of_mem hmem
  refine ⟨pre ++ post, ?_⟩
  rw [Enumerates, hsplit, List.append_assoc]
  exact List.Perm.append_left pre List.perm_append_comm

/-- A checkpoint beside another root can be enumerated so that the other root is lost. -/
theorem exists_lossy_order {L : OpLog} (hL : L.WellFormed) (hlone : ¬ LoneCheckpoint L)
    (σ : HashOrder) : ∃ es, Enumerates es L.entries ∧ ¬ LosesNothing L σ es := by
  have hD := Table.of_wellFormed hL
  rw [LoneCheckpoint, not_or] at hlone
  obtain ⟨hcp, htwo⟩ := hlone
  simp only [not_forall, not_not] at hcp htwo
  obtain ⟨hc, c, hcget, hcroot⟩ := hcp
  obtain ⟨rfl, hcv⟩ := hL.rep.keyed hc c hcget
  simp only [Entry.isRootCheckpoint, Bool.and_eq_true, List.isEmpty_iff] at hcroot
  obtain ⟨hcn, hcc⟩ := hcroot
  -- of two roots one is not the checkpoint
  obtain ⟨r, hrget, hrn, hrc⟩ : ∃ r : Entry, L.entries[r.hash]? = some r ∧ r.next = [] ∧
      r.hash ≠ c.hash := by
    obtain ⟨h, h', e, e', he, he', hen, hen', hne⟩ := htwo
    obtain ⟨rfl, -⟩ := hL.rep.keyed h e he
    obtain ⟨rfl, -⟩ := hL.rep.keyed h' e' he'
    by_cases hec : e.hash = c.hash
    · exact ⟨e', he', hen', fun hc' => hne (hec.trans hc'.symm)⟩
    · exact ⟨e, he, hen, hec⟩
  obtain ⟨es, hes⟩ := exists_enumeration_last hcget
  refine ⟨es ++ [c], hes, ?_⟩
  rintro ⟨L', hrun, hentries, -⟩
  have hroots : rootsOf (es ++ [c]) = rootsOf es ++ [c] := by
    simp [rootsOf, hcn]
  have hr : r ∈ rootsOf es := by
    have hres : r ∈ es ++ [c] := (hes.mem hD).mpr hrget
    rcases List.mem_append.mp hres with hres | hres
    · simp [rootsOf, hres, hrn]
    · rw [List.mem_singleton] at hres
      exact absurd (congrArg Entry.hash hres) hrc
  refine reconstructOplog_drops hD hes σ hroots hcc hr hrun ?_
  rw [hentries]
  exact HashMap.mem_iff_getElem?.mpr ⟨r, hrget⟩

/-- **Reopening loses nothing exactly when** no parentless checkpoint stands beside another
root: then, and only then, every order of the entries and of the hash maps gives back the
entries and the heads of the log. -/
theorem reopening_loses_nothing_iff (hs : Reachable s) :
    (∀ σ es, Enumerates es s.oplog.entries → LosesNothing s.oplog σ es) ↔
      LoneCheckpoint s.oplog := by
  have hL := hs.sound.log
  constructor
  · intro hall
    by_contra hlone
    obtain ⟨es, hes, hlost⟩ := exists_lossy_order hL hlone .keyOrder
    exact hlost (hall _ es hes)
  · intro hlone σ es hes
    obtain ⟨L', hrun, hL', hentries⟩ := reconstructOplog_ok (Table.of_wellFormed hL) hL.nonempty hes
      (hlone.noLater hL hes) σ
    refine ⟨L', hrun, hentries, ?_⟩
    ext h
    rw [hL'.rep.heads, hL.rep.heads, hentries]

/-- The store a committed creation makes. -/
theorem Reachable.create_ok (σ : HashOrder) {genesis : Entry} (valid : genesis.verifyHash)
    (root : genesis.next = []) :
    Reachable ⟨⟨(∅ : BTreeMap Hash Entry).insert genesis.hash genesis,
      some (σ.walk (OpLog.new genesis).heads.toList)⟩, OpLog.new genesis, .immediate, []⟩ := by
  have hrun : openDb σ (.ok ()) Db.empty (some genesis) = .ok _ := openDb_empty genesis
  exact .create valid root hrun

end

open Sample in
/-- A store that merged a peer's genesis reopens whole. -/
theorem reopening_loses_nothing_two_roots :
    let gA := Entry.new (.defineOntology ⟨∅, ∅⟩) [] [] ⟨"ann", 1, 0⟩ "ann"
    let gB := Entry.new (.defineOntology ⟨∅, ∅⟩) [] [] ⟨"bob", 2, 0⟩ "bob"
    let s₀ : Store := ⟨⟨(∅ : BTreeMap Hash Entry).insert gA.hash gA, some (OpLog.new gA).heads.toList⟩,
      OpLog.new gA, .immediate, []⟩
    let s := (s₀.merge .keyOrder (.ok ()) [gB]).2
    ∀ σ es, Enumerates es s.oplog.entries → LosesNothing s.oplog σ es := by
  intro gA gB s₀ s
  have hs₀ : Reachable s₀ :=
    Reachable.create_ok .keyOrder (Entry.verifyHash_new ..) rfl
  have hs : Reachable s := hs₀.merge .keyOrder (.ok ()) [gB]
  refine (reopening_loses_nothing_iff hs).mpr (.inl ?_)
  have hall : ∀ kv ∈ s.oplog.entries.toList, kv.2.isRootCheckpoint = false := by
    decide +kernel
  intro h e he hroot
  have hfalse := hall (h, e) (HashMap.mem_toList.mpr he)
  exact Bool.noConfusion (hfalse.symm.trans hroot)

open Sample in
/-- A compacted store that merged a peer's genesis of smaller hash. The file lists that
genesis before the checkpoint, and the reconstruction returns a log without it. -/
theorem reopening_drops_root_before_checkpoint :
    let gA := Entry.new (.defineOntology ⟨∅, ∅⟩) [] [] ⟨"ann", 1, 0⟩ "ann"
    let gB := Entry.new (.defineOntology ⟨∅, ∅⟩) [] [] ⟨"bob", 2, 0⟩ "bob"
    let c := Entry.new (.checkpoint [] [] 3 0) [] [] ⟨"ann", 3, 0⟩ "ann"
    let s₀ : Store := ⟨⟨(∅ : BTreeMap Hash Entry).insert gA.hash gA, some (OpLog.new gA).heads.toList⟩,
      OpLog.new gA, .immediate, []⟩
    let s := ((s₀.replaceWithCheckpoint (.ok ()) c).2.merge .keyOrder (.ok ()) [gB]).2
    let es := s.oplog.entries.toList.map Prod.snd
    Reachable s ∧ Enumerates es s.oplog.entries ∧
      es.map Entry.hash = [gB.hash, c.hash] ∧ (loadEntries s.db).map Entry.hash = [gB.hash, c.hash] ∧
      (reconstructOplog .keyOrder es).toOption.map (fun L => L.entries.keys) = some [c.hash] ∧
      ¬ LosesNothing s.oplog .keyOrder es := by
  intro gA gB c s₀ s es
  have hs₀ : Reachable s₀ :=
    Reachable.create_ok .keyOrder (Entry.verifyHash_new ..) rfl
  have hs : Reachable s :=
    (hs₀.replaceWithCheckpoint (.ok ()) (Entry.verifyHash_new ..) rfl).merge .keyOrder (.ok ()) [gB]
  have hkeys : s.oplog.entries.keys = [gB.hash, c.hash] := by decide +kernel
  have hrec : (reconstructOplog .keyOrder es).toOption.map (fun L => L.entries.keys) =
      some [c.hash] := by decide +kernel
  have henum : Enumerates es s.oplog.entries := List.Perm.refl es
  refine ⟨hs, henum, by decide +kernel, by decide +kernel, hrec, ?_⟩
  rintro ⟨L, hrun, hL, -⟩
  rw [hrun] at hrec
  have hk : L.entries.keys = [c.hash] := Option.some.inj hrec
  rw [hL, hkeys] at hk
  cases congrArg List.length hk

end Store

end SilkGraph
