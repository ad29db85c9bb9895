import Mathlib.Data.List.TakeWhile
import SilkGraph.Graph.Inert
import SilkGraph.GraphStore.Reachable
import SilkGraph.Store.Failures
import SilkGraph.Sync.Merge

/-!
# Forged entries

An entry is forged if its hash is not the one of its content. `OpLog::append` refuses such an
entry; `OpLog::new` does not look. So everything that enters a log by a merge is checked, but the
first entry of a snapshot and the first root of a database file are taken as they are, and stay
until a parentless checkpoint replaces the log. `verified_iff` says exactly when the entries of
a log that came in this way all verify.
-/

namespace SilkGraph

open PyGraphStore

section

variable [Crates]

namespace OpLog

/-- Every entry of the log is stored under its hash, and the hash is the one of its content. -/
def Verified (self : OpLog) : Prop := self.All fun h e => e.hash = h ∧ e.verifyHash

variable {L L' : OpLog} {e : Entry} {es : List Entry}

theorem verified_new_iff : (new e).Verified ↔ e.verifyHash := by
  constructor
  · intro h
    refine (h e.hash e ?_).2
    rw [getElem?_new, if_pos rfl]
  · exact fun h => .new ⟨rfl, h⟩

/-- An append checks what it inserts. -/
theorem Verified.append (h : L.Verified) (e : Entry) : (L.append e).2.Verified := by
  by_cases hv : e.verifyHash
  · exact All.append h ⟨rfl, hv⟩
  · have hsame : (L.append e).2 = L :=
      append_unchanged L e fun hok => hv (verifyHash_of_append hok)
    rw [hsame]
    exact h

/-- No change of a log brings a forged entry in. -/
theorem Verified.logSteps (h : L.Verified) (hsteps : LogSteps L L') : L'.Verified := by
  induction hsteps with
  | refl => exact h
  | tail _ hstep ih =>
    cases hstep with
    | append e => exact ih.append e
    | replace valid _ => exact .new ⟨rfl, valid⟩

/-- Two logs of verified entries with the same hashes have the same contents, if the hash does
not collide on these. -/
theorem Verified.content_eq (h : L.Verified) (h' : L'.Verified)
    (hsame : ∀ hash, hash ∈ L.entries ↔ hash ∈ L'.entries)
    (hcoll : ∀ (k k' : Hash) (e e' : Entry), L.entries[k]? = some e → L'.entries[k']? = some e' →
      Crates.contentHash e.content = Crates.contentHash e'.content → e.content = e'.content)
    (hash : Hash) :
    (L.entries[hash]?).map Entry.content = (L'.entries[hash]?).map Entry.content := by
  cases he : L.entries[hash]? with
  | none =>
    have hno : hash ∉ L'.entries := by
      rw [← hsame hash]
      exact HashMap.not_mem_iff_getElem?.mpr he
    rw [HashMap.not_mem_iff_getElem?.mp hno]
  | some e =>
    obtain ⟨e', he'⟩ := HashMap.mem_iff_getElem?.mp
      ((hsame hash).mp (HashMap.mem_iff_getElem?.mpr ⟨e, he⟩))
    obtain ⟨hkey, hv⟩ := h hash e he
    obtain ⟨hkey', hv'⟩ := h' hash e' he'
    rw [Entry.verifyHash_iff] at hv hv'
    rw [he', Option.map_some, Option.map_some, hcoll hash hash e e' he he'
      (by rw [← hv, ← hv', hkey, hkey'])]

/-! ### What a sequence of appends does to the entries that are there -/

/-- As long as no checkpoint replaces the log, what it holds stays. -/
theorem appendAll_keeps (hne : L.entries ≠ ∅) (hn : NoReplace L es) {h : Hash} {x : Entry}
    (hx : L.entries[h]? = some x) : (L.appendAll es).entries[h]? = some x := by
  induction es generalizing L with
  | nil => exact hx
  | cons a es ih =>
    rw [appendAll, List.foldl_cons, ← appendAll]
    have hn' : NoReplace L es := fun e he => hn e (List.mem_cons_of_mem a he)
    rcases append_cases hne a with ⟨-, happ⟩ | ⟨-, -, happ⟩ | ⟨hv, hd, hc, -⟩ |
      ⟨-, -, -, _, _, _, happ⟩ | ⟨-, hd, -, -, happ⟩
    · rw [happ]
      exact ih hne hn' hx
    · rw [happ]
      exact ih hne hn' hx
    · exact absurd (hn a List.mem_cons_self hv hc) hd
    · rw [happ]
      exact ih hne hn' hx
    · rw [happ]
      refine ih (entries_insertEntry_ne_empty L a) (fun e he hv hc => ?_) ?_
      · exact HashMap.mem_insert.mpr (.inr (hn' e he hv hc))
      · rw [getElem?_insertEntry, if_neg, hx]
        rintro rfl
        exact hd (HashMap.mem_iff_getElem?.mpr ⟨x, hx⟩)

/-- BLAKE3 does not collide on the contents of these entries. -/
def CollisionFree (es : List Entry) : Prop :=
  ∀ a ∈ es, ∀ b ∈ es,
    Crates.contentHash a.content = Crates.contentHash b.content → a.content = b.content

/-- A new parentless checkpoint that verifies leaves nothing forged behind. -/
theorem appendAll_verified (hne : L.entries ≠ ∅) (hcoll : CollisionFree es) (he : e ∈ es)
    (hv : e.verifyHash) (hc : e.isRootCheckpoint) (hd : e.hash ∉ L.entries) :
    (L.appendAll es).Verified := by
  induction es generalizing L with
  | nil => cases he
  | cons a es ih =>
    have hcoll' : CollisionFree es := fun x hx y hy =>
      hcoll x (List.mem_cons_of_mem a hx) y (List.mem_cons_of_mem a hy)
    rw [appendAll, List.foldl_cons, ← appendAll]
    by_cases hreplace : a.verifyHash ∧ a.isRootCheckpoint ∧ a.hash ∉ L.entries
    · obtain ⟨hva, hca, hda⟩ := hreplace
      have hnew : (new a).Verified := verified_new_iff.mpr hva
      rw [append_eq_replace hne hva hda hca]
      exact hnew.logSteps (appendAll_log _ es)
    · have hea : e ∈ es := by
        rcases List.mem_cons.mp he with rfl | hea
        · exact absurd ⟨hv, hc, hd⟩ hreplace
        · exact hea
      rcases append_cases hne a with ⟨-, happ⟩ | ⟨-, -, happ⟩ | ⟨hva, hda, hca, -⟩ |
        ⟨-, -, -, _, _, _, happ⟩ | ⟨hva, -, hca, -, happ⟩
      · rw [happ]
        exact ih hne hcoll' hea hd
      · rw [happ]
        exact ih hne hcoll' hea hd
      · exact absurd ⟨hva, hca, hda⟩ hreplace
      · rw [happ]
        exact ih hne hcoll' hea hd
      · rw [happ]
        refine ih (entries_insertEntry_ne_empty L a) hcoll' hea fun hmem => ?_
        rcases HashMap.mem_insert.mp hmem with heq | hmem
        · -- equal hashes are equal contents, and `a` would be a checkpoint as well
          rw [Entry.verifyHash_iff.mp hva, Entry.verifyHash_iff.mp hv] at heq
          have hcontent := hcoll a List.mem_cons_self e he heq
          have hnext : a.next = e.next := congrArg SignableContent.next hcontent
          have hpayload : a.payload = e.payload := congrArg SignableContent.payload hcontent
          rw [Entry.isRootCheckpoint, hnext, hpayload] at hca
          exact hca hc
        · exact hd hmem

/-- **When appends leave no forged entry.** Either there was none, or a new parentless checkpoint
among the entries replaces the log. -/
theorem verified_appendAll_iff (hne : L.entries ≠ ∅) (hcoll : CollisionFree es) :
    (L.appendAll es).Verified ↔
      L.Verified ∨ ∃ e ∈ es, e.verifyHash ∧ e.isRootCheckpoint ∧ e.hash ∉ L.entries := by
  constructor
  · intro h
    by_contra hno
    rw [not_or, not_exists] at hno
    obtain ⟨hforged, hnone⟩ := hno
    have hn : NoReplace L es := fun e he hv hc => by
      by_contra hd
      exact hnone e ⟨he, hv, hc, hd⟩
    exact hforged fun k x hx => h k x (appendAll_keeps hne hn hx)
  · rintro (h | ⟨e, he, hv, hc, hd⟩)
    · exact h.logSteps (appendAll_log L es)
    · exact appendAll_verified hne hcoll he hv hc hd

/-! ### Merges -/

/-- An entry that verifies is not refused for its hash. -/
theorem append_ne_invalidHash (hv : e.verifyHash) : (L.append e).1 ≠ .error .invalidHash := by
  rw [OpLog.append, if_neg (by simp [hv])]
  split
  · simp
  · split
    · simp
    · split <;> simp

/-- One that does not verify is. -/
theorem append_of_not_verifyHash (hv : ¬ e.verifyHash) :
    L.append e = (.error .invalidHash, L) := by
  simp [OpLog.append, hv]

/-- A pass appends the entries that come before the first one whose hash is not the one of its
content. -/
theorem mergePass_snd (L : OpLog) (es : List Entry) :
    (mergePass L es).2 = L.appendAll (es.takeWhile fun e => e.verifyHash) := by
  induction es generalizing L with
  | nil => rfl
  | cons a es ih =>
    by_cases hv : a.verifyHash
    · rw [List.takeWhile_cons_of_pos hv, appendAll, List.foldl_cons, ← appendAll, ← ih, mergePass]
      split
      · rename_i happ
        rw [happ]
      · rename_i happ
        rw [happ]
      · rename_i happ
        rw [happ]
      · rename_i L' happ
        exact absurd (congrArg Prod.fst happ) (append_ne_invalidHash hv)
    · rw [List.takeWhile_cons_of_neg hv, mergePass]
      rw [append_of_not_verifyHash hv]
      rfl

/-- A pass that comes to its end has checked all entries. -/
theorem verifyHash_of_mergePass (L : OpLog) (es : List Entry) : ∀ new retry,
    (mergePass L es).1 = .ok (new, retry) → ∀ e ∈ es, e.verifyHash := by
  induction es generalizing L with
  | nil => exact fun _ _ _ _ he => absurd he List.not_mem_nil
  | cons a es ih =>
    intro new retry h
    rw [mergePass] at h
    rw [List.forall_mem_cons]
    split at h
    · rename_i happ
      obtain ⟨⟨new', retry'⟩, hrun, -⟩ := except_map_eq_ok h
      exact ⟨verifyHash_of_append (congrArg Prod.fst happ), ih _ _ _ hrun⟩
    · rename_i happ
      exact ⟨verifyHash_of_append (congrArg Prod.fst happ), ih _ _ _ h⟩
    · rename_i p L' happ
      obtain ⟨⟨new', retry'⟩, hrun, -⟩ := except_map_eq_ok h
      refine ⟨?_, ih _ _ _ hrun⟩
      by_contra hv
      rw [append_of_not_verifyHash hv] at happ
      cases happ
    · cases h

/-- The passes after the first one keep what is there. -/
theorem mergeLoop_keeps (fuel : ℕ) (hne : L.entries ≠ ∅) {inserted : List Entry}
    (hn : NoReplace L (es.takeWhile fun e => e.verifyHash)) {h : Hash} {x : Entry}
    (hx : L.entries[h]? = some x) : (mergeLoop fuel L es inserted).2.entries[h]? = some x := by
  induction fuel generalizing L es inserted with
  | zero => exact hx
  | succ fuel ih =>
    cases es with
    | nil => exact hx
    | cons a es =>
      have hpass : ∀ {k : Hash} {y : Entry}, L.entries[k]? = some y →
          (mergePass L (a :: es)).2.entries[k]? = some y := by
        intro k y hy
        rw [mergePass_snd]
        exact appendAll_keeps hne hn hy
      have hall := verifyHash_of_mergePass L (a :: es)
      have hretry := mergePass_batch L (a :: es)
      rw [mergeLoop]
      · generalize mergePass L (a :: es) = r at hpass hall hretry
        obtain ⟨r, L₁⟩ := r
        rcases r with err | ⟨new, retry⟩
        · exact hpass hx
        · dsimp only
          split
          · exact hpass hx
          · have hvalid := hall new retry rfl
            have hne₁ : L₁.entries ≠ ∅ := fun h0 => by
              have := hpass hx
              simp [h0] at this
            refine ih hne₁ (fun e he hv hc => ?_) (hpass hx)
            have hmem : e ∈ a :: es := (hretry new retry rfl).2 (List.takeWhile_subset _ he)
            obtain ⟨y, hy⟩ := HashMap.mem_iff_getElem?.mp
              (hn e (by rwa [List.takeWhile_eq_self_iff.mpr hvalid]) hv hc)
            exact HashMap.mem_iff_getElem?.mpr ⟨y, hpass hy⟩
      · simp

/-- What the first pass leaves verified stays verified. -/
theorem Verified.mergeBatch_of_mergePass (h : (mergePass L es).2.Verified) :
    (mergeBatch L es).2.Verified := by
  cases es with
  | nil => exact h
  | cons a es =>
    have hall := verifyHash_of_mergePass L (a :: es)
    have hretry := mergePass_batch L (a :: es)
    rw [mergeBatch, List.length_cons, mergeLoop]
    · generalize mergePass L (a :: es) = r at h hall hretry
      obtain ⟨r, L₁⟩ := r
      rcases r with err | ⟨new, retry⟩
      · exact h
      · dsimp only
        split
        · exact h
        · exact mergeLoop_all _ h retry _ fun e he =>
            ⟨rfl, hall new retry rfl e ((hretry new retry rfl).2 he)⟩
    · simp

/-- **When a merge leaves no forged entry.** Either there was none, or a new parentless checkpoint
comes before the entry that ends the merge. -/
theorem verified_mergeBatch_iff (hne : L.entries ≠ ∅) (hcoll : CollisionFree es) :
    (mergeBatch L es).2.Verified ↔
      L.Verified ∨ ∃ e ∈ es.takeWhile fun e => e.verifyHash,
        e.isRootCheckpoint ∧ e.hash ∉ L.entries := by
  constructor
  · intro h
    by_contra hno
    rw [not_or, not_exists] at hno
    obtain ⟨hforged, hnone⟩ := hno
    have hn : NoReplace L (es.takeWhile fun e => e.verifyHash) := fun e he _ hc => by
      by_contra hd
      exact hnone e ⟨he, hc, hd⟩
    exact hforged fun k x hx => h k x (mergeLoop_keeps _ hne hn hx)
  · rintro (h | ⟨e, he, hc, hd⟩)
    · exact h.logSteps (mergeBatch_log L es)
    · have hv : e.verifyHash := List.mem_takeWhile_imp he
      have hsub : es.takeWhile (fun e => e.verifyHash) ⊆ es := List.takeWhile_subset _
      refine Verified.mergeBatch_of_mergePass ?_
      rw [mergePass_snd]
      exact appendAll_verified hne (fun a ha b hb => hcoll a (hsub ha) b (hsub hb)) he hv hc hd

/-- A batch that a merge takes to its end is verified as a whole. -/
theorem verifyHash_of_mergeBatch {new : List Entry} (h : (mergeBatch L es).1 = .ok new) :
    ∀ e ∈ es, e.verifyHash := by
  cases es with
  | nil => exact fun _ he => absurd he List.not_mem_nil
  | cons a es =>
    have hall := verifyHash_of_mergePass L (a :: es)
    rw [mergeBatch, List.length_cons, mergeLoop] at h
    · generalize mergePass L (a :: es) = r at h hall
      obtain ⟨r, L₁⟩ := r
      rcases r with err | ⟨new', retry⟩
      · cases h
      · exact hall new' retry rfl
    · simp

end OpLog

/-! ### The entrances -/

/-- The entry verifies and replaces a log that was made from the other one alone. -/
def Entry.Replaces (self genesis : Entry) : Prop :=
  self.verifyHash ∧ self.isRootCheckpoint ∧ self.hash ≠ genesis.hash

variable {g : Entry} {rest : List Entry}

theorem exists_replaces_iff : (∃ e ∈ rest, e.Replaces g) ↔
    ∃ e ∈ rest, e.verifyHash ∧ e.isRootCheckpoint ∧ e.hash ∉ (OpLog.new g).entries := by
  refine exists_congr fun e => and_congr_right fun _ => and_congr_right fun _ =>
    and_congr_right fun _ => not_congr ?_
  rw [HashMap.mem_iff_getElem?, OpLog.getElem?_new]
  constructor
  · intro heq
    exact ⟨g, if_pos heq.symm⟩
  · rintro ⟨x, hx⟩
    by_contra hne
    rw [if_neg (fun heq => hne heq.symm)] at hx
    cases hx

namespace Store

variable {σ : HashOrder} {L L' : OpLog} {entries : List Entry}

/-- The loop of the reconstruction keeps what is there, if no checkpoint replaces the log. -/
theorem reconstructLoop_keeps {byHash : HashMap Hash Entry}
    {childrenOf : HashMap Hash (List Hash)} (fuel : ℕ) {ready : List Hash}
    {pp pp' : HashMap Hash (HashSet Hash)} (hne : L.entries ≠ ∅)
    (hn : ∀ (h : Hash) (e : Entry), byHash[h]? = some e → NoReplace L [e])
    (hrun : reconstructLoop byHash childrenOf fuel ready pp L = .ok (L', pp')) {h : Hash}
    {x : Entry} (hx : L.entries[h]? = some x) : L'.entries[h]? = some x := by
  induction fuel generalizing ready pp L with
  | zero =>
    cases hrun
    exact hx
  | succ fuel ih =>
    cases ready with
    | nil =>
      cases hrun
      exact hx
    | cons k ready =>
      rw [reconstructLoop] at hrun
      split at hrun
      · exact ih hne hn hrun hx
      · rename_i e he
        have hkeeps : ∀ {h' : Hash} {y : Entry}, L.entries[h']? = some y →
            (L.append e).2.entries[h']? = some y :=
          OpLog.appendAll_keeps hne (hn k e he)
        split at hrun
        · cases hrun
        · rename_i b L₁ happ
          rw [happ] at hkeeps
          have hne₁ : L₁.entries ≠ ∅ := fun h0 => by
            have hstays := hkeeps hx
            simp [h0] at hstays
          refine ih hne₁ (fun k' e' he' a ha hv hc => ?_) hrun (hkeeps hx)
          obtain ⟨y, hy⟩ := HashMap.mem_iff_getElem?.mp (hn k' e' he' a ha hv hc)
          exact HashMap.mem_iff_getElem?.mpr ⟨y, hkeeps hy⟩

/-- **A file.** The log that is rebuilt from it is verified exactly if its first root is, or
another of its roots replaces the log. -/
theorem verified_reconstructOplog_iff (hroots : rootsOf entries = g :: rest)
    (hcoll : OpLog.CollisionFree rest) (hrun : reconstructOplog σ entries = .ok L) :
    L.Verified ↔ g.verifyHash ∨ ∃ e ∈ rest, e.Replaces g := by
  have hne : (OpLog.new g).entries ≠ ∅ := OpLog.entries_new_ne_empty g
  rw [reconstructOplog_of_roots hroots, reconstructFrom] at hrun
  simp only at hrun
  split at hrun
  · cases hrun
  · rename_i L' pp' hloop
    split at hrun
    · obtain rfl := Except.ok.inj hrun
      rw [exists_replaces_iff, ← OpLog.verified_new_iff,
        ← OpLog.verified_appendAll_iff hne hcoll]
      constructor
      · intro h
        by_contra hforged
        rw [OpLog.verified_appendAll_iff hne hcoll, not_or, not_exists] at hforged
        obtain ⟨hforged, hnone⟩ := hforged
        have hn : NoReplace (OpLog.new g) rest := fun e he hv hc => by
          by_contra hd
          exact hnone e ⟨he, hv, hc, hd⟩
        have hg : (OpLog.new g).entries[g.hash]? = some g := by
          rw [OpLog.getElem?_new, if_pos rfl]
        have hstart := OpLog.appendAll_keeps hne hn hg
        -- every parentless checkpoint of the file is a root, and the log holds its hash
        have hheld : ∀ (k : Hash) (e : Entry), (indexByHash entries)[k]? = some e →
            NoReplace ((OpLog.new g).appendAll rest) [e] := by
          intro k e he a ha hv hc
          obtain rfl := List.mem_singleton.mp ha
          have hroot : a ∈ g :: rest := by
            rw [← hroots]
            exact List.mem_filter.mpr
              ⟨getElem?_indexByHash he, (Bool.and_eq_true_iff.mp hc).1⟩
          rcases List.mem_cons.mp hroot with rfl | hroot
          · exact HashMap.mem_iff_getElem?.mpr ⟨a, hstart⟩
          · obtain ⟨y, hy⟩ := HashMap.mem_iff_getElem?.mp (hn a hroot hv hc)
            exact HashMap.mem_iff_getElem?.mpr ⟨y, OpLog.appendAll_keeps hne hn hy⟩
        have hne₀ := OpLog.entries_appendAll_ne_empty hne rest
        have hend := reconstructLoop_keeps _ hne₀ hheld hloop hstart
        exact hforged (OpLog.verified_new_iff.mpr (h g.hash g hend).2)
      · exact fun h => h.logSteps (PyGraphStore.Store.reconstructLoop_log _ hloop)
    · cases hrun

/-- An opened store has the log that is rebuilt from its file. -/
theorem verified_openDb_iff {txn : TxnResult} {db : Db} {genesis : Option Entry} {store : Store}
    (hroots : rootsOf (loadEntries db) = g :: rest) (hcoll : OpLog.CollisionFree rest)
    (hrun : openDb σ txn db genesis = .ok store) :
    store.oplog.Verified ↔ g.verifyHash ∨ ∃ e ∈ rest, e.Replaces g := by
  have hne : loadEntries db ≠ [] := fun h => by
    rw [h] at hroots
    cases hroots
  rw [openDb_of_rows hne] at hrun
  obtain ⟨L, hrec, rfl⟩ := except_map_eq_ok hrun
  exact verified_reconstructOplog_iff hroots hcoll hrec

end Store

namespace PyGraphStore

/-- The log of a store from a snapshot: the first entry, and the others merged into it. -/
theorem oplog_fromSnapshot {env : Env} {instanceId : String} {s : PyGraphStore}
    (run : fromSnapshot env instanceId (g :: rest) = .ok s) :
    s.oplog = (mergeBatch (OpLog.new g) rest).2 ∧
      ∃ new, (mergeBatch (OpLog.new g) rest).1 = .ok new := by
  unfold fromSnapshot at run
  simp only at run
  split at run
  · cases run
  · split at run
    · cases run
    · rename_i hmerge
      split at run
      · cases run
      · cases run
        refine ⟨?_, ?_⟩
        · rw [← mergeEntries_snd, hmerge]
          rfl
        · cases hb : (mergeBatch (OpLog.new g) rest).1 with
          | ok new => exact ⟨new, rfl⟩
          | error err =>
            simp only [mergeEntries, hb] at hmerge
            cases hmerge

/-- **A snapshot.** The log that is built from it is verified exactly if its first entry is, or
another of its entries replaces the log. -/
theorem verified_fromSnapshot_iff {env : Env} {instanceId : String} {s : PyGraphStore}
    (hcoll : OpLog.CollisionFree rest) (run : fromSnapshot env instanceId (g :: rest) = .ok s) :
    s.oplog.Verified ↔ g.verifyHash ∨ ∃ e ∈ rest, e.Replaces g := by
  obtain ⟨hlog, new, hok⟩ := oplog_fromSnapshot run
  have hall := OpLog.verifyHash_of_mergeBatch hok
  rw [hlog, OpLog.verified_mergeBatch_iff (OpLog.entries_new_ne_empty g) hcoll,
    OpLog.verified_new_iff, exists_replaces_iff, List.takeWhile_eq_self_iff.mpr hall]
  refine or_congr_right (exists_congr fun e => and_congr_right fun he => ?_)
  exact ⟨fun h => ⟨hall e he, h⟩, fun h => h.2⟩

/-- **Where forged entries come in, and where not.** A log from a snapshot or a file is verified
exactly if the entry that it starts from is, or is replaced; a merge leaves a verified log exactly
if it found one or replaces it; no call brings a forged entry into a verified log. Two verified
logs with the same hashes have the same contents. The hash is taken not to collide on the
entries in question. -/
theorem verified_iff :
    (∀ (env : Env) (instanceId : String) (g : Entry) (rest : List Entry) (s : PyGraphStore),
      OpLog.CollisionFree rest → fromSnapshot env instanceId (g :: rest) = .ok s →
        (s.oplog.Verified ↔ g.verifyHash ∨ ∃ e ∈ rest, e.Replaces g)) ∧
    (∀ (σ : HashOrder) (txn : TxnResult) (db : Db) (genesis : Option Entry) (store : Store)
      (g : Entry) (rest : List Entry), Store.rootsOf (Store.loadEntries db) = g :: rest →
        OpLog.CollisionFree rest → Store.openDb σ txn db genesis = .ok store →
          (store.oplog.Verified ↔ g.verifyHash ∨ ∃ e ∈ rest, e.Replaces g)) ∧
    (∀ (L : OpLog) (es : List Entry), L.entries ≠ ∅ → OpLog.CollisionFree es →
      ((mergeBatch L es).2.Verified ↔ L.Verified ∨ ∃ e ∈ es.takeWhile fun e => e.verifyHash,
        e.isRootCheckpoint ∧ e.hash ∉ L.entries)) ∧
    (∀ (s : PyGraphStore) (env : Env) (c : Call), s.oplog.Verified →
      (s.exec env c).2.oplog.Verified) ∧
    ∀ L L' : OpLog, L.Verified → L'.Verified →
      (∀ hash, hash ∈ L.entries ↔ hash ∈ L'.entries) →
      (∀ (k k' : Hash) (e e' : Entry), L.entries[k]? = some e → L'.entries[k']? = some e' →
        Crates.contentHash e.content = Crates.contentHash e'.content → e.content = e'.content) →
      ∀ hash : Hash,
        (L.entries[hash]?).map Entry.content = (L'.entries[hash]?).map Entry.content :=
  ⟨fun _ _ _ _ _ hcoll run => verified_fromSnapshot_iff hcoll run,
    fun _ _ _ _ _ _ _ hroots hcoll hrun => Store.verified_openDb_iff hroots hcoll hrun,
    fun _ _ hne hcoll => OpLog.verified_mergeBatch_iff hne hcoll,
    fun s env c h => h.logSteps (exec_log s env c),
    fun _ _ h h' hsame hcoll => h.content_eq h' hsame hcoll⟩

end PyGraphStore

end

/-! ### A forged genesis -/

namespace Sample

open PyGraphStore

/-- The first entry of a store. -/
def invitation : Entry := genesis env "ann" guests

/-- The same entry under another author, with the hash of the first. -/
def forgery : Entry := { invitation with author := "eve" }

/-- A database file that holds one entry. -/
def fileOf (e : Entry) : Db := ⟨(∅ : BTreeMap Hash Entry).insert e.hash e, some [e.hash]⟩

theorem rootsOf_fileOf {e : Entry} (h : e.next = []) :
    Store.rootsOf (Store.loadEntries (fileOf e)) = [e] := by
  have hload : Store.loadEntries (fileOf e) = [e] := rfl
  rw [hload, Store.rootsOf, List.filter_cons_of_pos (by rw [h]; rfl), List.filter_nil]

end Sample

namespace PyGraphStore

open Sample in
/-- A snapshot and a file of an honest store, a merge into it, a call, and two such stores. -/
theorem verified_iff_invitation :
    (∃ s, fromSnapshot env "bob" [invitation] = .ok s ∧
      (s.oplog.Verified ↔ invitation.verifyHash ∨ ∃ e ∈ ([] : List Entry), e.Replaces invitation) ∧
      (s.exec env (.removeNode "bob")).2.oplog.Verified) ∧
    (∃ store, Store.openDb env.order (.ok ()) (fileOf invitation) none = .ok store ∧
      (store.oplog.Verified ↔ invitation.verifyHash ∨ ∃ e ∈ ([] : List Entry), e.Replaces invitation)) ∧
    ((mergeBatch (OpLog.new invitation) [forgery]).2.Verified ↔
      (OpLog.new invitation).Verified ∨ ∃ e ∈ [forgery].takeWhile fun e => e.verifyHash,
        e.isRootCheckpoint ∧ e.hash ∉ (OpLog.new invitation).entries) ∧
    ∀ hash : Hash, ((OpLog.new invitation).entries[hash]?).map Entry.content =
      ((OpLog.new invitation).entries[hash]?).map Entry.content := by
  have hvalid : invitation.verifyHash := by decide +kernel
  have hnew : (OpLog.new invitation).Verified := OpLog.verified_new_iff.mpr hvalid
  have hone : ∀ e : Entry, OpLog.CollisionFree [e] := by
    intro e a ha b hb _
    rw [List.mem_singleton.mp ha, List.mem_singleton.mp hb]
  have hnone : OpLog.CollisionFree [] := fun a ha => absurd ha List.not_mem_nil
  obtain ⟨s, hs⟩ : ∃ s, fromSnapshot env "bob" [invitation] = .ok s :=
    exists_ok_of_isOk (by decide +kernel)
  obtain ⟨store, hstore⟩ : ∃ store,
      Store.openDb env.order (.ok ()) (fileOf invitation) none = .ok store :=
    exists_ok_of_isOk (by decide +kernel)
  have hsnap := verified_iff.1 env "bob" invitation [] s hnone hs
  refine ⟨⟨s, hs, hsnap, ?_⟩, ⟨store, hstore, ?_⟩, ?_, ?_⟩
  · exact verified_iff.2.2.2.1 s env (.removeNode "bob") (hsnap.mpr (.inl hvalid))
  · exact verified_iff.2.1 env.order (.ok ()) (fileOf invitation) none store invitation []
      (rootsOf_fileOf rfl) hnone hstore
  · exact verified_iff.2.2.1 _ _ (OpLog.entries_new_ne_empty invitation) (hone forgery)
  · refine verified_iff.2.2.2.2 _ _ hnew hnew (fun _ => Iff.rfl) fun k k' e e' he he' _ => ?_
    rw [OpLog.getElem?_new] at he he'
    split at he
    · split at he'
      · rw [← Option.some.inj he, ← Option.some.inj he']
      · cases he'
    · cases he

open Sample in
/-- **A forged genesis comes in through a snapshot and through a file**, and the store that takes
it has the hashes of the honest one and another content under one of them. -/
theorem forged_genesis :
    ¬ (∀ (env : Env) (instanceId : String) (snapshot : List Entry) (s : PyGraphStore),
      fromSnapshot env instanceId snapshot = .ok s → s.oplog.Verified) ∧
    ¬ (∀ (σ : HashOrder) (txn : TxnResult) (db : Db) (store : Store),
      Store.openDb σ txn db none = .ok store → store.oplog.Verified) ∧
    ∃ s s' : PyGraphStore, fromSnapshot env "bob" [invitation] = .ok s ∧
      fromSnapshot env "bob" [forgery] = .ok s' ∧
      s.oplog.entries.keys = s'.oplog.entries.keys ∧
      (s.oplog.entries[invitation.hash]?).map Entry.content ≠
        (s'.oplog.entries[invitation.hash]?).map Entry.content := by
  have hforged : ¬ forgery.verifyHash := by decide +kernel
  have hnone : OpLog.CollisionFree [] := fun a ha => absurd ha List.not_mem_nil
  have hno : ¬ (forgery.verifyHash ∨ ∃ e ∈ ([] : List Entry), e.Replaces forgery) := by
    simpa using hforged
  obtain ⟨s, hs⟩ : ∃ s, fromSnapshot env "bob" [invitation] = .ok s :=
    exists_ok_of_isOk (by decide +kernel)
  obtain ⟨s', hs'⟩ : ∃ s', fromSnapshot env "bob" [forgery] = .ok s' :=
    exists_ok_of_isOk (by decide +kernel)
  obtain ⟨store, hstore⟩ : ∃ store,
      Store.openDb env.order (.ok ()) (fileOf forgery) none = .ok store :=
    exists_ok_of_isOk (by decide +kernel)
  have hlog : s.oplog = OpLog.new invitation := (oplog_fromSnapshot hs).1
  have hlog' : s'.oplog = OpLog.new forgery := (oplog_fromSnapshot hs').1
  have hhash : forgery.hash = invitation.hash := rfl
  refine ⟨fun h => ?_, fun h => ?_, s, s', hs, hs', ?_, ?_⟩
  · exact hno ((verified_fromSnapshot_iff hnone hs').mp (h env "bob" [forgery] s' hs'))
  · exact hno ((Store.verified_openDb_iff (rootsOf_fileOf rfl) hnone hstore).mp (h _ _ _ store hstore))
  · rw [hlog, hlog']
    decide +kernel
  · rw [hlog, hlog', OpLog.getElem?_new, OpLog.getElem?_new, if_pos rfl, if_pos hhash]
    intro heq
    have hauthor : invitation.author = forgery.author :=
      congrArg SignableContent.author (Option.some.inj heq)
    exact absurd hauthor (by decide +kernel)

end PyGraphStore

end SilkGraph
