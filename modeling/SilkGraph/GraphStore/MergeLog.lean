import Mathlib.Data.List.TakeWhile
import SilkGraph.GraphStore.Reachable
import SilkGraph.Sync.Atomic

/-!
# What a merge does to the log of a graph store

Two questions about `merge_entries_vec`, over every reachable store and every payload.

*Is a failed merge undone?* It never touches the graph, the node types or the clock, so the
question is one about the backend (`vecAtomic_iff`), where a batch that fails
halfway keeps the entries it got to.

*Does a merge lose entries?* Only a parentless checkpoint can make it do so, and the filter
in front of the merge lets one through where it should not: when the store's only entry is
the checkpoint of a compaction, and when the checkpoint carries the store's own name.
-/

namespace SilkGraph

namespace PyGraphStore

open OpLog

section

variable [Crates] {s : PyGraphStore} {L : OpLog} {es : List Entry}

/-! ### A failed merge -/

/-- A condition that is enough, and on a given domain also necessary. -/
def Decides (domain cond property : Prop) : Prop :=
  (cond → property) ∧ (domain → property → cond)

section Cases

variable {env : Env} {b : Backend} {msg : String}

end Cases

/-- A pass that inserts nothing leaves the log alone. -/
theorem mergePass_of_none {rem retry : List Entry} (h : (mergePass L rem).1 = .ok ([], retry)) :
    (mergePass L rem).2 = L := by
  induction rem generalizing L retry with
  | nil => rfl
  | cons a rem ih =>
    have hsame := append_unchanged L a
    have ih₁ := @ih (L.append a).2
    rw [mergePass] at h ⊢
    generalize L.append a = r at hsame ih₁ h
    obtain ⟨r, L₁⟩ := r
    rcases r with (_ | p) | (_ | _)
    · cases h
    · obtain rfl : L₁ = L := hsame fun h => by cases h
      dsimp only at h
      cases hq : (mergePass L₁ rem).1 with
      | error err => simp [hq, Except.map] at h
      | ok q =>
        obtain ⟨new, retry'⟩ := q
        simp only [hq, Except.map, Except.ok.injEq, Prod.mk.injEq] at h
        exact ih₁ (h.1 ▸ hq)
    · obtain rfl : L₁ = L := hsame fun h => by cases h
      exact ih₁ h
    · dsimp only at h
      cases hq : (mergePass L₁ rem).1 <;> simp [hq, Except.map] at h

/-- The loop keeps what has been inserted, and if that is all it leaves the log alone. -/
theorem mergeLoop_of_none (fuel : ℕ) {rem inserted new : List Entry}
    (h : (mergeLoop fuel L rem inserted).1 = .ok new) : inserted.length ≤ new.length ∧
      (new.length = inserted.length → (mergeLoop fuel L rem inserted).2 = L) := by
  induction fuel generalizing L rem inserted with
  | zero =>
    cases h
    exact ⟨le_rfl, fun _ => rfl⟩
  | succ fuel ih =>
    cases rem with
    | nil =>
      cases h
      exact ⟨le_rfl, fun _ => rfl⟩
    | cons a rem =>
      have hpass := @mergePass_of_none _ L (a :: rem)
      rw [mergeLoop] at h ⊢
      · generalize mergePass L (a :: rem) = r at hpass h
        obtain ⟨r, L₁⟩ := r
        rcases r with err | ⟨new₁, retry⟩
        · cases h
        · dsimp only at h ⊢
          split at h
          · cases h
          · rename_i hgo
            obtain ⟨h₁, h₂⟩ := ih h
            rw [List.length_append] at h₁ h₂
            rw [if_neg hgo]
            refine ⟨by omega, fun heq => ?_⟩
            obtain rfl : new₁ = [] := List.eq_nil_of_length_eq_zero (by omega)
            rw [h₂ (by omega)]
            exact hpass rfl
      · simp
      · simp

/-- What a backend merge reports is the number of entries the loop inserted. -/
theorem mergeBatch_of_backend {b : Backend} {σ : HashOrder} {txn : TxnResult} {n : ℕ}
    (h : (b.merge σ txn es).1 = .ok n) : ∃ new, (mergeBatch b.oplog es).1 = .ok new ∧ new.length = n := by
  cases b with
  | memory L =>
    change (mergeEntries L es).1 = .ok n at h
    change ∃ new, (mergeBatch L es).1 = .ok new ∧ new.length = n
    rw [mergeEntries] at h
    generalize mergeBatch L es = r at h
    obtain ⟨r, L'⟩ := r
    rcases r with err | new
    · cases h
    · exact ⟨new, rfl, Except.ok.inj h⟩
  | persistent st =>
    change (st.merge σ txn es).1.mapError StoreError.display = .ok n at h
    change ∃ new, (mergeBatch st.oplog es).1 = .ok new ∧ new.length = n
    rw [Store.merge] at h
    generalize mergeBatch st.oplog es = r at h
    obtain ⟨r, L'⟩ := r
    rcases r with err | (_ | ⟨a, new⟩)
    · cases h
    · exact ⟨[], rfl, Except.ok.inj h⟩
    · refine ⟨a :: new, rfl, ?_⟩
      dsimp only at h
      split at h
      · cases txn with
        | error msg => cases h
        | ok => exact Except.ok.inj h
      · exact Except.ok.inj h

/-- A backend merge that reports nothing new leaves the log alone. -/
theorem oplog_of_merge_zero {b : Backend} {σ : HashOrder} {txn : TxnResult}
    (h : (b.merge σ txn es).1 = .ok 0) : (b.merge σ txn es).2.oplog = b.oplog := by
  obtain ⟨new, hrun, hlen⟩ := mergeBatch_of_backend h
  rw [Backend.merge_oplog]
  exact (mergeLoop_of_none _ hrun).2 hlen
/-! ### Entries that are lost -/

/-- Everything held before is held after. -/
def Keeps (L L' : OpLog) : Prop :=
  ∀ (h : Hash) (e : Entry), L.entries[h]? = some e → L'.entries[h]? = some e

/-- No two entries of the list with one hash, of which one is a parentless checkpoint and the
other is not: a collision of the content hash. -/
def NoCheckpointCollision (es : List Entry) : Prop :=
  ∀ a ∈ es, ∀ b ∈ es, a.hash = b.hash → a.isRootCheckpoint = b.isRootCheckpoint

theorem mergePass_takeWhile (hne : L.entries ≠ ∅) (rem : List Entry) :
    (mergePass L rem).2 = (mergePass L (rem.takeWhile Entry.verifyHash)).2 := by
  induction rem generalizing L with
  | nil => rfl
  | cons a rem ih =>
    by_cases hv : a.verifyHash
    · have ih' := ih (entries_append_ne_empty hne a)
      rw [List.takeWhile_cons_of_pos hv, mergePass, mergePass]
      generalize L.append a = r at ih'
      obtain ⟨r, L₁⟩ := r
      rcases r with (_ | _) | (_ | _) <;> first | rfl | exact ih'
    · have happ : L.append a = (.error .invalidHash, L) := by simp [OpLog.append, hv]
      simp [mergePass, happ, hv]

/-- An entry with a valid hash is not refused for it. -/
theorem append_ne_invalidHash {a : Entry} (hne : L.entries ≠ ∅) (hv : a.verifyHash) :
    (L.append a).1 ≠ .error .invalidHash := by
  rcases OpLog.append_cases hne a with ⟨hv', -⟩ | ⟨-, -, h⟩ | ⟨-, -, -, h⟩ | ⟨-, -, -, p, -, -, h⟩ |
    ⟨-, -, -, -, h⟩
  · exact absurd hv hv'
  all_goals rw [h]; simp

/-- The merge of a batch with a wrong hash ends in its first pass, at that hash. -/
theorem mergeBatch_snd_of_invalid (hne : L.entries ≠ ∅) (hbad : ∃ e ∈ es, ¬ e.verifyHash) :
    (mergeBatch L es).2 = (mergePass L es).2 := by
  have herr : ∀ {L : OpLog} {rem : List Entry}, L.entries ≠ ∅ → (∃ e ∈ rem, ¬ e.verifyHash) →
      ∃ err, (mergePass L rem).1 = .error err := by
    intro L rem hne hbad
    induction rem generalizing L with
    | nil => simp at hbad
    | cons a rem ih =>
      by_cases hv : a.verifyHash
      · have hbad' : ∃ e ∈ rem, ¬ e.verifyHash := by
          obtain ⟨e, he, hev⟩ := hbad
          rcases List.mem_cons.mp he with rfl | he
          · exact absurd hv hev
          · exact ⟨e, he, hev⟩
        obtain ⟨err, herr⟩ := ih (entries_append_ne_empty hne a) hbad'
        have hval := append_ne_invalidHash hne hv
        rw [mergePass]
        generalize L.append a = r at herr hval
        obtain ⟨r, L₁⟩ := r
        rcases r with (_ | p) | (_ | _)
        · exact absurd rfl hval
        all_goals
          dsimp only at herr ⊢
          generalize mergePass L₁ rem = q at herr ⊢
          obtain ⟨q, L₂⟩ := q
          obtain rfl : q = .error err := herr
          exact ⟨err, rfl⟩
      · exact ⟨.invalidHash a, by simp [mergePass, OpLog.append, hv]⟩
  obtain ⟨err, hrun⟩ := herr hne hbad
  cases es with
  | nil => simp at hbad
  | cons a es =>
    rw [mergeBatch, mergeLoop]
    · generalize mergePass L (a :: es) = q at hrun
      obtain ⟨q, L'⟩ := q
      obtain rfl : q = .error err := hrun
      rfl
    · simp

/-- Without a replacing checkpoint among the entries a merge gets to, everything is kept. -/
theorem mergeBatch_keeps (hne : L.entries ≠ ∅)
    (hn : NoReplace L (es.takeWhile Entry.verifyHash)) : Keeps L (mergeBatch L es).2 := by
  intro h e he
  by_cases hbad : ∃ e ∈ es, ¬ e.verifyHash
  · rw [mergeBatch_snd_of_invalid hne hbad, mergePass_takeWhile hne]
    obtain ⟨new, L', hi, -, hout⟩ := mergePass_cases hne _ hn
    rcases hout with ⟨retry, hrun, -⟩ | ⟨b, -, -, hrun⟩ <;> rw [hrun] <;> exact hi.grows he
  · have hall : es.takeWhile Entry.verifyHash = es :=
      List.takeWhile_eq_self_iff.mpr fun e he => by
        by_contra hv
        exact hbad ⟨e, he, hv⟩
    rw [hall] at hn
    obtain ⟨new, -, hi⟩ := mergeBatch_inserts hne hn
    exact hi.grows he

/-- A merge brings in nothing but its batch. -/
theorem mem_of_mem_mergePass (hne : L.entries ≠ ∅) {rem : List Entry} {h : Hash}
    (hh : h ∈ (mergePass L rem).2.entries) : h ∈ L.entries ∨ h ∈ rem.map Entry.hash := by
  induction rem generalizing L with
  | nil => exact .inl hh
  | cons a rem ih =>
    have hkey : h ∈ (L.append a).2.entries ∨ h ∈ rem.map Entry.hash := by
      have ih' := ih (entries_append_ne_empty hne a)
      rw [mergePass] at hh
      generalize L.append a = r at ih' hh
      obtain ⟨r, L₁⟩ := r
      rcases r with (_ | p) | (_ | _)
      · exact .inl hh
      all_goals exact ih' hh
    rcases hkey with hkey | hkey
    · rcases mem_append hne hkey with hkey | rfl
      · exact .inl hkey
      · exact .inr List.mem_cons_self
    · exact .inr (List.mem_cons_of_mem _ hkey)

/-- What is in the log after a loop was there after its first pass, or is in the batch. -/
theorem mem_of_mem_mergeLoop (fuel : ℕ) (hne : L.entries ≠ ∅) {rem inserted : List Entry}
    {h : Hash} (hh : h ∈ (mergeLoop (fuel + 1) L rem inserted).2.entries) :
    h ∈ (mergePass L rem).2.entries ∨ h ∈ rem.map Entry.hash := by
  induction fuel generalizing L rem inserted with
  | zero =>
    cases rem with
    | nil => exact .inl hh
    | cons a rem =>
      rw [mergeLoop] at hh
      · generalize mergePass L (a :: rem) = r at hh
        obtain ⟨r, L₁⟩ := r
        rcases r with err | ⟨new, retry⟩
        · exact .inl hh
        · dsimp only at hh
          split at hh <;> exact .inl hh
      · simp
  | succ fuel ih =>
    cases rem with
    | nil => exact .inl hh
    | cons a rem =>
      have hne' := (mergePass_log L (a :: rem)).nonempty hne
      have hretry := fun new retry h => (mergePass_batch L (a :: rem) new retry h).2
      rw [mergeLoop] at hh
      · generalize mergePass L (a :: rem) = r at hne' hretry hh
        obtain ⟨r, L₁⟩ := r
        rcases r with err | ⟨new, retry⟩
        · exact .inl hh
        · dsimp only at hh
          split at hh
          · exact .inl hh
          · have hsub : h ∈ retry.map Entry.hash → h ∈ (a :: rem).map Entry.hash := fun hm =>
              List.map_subset _ (hretry new retry rfl) hm
            rcases ih hne' hh with hh | hh
            · exact (mem_of_mem_mergePass hne' hh).imp_right hsub
            · exact .inr (hsub hh)
      · simp

/-- Once a parentless checkpoint has replaced the log, a hash that the batch does not carry
is gone. -/
theorem mergePass_forgets (hne : L.entries ≠ ∅) {rem : List Entry} {c : Entry} {h : Hash}
    (hc : c ∈ rem.takeWhile Entry.verifyHash) (hroot : c.isRootCheckpoint)
    (hfresh : c.hash ∉ L.entries) (hcol : NoCheckpointCollision rem)
    (hh : h ∉ rem.map Entry.hash) : h ∉ (mergePass L rem).2.entries := by
  induction rem generalizing L with
  | nil => simp at hc
  | cons a rem ih =>
    have hv : a.verifyHash := by
      by_contra hv
      rw [List.takeWhile_cons_of_neg hv] at hc
      cases hc
    have hcv : c.verifyHash := List.mem_takeWhile_imp hc
    rw [List.takeWhile_cons_of_pos hv] at hc
    have hmem : c ∈ a :: rem := (List.mem_cons.mp hc).elim (fun h => by rw [h]; exact List.mem_cons_self)
      fun h => List.mem_cons_of_mem _ (List.takeWhile_subset _ h)
    have hne' := entries_append_ne_empty hne a
    have hhrem : h ∉ rem.map Entry.hash := fun hm => hh (List.mem_cons_of_mem _ hm)
    have hcol' : NoCheckpointCollision rem := fun x hx y hy =>
      hcol x (List.mem_cons_of_mem _ hx) y (List.mem_cons_of_mem _ hy)
    -- the rest of the pass starts from the log the head leaves behind
    have hstep : (mergePass L (a :: rem)).2 = (mergePass (L.append a).2 rem).2 := by
      have hval := append_ne_invalidHash hne hv
      rw [mergePass]
      generalize L.append a = r at hval
      obtain ⟨r, L₁⟩ := r
      rcases r with (_ | p) | (_ | _)
      · exact absurd rfl hval
      all_goals rfl
    rw [hstep]
    by_cases hrep : a.isRootCheckpoint ∧ a.hash ∉ L.entries
    · -- the head replaces the log
      intro hm
      rw [append_eq_replace hne hv hrep.2 hrep.1] at hm
      rcases mem_of_mem_mergePass (entries_new_ne_empty a) hm with hm | hm
      · rcases HashMap.mem_insert.mp hm with rfl | hm
        · exact hh List.mem_cons_self
        · exact Std.ExtTreeMap.not_mem_empty hm
      · exact hhrem hm
    · -- it does not, so the checkpoint is further down and still new
      have hca : c.hash ≠ a.hash := by
        intro heq
        refine hrep ⟨?_, heq ▸ hfresh⟩
        rw [← hcol c hmem a List.mem_cons_self heq]
        exact hroot
      refine ih hne' ?_ ?_ hcol' hhrem
      · rcases List.mem_cons.mp hc with rfl | hc
        · exact absurd rfl hca
        · exact hc
      · intro hm
        exact (mem_append hne hm).elim hfresh hca

/-- **Nothing is lost.** For every reachable store and every payload, a merge keeps every
entry of the log if no hash-valid parentless checkpoint that is new passes the filter before
the first wrong hash; and if some entry of the log is not in the payload, only then. -/
theorem merge_keeps_entries (s : PyGraphStore) (hs : Reachable s) (env : Env) (es : List Entry) :
    Decides
      ((∃ h ∈ s.oplog.entries, h ∉ (es.filter s.admits).map Entry.hash) ∧
        NoCheckpointCollision (es.filter s.admits))
      (NoReplace s.oplog ((es.filter s.admits).takeWhile Entry.verifyHash))
      (Keeps s.oplog (s.mergeEntriesVec env es).2.oplog) := by
  have hne := hs.nonempty
  rw [mergeEntriesVec_log]
  refine ⟨mergeBatch_keeps hne, ?_⟩
  rintro ⟨⟨h, hh, hout⟩, hcol⟩ hkeep c hc hv hroot
  by_contra hfresh
  obtain ⟨e, he⟩ := HashMap.mem_iff_getElem?.mp hh
  have hafter := HashMap.mem_iff_getElem?.mpr ⟨e, hkeep h e he⟩
  rcases mem_of_mem_mergeLoop _ hne hafter with hin | hin
  · exact mergePass_forgets hne hc hroot hfresh hcol hout hin
  · exact hout hin

end

open Sample in
/-- A payload without a checkpoint, merged into a store that has just compacted. -/
theorem merge_keeps_entries_compacted :
    let s := (((freshStore "ann" ⟨∅, ∅⟩).exec env (.removeNode "x")).2.exec env .compact).2
    let a := Entry.new (.removeNode "x") [] [] ⟨"bob", 2, 0⟩ "bob"
    Keeps s.oplog (s.mergeEntriesVec env [a]).2.oplog := by
  intro s a
  have hs : Reachable s := .call (.call (reachable_freshStore rfl) env _) env _
  refine (merge_keeps_entries s hs env [a]).1 fun e he _ hc => ?_
  obtain rfl := List.mem_singleton.mp (List.mem_filter.mp (List.takeWhile_subset _ he)).1
  cases hc

open Sample in
/-- A store that has just compacted takes a peer's checkpoint for a bootstrap, and a store of
any length takes back an earlier checkpoint of its own: both times the log is replaced. -/
theorem merge_deletes_entries :
    let s := ((freshStore "ann" ⟨∅, ∅⟩).exec env (.removeNode "x")).2
    let compacted := (s.exec env .compact).2
    let foreign := Entry.new (.checkpoint [] [] 1 0) [] [] ⟨"bob", 1, 0⟩ "bob"
    let own := Entry.new (.checkpoint [] [] 1 0) [] [] ⟨"ann", 1, 0⟩ "ann"
    Reachable s ∧ Reachable compacted ∧
      (compacted.oplog.entries.keys = [(s.checkpointEntry env).hash] ∧
        (compacted.mergeEntriesVec env [foreign]).1 = .ok 1 ∧
        (compacted.mergeEntriesVec env [foreign]).2.oplog.entries.keys = [foreign.hash] ∧
        foreign.hash ≠ (s.checkpointEntry env).hash) ∧
      (s.oplog.len = 2 ∧ (s.mergeEntriesVec env [own]).1 = .ok 1 ∧
        (s.mergeEntriesVec env [own]).2.oplog.entries.keys = [own.hash] ∧
        own.hash ∉ s.oplog.entries) := by
  intro s compacted foreign own
  have hs : Reachable s := .call (reachable_freshStore rfl) env _
  refine ⟨hs, .call hs env _, ⟨?_, ?_, ?_, ?_⟩, ?_, ?_, ?_, ?_⟩ <;> decide +kernel

end PyGraphStore

end SilkGraph
