import Mathlib.Data.Prod.Lex
import SilkGraph.OpLog.Enumeration

/-!
# The order of the listing

`entries_since(None)` lists a log by Kahn's algorithm, what becomes ready at once sorted by
time and hash. Two facts about the result. The first entry is the root that sorts first
(`entriesSince_head`). And a log that has grown lists its old entries in the old order
(`entriesSince_stable`): a new entry never stands between an old one and its parents, so it
delays none of them.
-/

namespace SilkGraph

namespace OpLog

variable [Crates] {A B L : OpLog} {h : Hash} {hashes : HashSet Hash}

/-! ### The order of simultaneously ready entries -/

omit [Crates] in
/-- What a stored hash is sorted by. -/
def sortKey (self : OpLog) (h : Hash) : ℕ ×ₗ (ℕ ×ₗ ℕ) :=
  match self.entries[h]? with
  | some e => toLex (e.clock.physicalMs, toLex (e.clock.logical, h.toNat))
  | none => toLex (0, toLex (0, h.toNat))

omit [Crates] in
theorem sortKey_injective (L : OpLog) : Function.Injective L.sortKey := by
  intro a b hab
  have hnat : ∀ h, (ofLex (ofLex (L.sortKey h)).2).2 = h.toNat := fun h => by
    rw [sortKey]
    split <;> rfl
  exact BitVec.eq_of_toNat_eq (by rw [← hnat a, ← hnat b, hab])

omit [Crates] in
theorem compare_isLE_iff {a b : Hash} : (compare a b).isLE = true ↔ a.toNat ≤ b.toNat := by
  change (compareOfLessAndEq a b).isLE = true ↔ _
  rw [compareOfLessAndEq]
  by_cases hlt : a < b
  · have := BitVec.lt_def.mp hlt
    simp only [hlt, if_true, Ordering.isLE_lt, true_iff]
    omega
  · have hle : ¬ a.toNat < b.toNat := fun h => hlt (BitVec.lt_def.mpr h)
    by_cases heq : a = b
    · simp [heq]
    · have hne : a.toNat ≠ b.toNat := fun h => heq (BitVec.eq_of_toNat_eq h)
      simp only [hlt, heq, if_false, Ordering.isLE_gt, Bool.false_eq_true, false_iff]
      omega

omit [Crates] in
theorem readyLE_iff {a b : Hash} (ha : a ∈ L.entries) (hb : b ∈ L.entries) :
    L.readyLE a b = true ↔ L.sortKey a ≤ L.sortKey b := by
  obtain ⟨ea, hea⟩ := HashMap.mem_iff_getElem?.mp ha
  obtain ⟨eb, heb⟩ := HashMap.mem_iff_getElem?.mp hb
  simp only [readyLE, sortKey, hea, heb]
  rw [Prod.Lex.toLex_le_toLex, Prod.Lex.toLex_le_toLex, ← compare_isLE_iff]
  obtain hp | hp | hp := lt_trichotomy ea.clock.physicalMs eb.clock.physicalMs
  · simp [compare_lt_iff_lt.mpr hp, hp]
  · obtain hl | hl | hl := lt_trichotomy ea.clock.logical eb.clock.logical
    · simp [hp, compare_lt_iff_lt.mpr hl, hl]
    · simp [hp, hl]
    · simp [hp, compare_gt_iff_gt.mpr hl, hl.ne', hl.asymm]
  · simp [compare_gt_iff_gt.mpr hp, hp.ne', hp.asymm]

omit [Crates] in
/-- Sorting stored hashes sorts them by their key. -/
theorem pairwise_sortReady {l : List Hash} (hl : ∀ h ∈ l, h ∈ L.entries) :
    (L.sortReady l).Pairwise fun a b => L.sortKey a ≤ L.sortKey b := by
  have hmap := List.map_insertionSort (fun a b => L.readyLE a b = true) (· ≤ ·) L.sortKey l
    fun a ha b hb => readyLE_iff (hl a ha) (hl b hb)
  have hsorted := List.pairwise_insertionSort (· ≤ ·) (l.map L.sortKey)
  rw [← hmap, List.pairwise_map] at hsorted
  exact hsorted

omit [Crates] in
/-- Sorting and then keeping some is sorting the ones kept, in any log that agrees on them. -/
theorem filter_sortReady {l l' : List Hash} (keep : Hash → Bool) (hl : ∀ h ∈ l, h ∈ B.entries)
    (hl' : ∀ h ∈ l', h ∈ A.entries) (hkey : ∀ h ∈ l', A.sortKey h = B.sortKey h)
    (hperm : (l.filter keep).Perm l') : (B.sortReady l).filter keep = A.sortReady l' := by
  have hp : ((B.sortReady l).filter keep).Perm (A.sortReady l') :=
    ((List.perm_insertionSort _ _).filter keep).trans (hperm.trans (List.perm_insertionSort _ _).symm)
  refine @List.Perm.eq_of_pairwise Hash (fun a b => A.sortKey a ≤ A.sortKey b) _ _ ?_ ?_
    (pairwise_sortReady hl') hp
  · exact fun a b _ _ hab hba => sortKey_injective A (le_antisymm hab hba)
  · have hB := (pairwise_sortReady hl).filter keep
    have hmem : ∀ a ∈ (B.sortReady l).filter keep, A.sortKey a = B.sortKey a := fun a ha =>
      hkey a ((List.mem_insertionSort _).mp (hp.subset ha))
    refine hB.imp_of_mem fun ha hb hab => ?_
    rw [hmem _ ha, hmem _ hb]
    exact hab

/-! ### Growing a log -/

/-- What an ordered listing needs of a log: the traversals reach everything once. -/
structure Listable (L : OpLog) : Prop where
  wellFormed : L.WellFormed
  refsStored : L.RefsStored
  nextNodup : L.NextNodup

/-- All hashes of a log, as `entries_since(None)` collects them. -/
def allHashes (self : OpLog) : HashSet Hash := self.reachableFrom self.heads.toList

theorem Listable.mem_allHashes (hL : L.Listable) : h ∈ L.allHashes ↔ h ∈ L.entries :=
  hL.wellFormed.mem_reachableFrom_heads hL.refsStored

omit [Crates] in
/-- Every entry of `A` is stored in `B`, under the same hash. -/
def Within (A B : OpLog) : Prop := A.All fun h e => B.entries[h]? = some e

omit [Crates] in
theorem Within.mem (hsub : Within A B) (hh : h ∈ A.entries) : h ∈ B.entries := by
  obtain ⟨e, he⟩ := HashMap.mem_iff_getElem?.mp hh
  exact HashMap.mem_iff_getElem?.mpr ⟨e, hsub h e he⟩

omit [Crates] in
theorem Within.nextOf (hsub : Within A B) (hh : h ∈ A.entries) : B.nextOf h = A.nextOf h := by
  obtain ⟨e, he⟩ := HashMap.mem_iff_getElem?.mp hh
  rw [nextOf_eq_of_get he, nextOf_eq_of_get (hsub h e he)]

omit [Crates] in
theorem Within.sortKey (hsub : Within A B) (hh : h ∈ A.entries) : A.sortKey h = B.sortKey h := by
  obtain ⟨e, he⟩ := HashMap.mem_iff_getElem?.mp hh
  simp only [OpLog.sortKey, he, hsub h e he]

theorem Within.pendingParents (hsub : Within A B) (hA : A.Listable) (hB : B.Listable)
    (hh : h ∈ A.entries) (done : List Hash) : B.pendingParents B.allHashes done h =
      A.pendingParents A.allHashes (done.filter fun x => A.entries.contains x) h := by
  rw [OpLog.pendingParents, OpLog.pendingParents, hsub.nextOf hh]
  refine List.countP_congr fun p hp => ?_
  have hpA := hA.wellFormed.rep.parentClosed h hh p hp
  simp [hB.mem_allHashes, hA.mem_allHashes, hpA, hsub.mem hpA]

/-- An old entry is released by old entries only, together with the same ones. -/
theorem Within.released (hsub : Within A B) (hA : A.Listable) (hB : B.Listable)
    (done : List Hash) (x : Hash) :
    (A.entries.contains x = true → (B.released B.allHashes done x).filter
      (fun y => A.entries.contains y) =
        A.released A.allHashes (done.filter fun x => A.entries.contains x) x) ∧
    (A.entries.contains x = false → (B.released B.allHashes done x).filter
      (fun y => A.entries.contains y) = []) := by
  have hmem : ∀ y ∈ A.entries, (y ∈ B.released B.allHashes done x ↔ x ∈ A.nextOf y ∧
      A.pendingParents A.allHashes ((done ++ [x]).filter fun x => A.entries.contains x) y = 0) := by
    intro y hy
    rw [mem_released hB.wellFormed, hsub.nextOf hy, hB.mem_allHashes,
      hsub.pendingParents hA hB hy]
    simp [hsub.mem hy]
  constructor
  · intro hx
    refine filter_sortReady _ (fun y hy => ?_) (fun y hy => ?_) (fun y hy => ?_) ?_
    · simp only [List.mem_filter, Bool.and_eq_true, Std.ExtTreeSet.contains_iff_mem] at hy
      exact hB.mem_allHashes.mp hy.2.1
    · simp only [List.mem_filter, Bool.and_eq_true, Std.ExtTreeSet.contains_iff_mem] at hy
      exact hA.mem_allHashes.mp hy.2.1
    · simp only [List.mem_filter, Bool.and_eq_true, Std.ExtTreeSet.contains_iff_mem] at hy
      exact hsub.sortKey (hA.mem_allHashes.mp hy.2.1)
    · refine (List.perm_ext_iff_of_nodup ((HashSet.nodup_toList.filter _).filter _)
        (HashSet.nodup_toList.filter _)).mpr fun y => ?_
      have hrel : ∀ L : OpLog, ∀ done : List Hash,
          (y ∈ (L.childrenOf x).toList.filter fun y => L.allHashes.contains y &&
            L.pendingParents L.allHashes (done ++ [x]) y == 0) ↔
          y ∈ L.released L.allHashes done x := fun L done => by
        rw [OpLog.released, sortReady, List.mem_insertionSort]
      rw [List.mem_filter, hrel B, hrel A, Std.ExtTreeMap.contains_iff_mem]
      have hdone : (done ++ [x]).filter (fun x => A.entries.contains x) =
          done.filter (fun x => A.entries.contains x) ++ [x] := by
        rw [List.filter_append, List.filter_cons_of_pos hx, List.filter_nil]
      constructor
      · rintro ⟨hyB, hyA⟩
        obtain ⟨h₁, h₂⟩ := (hmem y hyA).mp hyB
        rw [hdone] at h₂
        exact (mem_released hA.wellFormed).mpr ⟨h₁, hA.mem_allHashes.mpr hyA, h₂⟩
      · intro hy
        obtain ⟨h₁, h₂, h₃⟩ := (mem_released hA.wellFormed).mp hy
        have hyA := hA.mem_allHashes.mp h₂
        rw [← hdone] at h₃
        exact ⟨(hmem y hyA).mpr ⟨h₁, h₃⟩, hyA⟩
  · intro hx
    refine List.filter_eq_nil_iff.mpr fun y hyB hyA => ?_
    have hyA := Std.ExtTreeMap.contains_iff_mem.mp hyA
    have hxy := ((hmem y hyA).mp hyB).1
    have hxA := hA.wellFormed.rep.parentClosed y hyA x hxy
    rw [Std.ExtTreeMap.contains_iff_mem.mpr hxA] at hx
    cases hx

theorem Within.startQueue (hsub : Within A B) (hA : A.Listable) (hB : B.Listable) :
    (B.startQueue B.allHashes).filter (fun y => A.entries.contains y) =
      A.startQueue A.allHashes := by
  have hstored : ∀ {L : OpLog}, L.Listable → ∀ y ∈ L.allHashes.toList.filter
      fun h => L.pendingParents L.allHashes [] h == 0, y ∈ L.entries := fun hL y hy =>
    hL.mem_allHashes.mp (Std.ExtTreeSet.mem_toList.mp (List.mem_of_mem_filter hy))
  refine filter_sortReady _ (hstored hB) (hstored hA) (fun y hy => hsub.sortKey (hstored hA y hy)) ?_
  refine (List.perm_ext_iff_of_nodup ((HashSet.nodup_toList.filter _).filter _)
    (HashSet.nodup_toList.filter _)).mpr fun y => ?_
  simp only [List.mem_filter, Std.ExtTreeSet.mem_toList, hB.mem_allHashes, hA.mem_allHashes,
    Std.ExtTreeMap.contains_iff_mem, beq_iff_eq]
  constructor
  · rintro ⟨⟨-, h⟩, hyA⟩
    exact ⟨hyA, by rwa [hsub.pendingParents hA hB hyA] at h⟩
  · rintro ⟨hyA, h⟩
    exact ⟨⟨hsub.mem hyA, by rwa [hsub.pendingParents hA hB hyA]⟩, hyA⟩

omit [Crates] in
/-- Entries are told apart by their hashes, so a listing is determined by them. -/
theorem eq_of_map_hash {es es' : List Entry} (hmap : es.map Entry.hash = es'.map Entry.hash)
    (hes : ∀ e ∈ es, L.entries[e.hash]? = some e) (hes' : ∀ e ∈ es', L.entries[e.hash]? = some e) :
    es = es' := by
  have hback : ∀ l : List Entry, (∀ e ∈ l, L.entries[e.hash]? = some e) →
      (l.map Entry.hash).filterMap (fun h => L.entries[h]?) = l := fun l hl => by
    rw [List.filterMap_map]
    exact (List.filterMap_congr (g := some) hl).trans List.filterMap_some
  rw [← hback es hes, hmap, hback es' hes']

/-- **Stability.** A log that has grown lists what it held before in the order it had. -/
theorem entriesSince_stable (hsub : Within A B) (hA : A.Listable) (hB : B.Listable)
    {esA esB : List Entry} (hesA : A.entriesSince none = some esA)
    (hesB : B.entriesSince none = some esB) :
    esB.filter (fun e => A.entries.contains e.hash) = esA := by
  obtain ⟨hmapA, hgetA⟩ := entriesSince_eq_some hA.wellFormed hesA
  obtain ⟨hmapB, hgetB⟩ := entriesSince_eq_some hB.wellFormed hesB
  have hrunA := (topoHashes_run hA.wellFormed (hA.nextNodup.within A.allHashes)).1
  have hrunB := (topoHashes_run hB.wellFormed (hB.nextNodup.within B.allHashes)).1
  have hfilter := hrunB.filter (fun h => A.entries.contains h)
    (fun done x => (hsub.released hA hB done x).1) fun done x => (hsub.released hA hB done x).2
  rw [hsub.startQueue hA hB] at hfilter
  refine eq_of_map_hash (L := B) ?_ (fun e he => hgetB e (List.mem_of_mem_filter he))
    fun e he => hsub _ _ (hgetA e he)
  calc (esB.filter fun e => A.entries.contains e.hash).map Entry.hash
      = (esB.map Entry.hash).filter fun h => A.entries.contains h := by rw [List.filter_map]; rfl
    _ = (B.topoHashes B.allHashes).filter fun h => A.entries.contains h := by rw [hmapB]; rfl
    _ = A.topoHashes A.allHashes := hfilter.unique hrunA
    _ = esA.map Entry.hash := hmapA.symm

/-- Logs that hold the same entries are listed alike. -/
theorem entriesSince_congr (heq : ∀ h : Hash, A.entries[h]? = B.entries[h]?) (hA : A.Listable)
    (hB : B.Listable) : A.entriesSince none = B.entriesSince none := by
  obtain ⟨esA, hesA, -⟩ := entriesSince_none_spec hA.wellFormed hA.nextNodup hA.refsStored
  obtain ⟨esB, hesB, -⟩ := entriesSince_none_spec hB.wellFormed hB.nextNodup hB.refsStored
  have hstable := entriesSince_stable (fun h _ he => (heq h).symm.trans he) hA hB hesA hesB
  rw [List.filter_eq_self.mpr fun e he => ?_] at hstable
  · rw [hesA, hesB, hstable]
  · rw [Std.ExtTreeMap.contains_iff_mem, HashMap.mem_iff_getElem?]
    exact ⟨e, (heq e.hash).trans ((entriesSince_eq_some hB.wellFormed hesB).2 e he)⟩

/-! ### The first entry -/

/-- **The first entry** listed is the parentless one that sorts first. -/
theorem entriesSince_head (hL : L.Listable) {g : Entry} {rest : List Entry}
    (hes : L.entriesSince none = some (g :: rest)) :
    L.entries[g.hash]? = some g ∧ g.next = [] ∧
      L.All fun h r => r.next = [] → L.sortKey g.hash ≤ L.sortKey h := by
  obtain ⟨hmap, hget⟩ := entriesSince_eq_some hL.wellFormed hes
  have hg := hget g List.mem_cons_self
  have hstart : ∀ y, y ∈ L.startQueue L.allHashes ↔ y ∈ L.entries ∧ L.nextOf y = [] := by
    intro y
    rw [OpLog.startQueue, sortReady, List.mem_insertionSort, List.mem_filter,
      Std.ExtTreeSet.mem_toList, hL.mem_allHashes, beq_iff_eq]
    refine and_congr_right fun hy => ?_
    rw [OpLog.pendingParents, List.countP_eq_zero, List.eq_nil_iff_forall_not_mem]
    refine forall_congr' fun p => imp_congr_right fun hp => ?_
    have hpL := hL.wellFormed.rep.parentClosed y hy p hp
    simp [hL.mem_allHashes, hpL]
  obtain ⟨tail, htail⟩ := (topoHashes_run hL.wellFormed (hL.nextNodup.within L.allHashes)).1.starts
  have hrun := (topoHashes_run hL.wellFormed (hL.nextNodup.within L.allHashes)).1
  have hlist : g.hash :: rest.map Entry.hash = L.topoHashes L.allHashes := hmap
  rw [← hlist] at htail hrun
  have hpair : (L.startQueue L.allHashes).Pairwise fun a b => L.sortKey a ≤ L.sortKey b :=
    pairwise_sortReady fun y hy => hL.mem_allHashes.mp
      (Std.ExtTreeSet.mem_toList.mp (List.mem_of_mem_filter hy))
  cases hq : L.startQueue L.allHashes with
  | nil =>
    rw [hq] at hrun
    cases hrun
  | cons q queue =>
    rw [hq] at htail hpair
    obtain rfl : q = g.hash := by simpa using congrArg List.head? htail
    have hroot : ∀ y, y ∈ g.hash :: queue ↔ y ∈ L.entries ∧ L.nextOf y = [] := hq ▸ hstart
    refine ⟨hg, ?_, fun h r hr hnil => ?_⟩
    · rw [← nextOf_eq_of_get hg]
      exact ((hroot g.hash).mp List.mem_cons_self).2
    · have hmem := (hroot h).mpr ⟨HashMap.mem_iff_getElem?.mpr ⟨r, hr⟩, by
        rw [nextOf_eq_of_get hr, hnil]⟩
      obtain rfl | hmem := List.mem_cons.mp hmem
      · exact le_refl _
      · exact (List.pairwise_cons.mp hpair).1 h hmem

end OpLog

end SilkGraph
