import Mathlib.Data.List.Perm.Basic
import Mathlib.Data.List.Dedup
import SilkGraph.Sync.Delivery

/-!
# The order of a batch does not matter

`merge_entries` goes over its batch in passes, each retrying what missed a parent. Where the
log and the batch together hold every parent, and no entry is above itself, some remaining
entry has its parents in place in each pass, so the loop ends with nothing left. What it
inserted is decided by the batch as a set of hashes, and a log's heads, children and counter
by its entries (`RepInv.ext`); so every order of the batch leaves the same log.
-/

namespace SilkGraph

open OpLog

section

variable [Crates] {L A B : OpLog} {es es' new rem : List Entry} {h : Hash}

/-! ### A log is decided by its entries -/

/-- Two logs with the same entries are the same. -/
theorem OpLog.RepInv.ext (hA : A.RepInv) (hB : B.RepInv)
    (same : ∀ h : Hash, A.entries[h]? = B.entries[h]?) : A = B := by
  have hentries : A.entries = B.entries := Std.ExtTreeMap.ext_getElem? fun h => same h
  have hheads : A.heads = B.heads := by
    ext h
    rw [hA.heads, hB.heads, hentries]
  have hrow : ∀ p, A.childrenOf p = B.childrenOf p := fun p => by
    ext h
    rw [hA.children, hB.children, hentries]
  have hchildren : A.children = B.children := by
    refine Std.ExtTreeMap.ext_getElem? fun p => ?_
    -- a row is stored exactly if it is not empty
    have hget : ∀ {X : OpLog}, X.RepInv →
        X.children[p]? = if X.childrenOf p = ∅ then none else some (X.childrenOf p) := by
      intro X hX
      cases hp : X.children[p]? with
      | none => simp [childrenOf, hp]
      | some s => simp [childrenOf, hp, hX.rows p s hp]
    rw [hget hA, hget hB, hrow]
  exact OpLog.ext hentries hheads hchildren (by rw [hA.len, hB.len, hentries])

/-! ### The log and the batch together -/

/-- The parents of a hash, as the log and the batch name them. -/
def OpLog.linksWith (self : OpLog) (batch : List Entry) (h : Hash) : List Hash :=
  self.nextOf h ++ (batch.filter fun e => e.hash = h).flatMap Entry.next

/-- How many hashes of the batch the log does not hold. -/
def OpLog.newIn (self : OpLog) (batch : List Entry) : ℕ :=
  ((hashesOf batch).dedup.filter fun h => !self.entries.contains h).length

omit [Crates] in
theorem mem_linksWith {p : Hash} :
    p ∈ L.linksWith es h ↔ p ∈ L.nextOf h ∨ ∃ e ∈ es, e.hash = h ∧ p ∈ e.next := by
  simp only [linksWith, List.mem_append, List.mem_flatMap, List.mem_filter, decide_eq_true_eq, and_assoc]

/-- A log is closed under parents, so a batch has to be closed over it. -/
theorem parentClosed_linksWith (hL : L.RepInv)
    (hes : ∀ e ∈ es, ∀ p ∈ e.next, p ∈ L.entries ∨ p ∈ hashesOf es) :
    Dag.ParentClosed (L.linksWith es) fun h => h ∈ L.entries ∨ h ∈ hashesOf es := by
  intro h _ p hp
  obtain hp | ⟨e, he, -, hp⟩ := mem_linksWith.mp hp
  · obtain ⟨e, he, hpe⟩ := mem_nextOf.mp hp
    exact .inl (hL.parents h e he p hpe)
  · exact hes e he p hp

/-- In a closed acyclic batch every entry can be brought in: by induction on its rank. -/
theorem resolvable_of_acyclic (valid : ∀ e ∈ es, e.verifyHash)
    (closed : Dag.ParentClosed (L.linksWith es) fun h => h ∈ L.entries ∨ h ∈ hashesOf es)
    (acyclic : Dag.Acyclic (L.linksWith es)) : ∀ e ∈ es, Resolvable L es e.hash := by
  obtain ⟨rank, hrank⟩ := acyclic
  intro e he
  induction hn : rank e.hash using Nat.strong_induction_on generalizing e with
  | _ n ih =>
    refine .entry he (valid e he) fun p hp => ?_
    have hlink : p ∈ L.linksWith es e.hash := mem_linksWith.mpr (.inr ⟨e, he, rfl, hp⟩)
    obtain hL | hes := closed e.hash (.inr (List.mem_map_of_mem he)) p hlink
    · exact .held hL
    · obtain ⟨b, hb, rfl⟩ := List.mem_map.mp hes
      exact ih _ (hn ▸ hrank _ _ hlink) b hb rfl

/-! ### What remains -/

/-- What is in `remaining` when the retry loop stops. -/
def mergeLeft : ℕ → OpLog → List Entry → List Entry
  | 0, _, remaining => remaining
  | _ + 1, _, [] => []
  | maxPasses + 1, oplog, remaining =>
    match mergePass oplog remaining with
    | (.error _, _) => remaining
    | (.ok (_, retry), oplog) =>
      if retry.length = remaining.length then remaining else mergeLeft maxPasses oplog retry

/-- A pass hands back no more than it was given. -/
theorem mergePass_length (L : OpLog) (rem : List Entry) : ∀ new retry,
    (mergePass L rem).1 = .ok (new, retry) → retry.length ≤ rem.length := by
  induction rem generalizing L with
  | nil =>
    intro new retry h
    cases h
    exact Nat.zero_le _
  | cons a rem ih =>
    have ih₂ := ih (L.append a).2
    rw [mergePass]
    generalize L.append a = r at ih₂
    obtain ⟨r, L₁⟩ := r
    intro new retry h
    rw [List.length_cons]
    rcases r with (_ | p) | (_ | _)
    · cases h
    · obtain ⟨⟨new', retry'⟩, hrun, heq⟩ := except_map_eq_ok h
      obtain ⟨rfl, rfl⟩ := Prod.mk.inj heq
      have := ih₂ new' retry' hrun
      rw [List.length_cons]
      omega
    · have := ih₂ new retry h
      omega
    · obtain ⟨⟨new', retry'⟩, hrun, heq⟩ := except_map_eq_ok h
      obtain ⟨rfl, rfl⟩ := Prod.mk.inj heq
      have := ih₂ new' retry' hrun
      omega

/-- A loop with more passes than entries that ends well leaves nothing: the passes do not run
out, since each but the last takes an entry off. -/
theorem mergeLeft_of_ok (fuel : ℕ) (L : OpLog) (rem inserted : List Entry)
    (hfuel : rem.length < fuel) (hok : (mergeLoop fuel L rem inserted).1 = .ok new) :
    mergeLeft fuel L rem = [] := by
  induction fuel generalizing L rem inserted with
  | zero => exact absurd hfuel (Nat.not_lt_zero _)
  | succ fuel ih =>
    cases rem with
    | nil => rw [mergeLeft]
    | cons a rem =>
      have hlen := mergePass_length L (a :: rem)
      rw [mergeLoop] at hok
      · rw [mergeLeft]
        · generalize mergePass L (a :: rem) = r at hok hlen
          obtain ⟨r, L₁⟩ := r
          rcases r with err | ⟨new₁, retry⟩
          · cases hok
          · dsimp only at hok ⊢
            by_cases hstuck : retry.length = (a :: rem).length
            · rw [if_pos hstuck] at hok
              cases hok
            · rw [if_neg hstuck] at hok ⊢
              have := hlen new₁ retry rfl
              exact ih L₁ retry _ (by omega) hok
        · simp
      · simp

/-! ### Every order of the batch -/

/-- No batch without checkpoints replaces the log. -/
theorem NoReplace.of_plain (plain : ∀ e ∈ es, e.payload.isCheckpoint = false) : NoReplace L es := by
  intro e he _ hroot
  rw [Entry.isRootCheckpoint, plain e he, Bool.and_false] at hroot
  cases hroot

/-- What is held after a batch that went through: what was held, or else the entry of the
batch. -/
theorem getElem?_mergeBatch (hne : L.entries ≠ ∅) (hn : NoReplace L es)
    (unique : ∀ a ∈ es, ∀ b ∈ es, a.hash = b.hash → a = b) (hok : (mergeBatch L es).1 = .ok new)
    {e : Entry} :
    (mergeBatch L es).2.entries[h]? = some e ↔
      L.entries[h]? = some e ∨ h ∉ L.entries ∧ e ∈ es ∧ e.hash = h := by
  obtain ⟨hi, hsub, hall⟩ := mergeBatch_ok hne hn hok
  constructor
  · intro he
    obtain hL | ⟨hnew, rfl⟩ := hi.source he
    · exact .inl hL
    · exact .inr ⟨hi.fresh.1 e hnew, hsub hnew, rfl⟩
  · rintro (hL | ⟨hL, he, rfl⟩)
    · exact hi.grows hL
    · obtain ⟨b, hb⟩ := HashMap.mem_iff_getElem?.mp (hall e he).2
      obtain hb' | ⟨hnew, hbe⟩ := hi.source hb
      · exact absurd (HashMap.mem_iff_getElem?.mpr ⟨b, hb'⟩) hL
      · rw [hb, unique b (hsub hnew) e he hbe]

/-- A batch that goes through counts its hashes that are new. -/
theorem length_of_mergeBatch (hne : L.entries ≠ ∅) (hn : NoReplace L es)
    (hok : (mergeBatch L es).1 = .ok new) : new.length = L.newIn es := by
  obtain ⟨hi, hsub, hall⟩ := mergeBatch_ok hne hn hok
  obtain ⟨hfresh, hnd⟩ := hi.fresh
  have hperm : (hashesOf new).Perm ((hashesOf es).dedup.filter fun h => !L.entries.contains h) := by
    refine (List.perm_ext_iff_of_nodup hnd ((List.nodup_dedup _).filter _)).mpr fun h => ?_
    simp only [List.mem_filter, List.mem_dedup, Bool.not_eq_true', Bool.eq_false_iff, ne_eq,
      Std.ExtTreeMap.contains_iff_mem]
    constructor
    · intro hh
      obtain ⟨e, he, rfl⟩ := List.mem_map.mp hh
      exact ⟨List.mem_map_of_mem (hsub he), hfresh e he⟩
    · rintro ⟨hh, hL⟩
      obtain ⟨e, he, rfl⟩ := List.mem_map.mp hh
      exact (hi.mem_iff.mp (hall e he).2).resolve_left hL
  rw [← List.length_map, newIn]
  exact hperm.length_eq

/-- **The order of a batch does not matter.** A batch of valid entries, no two different ones
with one hash, that with the log is closed under parents and acyclic: merged in any order it
reports its hashes that are new, leaves one and the same log, and nothing remains. -/
theorem merge_entries_order_free {g : Entry} (hg : g.verifyHash) (hroot : g.next = [])
    (es batch : List Entry) (valid : ∀ e ∈ batch, e.verifyHash)
    (plain : ∀ e ∈ batch, e.payload.isCheckpoint = false)
    (unique : ∀ a ∈ batch, ∀ b ∈ batch, a.hash = b.hash → a = b)
    (closed : Dag.ParentClosed (((OpLog.new g).appendAll es).linksWith batch) fun h =>
      h ∈ ((OpLog.new g).appendAll es).entries ∨ h ∈ hashesOf batch)
    (acyclic : Dag.Acyclic (((OpLog.new g).appendAll es).linksWith batch)) :
    let L := (OpLog.new g).appendAll es
    ∃ L', ∀ batch', batch'.Perm batch →
      mergeEntries L batch' = (.ok (L.newIn batch), L') ∧ mergeLeft (batch'.length + 1) L batch' = [] := by
  intro L
  have hL : L.WellFormed := (WellFormed.new hg hroot).appendAll es
  have hres := resolvable_of_acyclic valid closed acyclic
  -- every order goes through
  have hrun : ∀ b, b.Perm batch → ∃ new, (mergeBatch L b).1 = .ok new := fun b hb => by
    have hn : NoReplace L b := .of_plain fun e he => plain e (hb.subset he)
    refine (mergeBatch_ok_iff hL.nonempty hn).mpr fun e he => ⟨valid e (hb.subset he), ?_⟩
    exact (hres e (hb.subset he)).mono hb.symm.subset
  refine ⟨(mergeBatch L batch).2, fun b hb => ?_⟩
  obtain ⟨new, hok⟩ := hrun b hb
  obtain ⟨new₀, hok₀⟩ := hrun batch (.refl _)
  have hn : NoReplace L b := .of_plain fun e he => plain e (hb.subset he)
  have hn₀ : NoReplace L batch := .of_plain plain
  have hunique : ∀ x ∈ b, ∀ y ∈ b, x.hash = y.hash → x = y := fun x hx y hy =>
    unique x (hb.subset hx) y (hb.subset hy)
  have hi := (mergeBatch_ok hL.nonempty hn hok).1
  have hi₀ := (mergeBatch_ok hL.nonempty hn₀ hok₀).1
  have hsame : (mergeBatch L b).2 = (mergeBatch L batch).2 := by
    refine (hi.wellFormed hL).rep.ext (hi₀.wellFormed hL).rep fun h => Option.ext fun e => ?_
    rw [getElem?_mergeBatch hL.nonempty hn hunique hok,
      getElem?_mergeBatch hL.nonempty hn₀ unique hok₀, hb.mem_iff]
  have hcount : L.newIn b = L.newIn batch :=
    (((hb.map Entry.hash).dedup).filter _).length_eq
  refine ⟨?_, mergeLeft_of_ok _ L b [] (Nat.lt_succ_self _) hok⟩
  rw [mergeEntries_of_ok hok, hsame, length_of_mergeBatch hL.nonempty hn hok, hcount]

end

open Sample in
/-- A fork and a merge above it, the merge first and one branch twice. -/
theorem merge_entries_order_free_fork :
    let g := Entry.new (.removeNode "a") [] [] ⟨"ann", 1, 0⟩ "ann"
    let l := Entry.new (.removeNode "l") [g.hash] [] ⟨"ann", 2, 0⟩ "ann"
    let r := Entry.new (.removeNode "r") [g.hash] [] ⟨"ann", 3, 0⟩ "ann"
    let m := Entry.new (.removeNode "m") [l.hash, r.hash] [] ⟨"ann", 4, 0⟩ "ann"
    ∃ L', ∀ batch', batch'.Perm [m, l, r, l] →
      mergeEntries (OpLog.new g) batch' = (.ok 3, L') ∧
        mergeLeft (batch'.length + 1) (OpLog.new g) batch' = [] := by
  intro g l r m
  have hg : (OpLog.new g).RepInv := .new (Entry.verifyHash_new ..) rfl
  -- the digest of these crates grows with the clock
  have hrank : ([m, l, r, l].all fun e => e.next.all fun p => p.toNat < e.hash.toNat) = true := by
    decide +kernel
  have hheld : ([m, l, r, l].all fun e => e.next.all fun p =>
      (OpLog.new g).entries.contains p || (hashesOf [m, l, r, l]).contains p) = true := by
    decide +kernel
  have hacyclic : Dag.Acyclic ((OpLog.new g).linksWith [m, l, r, l]) := by
    refine ⟨BitVec.toNat, fun h p hp => ?_⟩
    obtain hlog | ⟨e, he, rfl, hbatch⟩ := mem_linksWith.mp hp
    · obtain ⟨e, he, hpe⟩ := mem_nextOf.mp hlog
      rw [getElem?_new] at he
      split at he
      · obtain rfl := Option.some.inj he
        exact absurd hpe List.not_mem_nil
      · cases he
    · simpa using List.all_eq_true.mp (List.all_eq_true.mp hrank e he) p hbatch
  have hclosed : ∀ e ∈ [m, l, r, l], ∀ p ∈ e.next,
      p ∈ (OpLog.new g).entries ∨ p ∈ hashesOf [m, l, r, l] := fun e he p hp => by
    have hin := List.all_eq_true.mp (List.all_eq_true.mp hheld e he) p hp
    rwa [Bool.or_eq_true, Std.ExtTreeMap.contains_iff_mem, List.contains_iff_mem] at hin
  have hinj : ([m, l, r].map Entry.hash).Nodup := by decide +kernel
  have hmem : ∀ e, e ∈ [m, l, r, l] → e ∈ [m, l, r] := by simp
  have hnew : (OpLog.new g).newIn [m, l, r, l] = 3 := by decide +kernel
  rw [← hnew]
  exact merge_entries_order_free (Entry.verifyHash_new ..) rfl [] [m, l, r, l]
    (by simp [l, r, m]) (by simp [l, r, m, Entry.new, GraphOp.isCheckpoint])
    (fun a ha b hb heq => List.inj_on_of_nodup_map hinj (hmem a ha) (hmem b hb) heq)
    (parentClosed_linksWith hg hclosed) hacyclic

open Sample in
/-- The hash does not cover the signature. Two entries that differ in nothing else count as
one, and the order of the batch decides which of them the log holds. -/
theorem merge_entries_keeps_first_signature :
    let g := Entry.new (.removeNode "a") [] [] ⟨"ann", 1, 0⟩ "ann"
    let e := Entry.new (.removeNode "b") [g.hash] [] ⟨"ann", 2, 0⟩ "ann"
    let e' := { e with signature := some (Crates.sign [7] e.hash) }
    e ≠ e' ∧ e.verifyHash ∧ e'.verifyHash ∧
    (mergeEntries (OpLog.new g) [e, e']).1 = .ok 1 ∧ (mergeEntries (OpLog.new g) [e', e]).1 = .ok 1 ∧
    (mergeEntries (OpLog.new g) [e, e']).2.entries[e.hash]?.map Entry.signature ≠
      (mergeEntries (OpLog.new g) [e', e]).2.entries[e.hash]?.map Entry.signature := by
  intro g e e'
  refine ⟨fun h => ?_, by simp [e], by decide +kernel, by decide +kernel, by decide +kernel,
    by decide +kernel⟩
  exact absurd (congrArg Entry.signature h) (by decide +kernel)

end SilkGraph
