import SilkGraph.Sync.BloomRuns

/-!
# A filter is a matter of what was inserted

The bits of a filter that `new` made are the indices of the hashes that were inserted into it or
into one merged into it, and no others (`Made.isSet_iff`). So it finds just what those indices
cover, and neither the order of the inserts, nor repetitions, nor how the filter was put together
from others make any difference (`made_congr`).
-/

namespace SilkGraph

namespace BloomFilter

/-- A filter of the given size with the hashes that were inserted into it or into one merged into
it, and nothing else. -/
inductive Made (numBits numHashes : ℕ) : BloomFilter → List Hash → Prop
  | sized : Made numBits numHashes (sized numBits numHashes) []
  | insert {f f' : BloomFilter} {hashes : List Hash} {hash : Hash} (h : Made numBits numHashes f hashes)
      (hins : f.insert hash = some f') : Made numBits numHashes f' (hash :: hashes)
  | merge {f g f' : BloomFilter} {hashes others : List Hash} (h : Made numBits numHashes f hashes)
      (hg : Made numBits numHashes g others) (hmerge : f.merge g = some f') :
      Made numBits numHashes f' (hashes ++ others)

/-! ### Bits -/

/-- The bit of one index is set, and no other. -/
theorem isSet_set_iff {bits : List (BitVec 64)} {idx i : ℕ} {word : BitVec 64}
    (hi : bits[i / 64]? = some word) :
    IsSet (bits.set (i / 64) (word ||| (1#64 <<< (i % 64)))) idx ↔ idx = i ∨ IsSet bits idx := by
  constructor
  · rintro ⟨w, hw, hb⟩
    obtain heq | hne := eq_or_ne (i / 64) (idx / 64)
    · rw [← heq, List.getElem?_set_self (List.getElem?_eq_some_iff.mp hi).1] at hw
      obtain rfl := Option.some.inj hw
      rw [BitVec.getLsbD_or, Bool.or_eq_true] at hb
      obtain hb | hb := hb
      · exact .inr ⟨word, heq ▸ hi, hb⟩
      · refine .inl ?_
        have hlt : idx % 64 < 64 := Nat.mod_lt _ (by decide)
        have hlt' : i % 64 < 64 := Nat.mod_lt _ (by decide)
        have hmod : idx % 64 = i % 64 := by
          simp only [BitVec.getLsbD_shiftLeft, BitVec.getLsbD_one, Bool.and_eq_true, decide_eq_true_eq,
            Bool.not_eq_true', decide_eq_false_iff_not] at hb
          omega
        rw [← Nat.div_add_mod idx 64, ← Nat.div_add_mod i 64, heq, hmod]
    · rw [List.getElem?_set_ne hne] at hw
      exact .inr ⟨w, hw, hb⟩
  · rintro (rfl | h)
    · exact isSet_set hi
    · exact h.set hi

theorem isSet_setBits_iff {bits bits' : List (BitVec 64)} {is : List ℕ} {idx : ℕ}
    (hset : setBits bits is = some bits') : IsSet bits' idx ↔ idx ∈ is ∨ IsSet bits idx := by
  induction is generalizing bits with
  | nil =>
    obtain rfl : bits = bits' := Option.some.inj hset
    simp
  | cons i is ih =>
    rw [setBits] at hset
    split at hset
    · cases hset
    · rename_i word hword
      rw [ih hset, isSet_set_iff hword, List.mem_cons, or_left_comm, or_assoc]

theorem isSet_orWords_iff {as bs : List (BitVec 64)} (hlen : bs.length = as.length) {idx : ℕ} :
    IsSet (orWords as bs) idx ↔ IsSet as idx ∨ IsSet bs idx := by
  have hword : ∀ (as bs : List (BitVec 64)) (j : ℕ), bs.length = as.length →
      (orWords as bs)[j]? = (as[j]?.bind fun a => bs[j]?.map fun b => a ||| b) := by
    intro as bs
    induction as generalizing bs with
    | nil =>
      intro j hlen
      obtain rfl := List.length_eq_zero_iff.mp hlen
      rfl
    | cons a as ih =>
      intro j hlen
      cases bs with
      | nil => cases hlen
      | cons b bs =>
        cases j with
        | zero => rfl
        | succ j => exact ih bs j (Nat.succ.inj hlen)
  constructor
  · rintro ⟨w, hw, hb⟩
    rw [hword as bs _ hlen] at hw
    obtain ⟨a, ha, hw⟩ := Option.bind_eq_some_iff.mp hw
    obtain ⟨b, hb', rfl⟩ := Option.map_eq_some_iff.mp hw
    rw [BitVec.getLsbD_or, Bool.or_eq_true] at hb
    exact hb.imp (fun hb => ⟨a, ha, hb⟩) fun hb => ⟨b, hb', hb⟩
  · rintro (h | h)
    · exact h.orWords_left bs
    · obtain ⟨w, hw, hb⟩ := h
      exact IsSet.orWords_right ⟨w, hw, hb⟩ (hlen ▸ (List.getElem?_eq_some_iff.mp hw).1)

/-- Bits that are set where others are, in as many words, are those. -/
theorem bits_ext {as bs : List (BitVec 64)} (hlen : as.length = bs.length)
    (h : ∀ idx, IsSet as idx ↔ IsSet bs idx) : as = bs := by
  refine List.ext_getElem hlen fun j hj hj' => BitVec.eq_of_getLsbD_eq fun i hi => ?_
  have hbit := h (64 * j + i)
  have hdiv : (64 * j + i) / 64 = j := by omega
  have hmod : (64 * j + i) % 64 = i := by omega
  simp only [IsSet, hdiv, hmod, List.getElem?_eq_getElem hj, List.getElem?_eq_getElem hj', Option.some_inj,
    exists_eq_left'] at hbit
  exact Bool.eq_iff_iff.mpr hbit

/-! ### Filters -/

variable {f g f' : BloomFilter} {hash : Hash} {hashes others : List Hash} {n k : ℕ}

/-- The size of a filter stays. -/
theorem Made.size (h : Made n k f hashes) : f.numBits = (BloomFilter.sized n k).numBits ∧
    f.numHashes = (BloomFilter.sized n k).numHashes ∧
    f.bits.length = (BloomFilter.sized n k).bits.length := by
  induction h with
  | sized => exact ⟨rfl, rfl, rfl⟩
  | insert _ hins ih =>
    obtain ⟨is, -, hset, hbits, hnum⟩ := insert_spec hins
    exact ⟨hbits.trans ih.1, hnum.trans ih.2.1, (length_setBits hset).trans ih.2.2⟩
  | merge _ _ hmerge ih _ =>
    obtain ⟨-, -, hor, hbits, hnum⟩ := merge_spec hmerge
    exact ⟨hbits.trans ih.1, hnum.trans ih.2.1, by rw [hor, length_orWords, ih.2.2]⟩

/-- The indices of a hash in filters of the given size. -/
def indexSet (n k : ℕ) (hash : Hash) : List ℕ := ((sized n k).indices hash).getD []

theorem Made.indices (h : Made n k f hashes) (hash : Hash) : f.indices hash = some (indexSet n k hash) := by
  obtain ⟨is, his, -⟩ := (Dims.sized n k).indices hash
  rw [indices_congr h.size.1 h.size.2.1, indexSet, his, Option.getD_some]

/-- **The bits that are set** are the indices of what was inserted. -/
theorem Made.isSet_iff (h : Made n k f hashes) {idx : ℕ} :
    IsSet f.bits idx ↔ ∃ x ∈ hashes, idx ∈ indexSet n k x := by
  induction h with
  | sized =>
    constructor
    · rintro ⟨w, hw, hb⟩
      obtain rfl := (List.eq_of_mem_replicate (List.mem_of_getElem? hw))
      simp at hb
    · rintro ⟨x, hx, -⟩
      cases hx
  | insert h hins ih =>
    obtain ⟨is, his, hset, -, -⟩ := insert_spec hins
    rw [h.indices, Option.some_inj] at his
    rw [isSet_setBits_iff hset, ih, ← his, List.exists_mem_cons_iff]
  | merge h hg hmerge ih ihg =>
    obtain ⟨-, -, hor, -, -⟩ := merge_spec hmerge
    rw [hor, isSet_orWords_iff (hg.size.2.2.trans h.size.2.2.symm), ih, ihg]
    simp only [List.mem_append, or_and_right, exists_or]

theorem Made.contains_iff (h : Made n k f hashes) : f.contains hash = some true ↔
    ∀ idx ∈ indexSet n k hash, ∃ x ∈ hashes, idx ∈ indexSet n k x := by
  rw [contains_eq_true_iff]
  simp only [h.indices, Option.some_inj, exists_eq_left', h.isSet_iff]

/-- **A filter is a matter of what was inserted.** Two filters of the same size into which the same
hashes went, in whatever order, however often and through whatever merges, have the same bits and
answer alike; and a hash is found exactly when each of its indices is one of a hash that went in. -/
theorem made_congr (h : Made n k f hashes) (hg : Made n k g others) (hsame : ∀ x, x ∈ hashes ↔ x ∈ others) :
    f.bits = g.bits ∧ ∀ hash, ∃ found, f.contains hash = some found ∧ g.contains hash = some found ∧
      (found = true ↔ ∀ idx ∈ indexSet n k hash, ∃ x ∈ hashes, idx ∈ indexSet n k x) := by
  have hbits : f.bits = g.bits := bits_ext (h.size.2.2.trans hg.size.2.2.symm) fun idx => by
    rw [h.isSet_iff, hg.isSet_iff]
    simp only [hsame]
  refine ⟨hbits, fun hash => ?_⟩
  have hdims : f.Dims := by
    have hsized := Dims.sized n k
    exact ⟨h.size.1 ▸ hsized.1, h.size.1 ▸ h.size.2.2 ▸ hsized.2⟩
  obtain ⟨found, hfound⟩ := hdims.contains hash
  have heq : g.contains hash = f.contains hash := by
    rw [contains, contains, h.indices, hg.indices, hbits]
  refine ⟨found, hfound, heq.trans hfound, ?_⟩
  rw [← h.contains_iff, hfound, Option.some_inj]

open Sample in
/-- Two hashes put in one after the other, and the second merged with the first one twice over. -/
theorem made_congr_sample : ∃ found, (⟨[7#64], 64, 2, 2⟩ : BloomFilter).contains 9#256 = some found ∧
    (⟨[7#64], 64, 2, 3⟩ : BloomFilter).contains 9#256 = some found := by
  have hown : Made 64 2 ownFilter [1#256 <<< 248] := Made.sized.insert (by decide +kernel)
  have htwice : Made 64 2 ⟨[6#64], 64, 2, 2⟩ [1#256 <<< 248, 1#256 <<< 248] := hown.insert (by decide +kernel)
  have hother : Made 64 2 ⟨[3#64], 64, 2, 1⟩ [5#256] := Made.sized.insert (by decide +kernel)
  have hone : Made 64 2 ⟨[7#64], 64, 2, 2⟩ [5#256, 1#256 <<< 248] := hown.insert (by decide +kernel)
  have hmerged : Made 64 2 ⟨[7#64], 64, 2, 3⟩ ([5#256] ++ [1#256 <<< 248, 1#256 <<< 248]) :=
    hother.merge htwice (by decide +kernel)
  obtain ⟨found, hf, hg, -⟩ := (made_congr hone hmerged (by simp)).2 9#256
  exact ⟨found, hf, hg⟩

end BloomFilter

end SilkGraph
