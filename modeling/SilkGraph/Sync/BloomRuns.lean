import SilkGraph.Sync.Bloom

/-!
# No false negatives

A filter over any course of inserts and merges, from one that `new` made or `validate` let
through. `Built` is such a filter with the hashes that went into it, or into a filter that was
merged into it; a filter that nothing is known of, except that its dimensions are equal, may be
merged as well. `Built.no_false_negatives` says that no call panics and that every one of those
hashes is found.
-/

namespace SilkGraph

deriving instance DecidableEq for BloomFilter

namespace BloomFilter

/-! ### Merging -/

/-- `*a |= *b` over both bit arrays; the longer one keeps its other words. -/
def orWords : List (BitVec 64) → List (BitVec 64) → List (BitVec 64)
  | a :: as, b :: bs => (a ||| b) :: orWords as bs
  | as, [] => as
  | [], _ => []

/-- Merge another filter into this one. Unequal dimensions panic. -/
def merge (self other : BloomFilter) : Option BloomFilter :=
  if self.numBits ≠ other.numBits then none
  else if self.numHashes ≠ other.numHashes then none
  else some { self with
    bits := orWords self.bits other.bits, count := self.count + other.count }

/-- What `new` makes of the number of bits and of hash functions that it has computed from the
expected items and the false-positive rate. -/
def sized (numBits numHashes : ℕ) : BloomFilter :=
  let numBits := max numBits 64
  { bits := List.replicate ((numBits + 63) / 64) 0
    numBits
    numHashes := max numHashes 1
    count := 0 }

theorem new_eq_sized [Crates] (expectedItems : ℕ) :
    new expectedItems = sized (Crates.bloomBits expectedItems)
      (Crates.bloomHashes (max (Crates.bloomBits expectedItems) 64) expectedItems) :=
  rfl

theorem Dims.sized (numBits numHashes : ℕ) : (sized numBits numHashes).Dims := by
  refine ⟨?_, ?_⟩
  · simp only [BloomFilter.sized]
    omega
  · simp only [BloomFilter.sized, List.length_replicate]
    omega

/-- A filter with the hashes that were inserted into it or into one merged into it. -/
inductive Built : BloomFilter → List Hash → Prop
  | sized (numBits numHashes : ℕ) : Built (sized numBits numHashes) []
  | validated {f : BloomFilter} (h : f.validate = .ok ()) : Built f []
  | insert {f f' : BloomFilter} {hashes : List Hash} {hash : Hash} (h : Built f hashes)
      (hins : f.insert hash = some f') : Built f' (hash :: hashes)
  | merge {f g f' : BloomFilter} {hashes others : List Hash} (h : Built f hashes)
      (hg : Built g others) (hmerge : f.merge g = some f') : Built f' (hashes ++ others)
  | mergeUnknown {f g f' : BloomFilter} {hashes : List Hash} (h : Built f hashes)
      (hmerge : f.merge g = some f') : Built f' hashes

/-- The filter of an offer, before the entries are put into it. -/
theorem Built.new [Crates] (expectedItems : ℕ) : Built (new expectedItems) [] :=
  .sized _ _

/-! ### Bits that are set -/

/-- The bit of an index is there and set. -/
def IsSet (bits : List (BitVec 64)) (idx : ℕ) : Prop :=
  ∃ word, bits[idx / 64]? = some word ∧ word.getLsbD (idx % 64) = true

theorem testBits_eq_true_iff {bits : List (BitVec 64)} {is : List ℕ} :
    testBits bits is = some true ↔ ∀ i ∈ is, IsSet bits i := by
  induction is with
  | nil => simp [testBits]
  | cons i is ih =>
    rw [testBits, List.forall_mem_cons, ← ih]
    cases hw : bits[i / 64]? with
    | none => simp [IsSet, hw]
    | some word => cases hb : word.getLsbD (i % 64) <;> simp [IsSet, hw, hb]

/-- Setting the bit of one index leaves those that are set. -/
theorem IsSet.set {bits : List (BitVec 64)} {idx i : ℕ} {word : BitVec 64} (h : IsSet bits idx)
    (hi : bits[i / 64]? = some word) :
    IsSet (bits.set (i / 64) (word ||| (1#64 <<< (i % 64)))) idx := by
  obtain ⟨w, hw, hb⟩ := h
  rcases eq_or_ne (i / 64) (idx / 64) with heq | hne
  · rw [← heq, hi, Option.some.injEq] at hw
    subst hw
    refine ⟨_, by rw [← heq]; exact List.getElem?_set_self (List.getElem?_eq_some_iff.mp hi).1, ?_⟩
    rw [BitVec.getLsbD_or, hb, Bool.true_or]
  · exact ⟨w, by rw [List.getElem?_set_ne hne]; exact hw, hb⟩

/-- Setting the bit of an index sets it. -/
theorem isSet_set {bits : List (BitVec 64)} {i : ℕ} {word : BitVec 64}
    (hi : bits[i / 64]? = some word) :
    IsSet (bits.set (i / 64) (word ||| (1#64 <<< (i % 64)))) i := by
  refine ⟨_, List.getElem?_set_self (List.getElem?_eq_some_iff.mp hi).1, ?_⟩
  have hlt : i % 64 < 64 := Nat.mod_lt _ (by decide)
  simp [BitVec.getLsbD_or, BitVec.getLsbD_shiftLeft, hlt]

theorem IsSet.setBits {bits bits' : List (BitVec 64)} {is : List ℕ} {idx : ℕ}
    (h : IsSet bits idx) (hset : setBits bits is = some bits') : IsSet bits' idx := by
  induction is generalizing bits with
  | nil =>
    obtain rfl : bits = bits' := Option.some.inj hset
    exact h
  | cons i is ih =>
    rw [BloomFilter.setBits] at hset
    split at hset
    · cases hset
    · rename_i word hword
      exact ih (h.set hword) hset

theorem isSet_of_setBits {bits bits' : List (BitVec 64)} {is : List ℕ}
    (hset : setBits bits is = some bits') : ∀ i ∈ is, IsSet bits' i := by
  induction is generalizing bits with
  | nil => exact fun i hi => absurd hi List.not_mem_nil
  | cons i is ih =>
    rw [setBits] at hset
    split at hset
    · cases hset
    · rename_i word hword
      exact List.forall_mem_cons.mpr ⟨(isSet_set hword).setBits hset, ih hset⟩

@[simp]
theorem length_orWords (as bs : List (BitVec 64)) : (orWords as bs).length = as.length := by
  fun_induction orWords as bs with
  | case1 a as b bs ih => rw [List.length_cons, List.length_cons, ih]
  | case2 as => rfl
  | case3 => rfl

theorem getElem?_orWords_left {as bs : List (BitVec 64)} {n : ℕ} {a : BitVec 64}
    (h : as[n]? = some a) :
    ∃ word, (orWords as bs)[n]? = some word ∧ ∀ i, a.getLsbD i = true → word.getLsbD i = true := by
  fun_induction orWords as bs generalizing n with
  | case1 a' as b bs ih =>
    cases n with
    | zero =>
      obtain rfl : a' = a := Option.some.inj h
      exact ⟨a' ||| b, rfl, fun i hi => by rw [BitVec.getLsbD_or, hi, Bool.true_or]⟩
    | succ n => exact ih h
  | case2 as => exact ⟨a, h, fun i hi => hi⟩
  | case3 => cases h

theorem getElem?_orWords_right {as bs : List (BitVec 64)} {n : ℕ} {b : BitVec 64}
    (h : bs[n]? = some b) (hn : n < as.length) :
    ∃ word, (orWords as bs)[n]? = some word ∧ ∀ i, b.getLsbD i = true → word.getLsbD i = true := by
  fun_induction orWords as bs generalizing n with
  | case1 a as b' bs ih =>
    cases n with
    | zero =>
      obtain rfl : b' = b := Option.some.inj h
      exact ⟨a ||| b', rfl, fun i hi => by rw [BitVec.getLsbD_or, hi, Bool.or_true]⟩
    | succ n => exact ih h (Nat.lt_of_succ_lt_succ hn)
  | case2 as => cases h
  | case3 => exact absurd hn (Nat.not_lt_zero n)

theorem IsSet.orWords_left {as : List (BitVec 64)} {idx : ℕ} (h : IsSet as idx)
    (bs : List (BitVec 64)) : IsSet (orWords as bs) idx := by
  obtain ⟨a, ha, hb⟩ := h
  obtain ⟨word, hword, hsub⟩ := getElem?_orWords_left ha
  exact ⟨word, hword, hsub _ hb⟩

theorem IsSet.orWords_right {as bs : List (BitVec 64)} {idx : ℕ} (h : IsSet bs idx)
    (hlt : idx / 64 < as.length) : IsSet (orWords as bs) idx := by
  obtain ⟨b, hb, hbit⟩ := h
  obtain ⟨word, hword, hsub⟩ := getElem?_orWords_right hb hlt
  exact ⟨word, hword, hsub _ hbit⟩

/-! ### What a call does -/

variable {f g f' : BloomFilter} {hash : Hash} {hashes : List Hash}

/-- The indices of a hash are a matter of the dimensions. -/
theorem indices_congr (hbits : f'.numBits = f.numBits) (hnum : f'.numHashes = f.numHashes)
    (hash : Hash) : f'.indices hash = f.indices hash := by
  rw [indices, indices, hbits, hnum]

theorem insert_spec (h : f.insert hash = some f') :
    ∃ is, f.indices hash = some is ∧ setBits f.bits is = some f'.bits ∧
      f'.numBits = f.numBits ∧ f'.numHashes = f.numHashes := by
  rw [insert] at h
  obtain ⟨is, his, h⟩ := Option.bind_eq_some_iff.mp h
  obtain ⟨bits, hset, h⟩ := Option.bind_eq_some_iff.mp h
  obtain rfl := Option.some.inj h
  exact ⟨is, his, hset, rfl, rfl⟩

theorem merge_spec (h : f.merge g = some f') :
    f.numBits = g.numBits ∧ f.numHashes = g.numHashes ∧ f'.bits = orWords f.bits g.bits ∧
      f'.numBits = f.numBits ∧ f'.numHashes = f.numHashes := by
  unfold merge at h
  split at h
  · cases h
  · rename_i hbits
    split at h
    · cases h
    · rename_i hnum
      obtain rfl := Option.some.inj h
      exact ⟨not_not.mp hbits, not_not.mp hnum, rfl, rfl, rfl⟩

theorem contains_eq_true_iff :
    f.contains hash = some true ↔ ∃ is, f.indices hash = some is ∧ ∀ i ∈ is, IsSet f.bits i := by
  rw [contains]
  refine Option.bind_eq_some_iff.trans (exists_congr fun is => and_congr_right fun _ => ?_)
  exact testBits_eq_true_iff

/-- What was inserted is found. -/
theorem contains_of_insert (h : f.insert hash = some f') : f'.contains hash = some true := by
  obtain ⟨is, his, hset, hbits, hnum⟩ := insert_spec h
  exact contains_eq_true_iff.mpr
    ⟨is, (indices_congr hbits hnum hash).trans his, isSet_of_setBits hset⟩

/-- What is found is found after an insert. -/
theorem contains_insert {other : Hash} (h : f.insert other = some f')
    (hf : f.contains hash = some true) : f'.contains hash = some true := by
  obtain ⟨is, -, hset, hbits, hnum⟩ := insert_spec h
  obtain ⟨js, hjs, hall⟩ := contains_eq_true_iff.mp hf
  exact contains_eq_true_iff.mpr
    ⟨js, (indices_congr hbits hnum hash).trans hjs, fun j hj => (hall j hj).setBits hset⟩

/-- What is found is found after a merge. -/
theorem contains_merge_left (h : f.merge g = some f') (hf : f.contains hash = some true) :
    f'.contains hash = some true := by
  obtain ⟨-, -, hor, hbits, hnum⟩ := merge_spec h
  obtain ⟨is, his, hall⟩ := contains_eq_true_iff.mp hf
  refine contains_eq_true_iff.mpr
    ⟨is, (indices_congr hbits hnum hash).trans his, fun i hi => ?_⟩
  rw [hor]
  exact (hall i hi).orWords_left g.bits

/-- What the other filter finds is found after a merge into a filter of sound dimensions. -/
theorem contains_merge_right (hf : f.Dims) (h : f.merge g = some f')
    (hg : g.contains hash = some true) : f'.contains hash = some true := by
  obtain ⟨hbits, hnum, hor, hbits', hnum'⟩ := merge_spec h
  obtain ⟨is, his, hall⟩ := contains_eq_true_iff.mp hg
  rw [← indices_congr hbits hnum] at his
  obtain ⟨js, hjs, hlt⟩ := hf.indices hash
  obtain rfl : is = js := Option.some.inj (his.symm.trans hjs)
  refine contains_eq_true_iff.mpr
    ⟨is, (indices_congr hbits' hnum' hash).trans his, fun i hi => ?_⟩
  have hword : i / 64 < f.bits.length := by
    have h1 := hlt i hi
    have h2 := hf.2
    omega
  rw [hor]
  exact (hall i hi).orWords_right hword

/-- A merge keeps the dimensions. -/
theorem Dims.merge (hf : f.Dims) (h : f.merge g = some f') : f'.Dims := by
  obtain ⟨-, -, hor, hbits, -⟩ := merge_spec h
  refine ⟨hbits ▸ hf.1, ?_⟩
  rw [hbits, hor, length_orWords]
  exact hf.2

/-! ### Over every course of calls -/

theorem Built.dims (h : Built f hashes) : f.Dims := by
  induction h with
  | sized numBits numHashes => exact .sized numBits numHashes
  | validated h => exact .of_validate h
  | @insert f f' hashes hash _ hins ih =>
    obtain ⟨f₁, hf₁, hdims⟩ := ih.insert hash
    obtain rfl : f' = f₁ := Option.some.inj (hins.symm.trans hf₁)
    exact hdims
  | merge _ _ hmerge ih _ => exact ih.merge hmerge
  | mergeUnknown _ hmerge ih => exact ih.merge hmerge

/-- No false negatives. -/
theorem Built.contains (h : Built f hashes) : ∀ hash ∈ hashes, f.contains hash = some true := by
  induction h with
  | sized => exact fun _ h => absurd h List.not_mem_nil
  | validated => exact fun _ h => absurd h List.not_mem_nil
  | insert _ hins ih =>
    exact List.forall_mem_cons.mpr
      ⟨contains_of_insert hins, fun hash hmem => contains_insert hins (ih hash hmem)⟩
  | merge h _ hmerge ih ihg =>
    intro hash hmem
    rcases List.mem_append.mp hmem with hmem | hmem
    · exact contains_merge_left hmerge (ih hash hmem)
    · exact contains_merge_right h.dims hmerge (ihg hash hmem)
  | mergeUnknown _ hmerge ih =>
    exact fun hash hmem => contains_merge_left hmerge (ih hash hmem)

/-- **No false negatives, and never out of bounds.** In every filter that comes of `new` or of
`validate` by inserts and merges, the indices of any hash lie within the bits, inserts,
lookups and merges of equal dimensions do not panic, and every hash that was inserted into it
or into a filter merged into it is found. -/
theorem Built.no_false_negatives (h : Built f hashes) :
    (∀ hash, ∃ is, f.indices hash = some is ∧ ∀ i ∈ is, i < f.numBits ∧ i / 64 < f.bits.length) ∧
      (∀ hash, ∃ f', f.insert hash = some f') ∧ (∀ hash, ∃ b, f.contains hash = some b) ∧
      (∀ g : BloomFilter, g.numBits = f.numBits → g.numHashes = f.numHashes →
        ∃ f', f.merge g = some f') ∧
      ∀ hash ∈ hashes, f.contains hash = some true := by
  refine ⟨fun hash => ?_, fun hash => ?_, h.dims.contains, fun g hbits hnum => ?_, h.contains⟩
  · obtain ⟨is, his, hlt⟩ := h.dims.indices hash
    have hsize := h.dims.2
    exact ⟨is, his, fun i hi => ⟨hlt i hi, by have := hlt i hi; omega⟩⟩
  · obtain ⟨f', hf', -⟩ := h.dims.insert hash
    exact ⟨f', hf'⟩
  · rw [BloomFilter.merge, if_neg (not_not.mpr hbits.symm), if_neg (not_not.mpr hnum.symm)]
    exact ⟨_, rfl⟩

end BloomFilter

/-! ### An example -/

namespace Sample

/-- A small filter of one's own, after one insert. -/
def ownFilter : BloomFilter := ⟨[6#64], 64, 2, 1⟩

/-- A filter that arrived with a word too many and a bit set, after one insert. -/
def theirFilter : BloomFilter := ⟨[11#64, 0#64], 64, 2, 8⟩

end Sample

namespace BloomFilter

open Sample in
theorem built_sample : Built ⟨[15#64], 64, 2, 9⟩ [1#256 <<< 248, 5#256] := by
  have hown : Built ownFilter [1#256 <<< 248] := (Built.sized 64 2).insert (by decide +kernel)
  have harrived : (⟨[8#64, 0#64], 64, 2, 7⟩ : BloomFilter).validate = .ok () := rfl
  have htheirs : Built theirFilter [5#256] :=
    (Built.validated harrived).insert (by decide +kernel)
  exact hown.merge htheirs (by decide +kernel)

/-- Both hashes are found in the merged filter. -/
theorem no_false_negatives_sample :
    let merged : BloomFilter := ⟨[15#64], 64, 2, 9⟩
    (∀ hash, ∃ is, merged.indices hash = some is ∧
        ∀ i ∈ is, i < merged.numBits ∧ i / 64 < merged.bits.length) ∧
      (∀ hash, ∃ f', merged.insert hash = some f') ∧
      (∀ hash, ∃ b, merged.contains hash = some b) ∧
      (∀ g : BloomFilter, g.numBits = merged.numBits → g.numHashes = merged.numHashes →
        ∃ f', merged.merge g = some f') ∧
      ∀ hash ∈ [1#256 <<< 248, 5#256], merged.contains hash = some true :=
  Built.no_false_negatives built_sample

end BloomFilter

end SilkGraph
