import SilkGraph.Data.Entry

/-!
# The Bloom filter of a sync offer

`bloom.rs`. A filter that came off the wire may have any dimensions, so a lookup can divide
by zero or read past the bit array; such a panic is `none` here. `Dims` is what rules it
out: `new` establishes it and `validate` checks it.
-/

namespace SilkGraph

/-- A Bloom filter over entry hashes; `bits` are 64-bit words. -/
structure BloomFilter where
  bits : List (BitVec 64)
  numBits : ℕ
  numHashes : ℕ
  count : ℕ

/-- The `i`-th byte of a hash, the first one being the most significant. -/
def hashByte (h : Hash) (i : ℕ) : ℕ := (h.toNat >>> (8 * (31 - i))) % 256

/-- `u64::from_le_bytes` of the eight bytes of a hash from `start` on. -/
def hashWord (h : Hash) (start : ℕ) : ℕ :=
  ((List.range 8).map fun i => hashByte h (start + i) * 256 ^ i).sum

namespace BloomFilter

/-- Dimensions that a lookup can work with. -/
def Dims (self : BloomFilter) : Prop :=
  0 < self.numBits ∧ self.numBits ≤ self.bits.length * 64

/-- Validate filter dimensions after deserialization. -/
def validate (self : BloomFilter) : Except String Unit :=
  if self.numBits = 0 then .error "bloom filter num_bits must be > 0"
  else if self.bits.length * 64 < self.numBits then
    .error s!"bloom filter bits array too small: {self.bits.length} words for {self.numBits} bits"
  else if self.numHashes = 0 ∨ 32 < self.numHashes then
    .error s!"bloom filter num_hashes {self.numHashes} out of range [1, 32]"
  else .ok ()

/-- An empty filter sized for so many items at the false-positive rate the offers use. -/
def new [Crates] (expectedItems : ℕ) : BloomFilter :=
  let numBits := max (Crates.bloomBits expectedItems) 64
  { bits := List.replicate ((numBits + 63) / 64) 0
    numBits
    numHashes := max (Crates.bloomHashes numBits expectedItems) 1
    count := 0 }

/-- The bit indices of a hash, by enhanced double hashing on `u64`s that wrap. Taking a
remainder by zero panics. -/
def indices (self : BloomFilter) (hash : Hash) : Option (List ℕ) :=
  (List.range self.numHashes).mapM fun i =>
    if self.numBits = 0 then none
    else some ((hashWord hash 0 + i * hashWord hash 8 + i * i) % 2 ^ 64 % self.numBits)

/-- Set the bits of the given indices. -/
def setBits (bits : List (BitVec 64)) : List ℕ → Option (List (BitVec 64))
  | [] => some bits
  | idx :: rest =>
    match bits[idx / 64]? with
    | none => none
    | some word => setBits (bits.set (idx / 64) (word ||| (1#64 <<< (idx % 64)))) rest

/-- Insert a hash into the filter. -/
def insert (self : BloomFilter) (hash : Hash) : Option BloomFilter := do
  let bits ← setBits self.bits (← self.indices hash)
  pure { self with bits, count := self.count + 1 }

/-- Whether all given bits are set; the first clear one decides. -/
def testBits (bits : List (BitVec 64)) : List ℕ → Option Bool
  | [] => some true
  | idx :: rest =>
    match bits[idx / 64]? with
    | none => none
    | some word => if word.getLsbD (idx % 64) then testBits bits rest else some false

/-- Check if a hash might be in the filter. -/
def contains (self : BloomFilter) (hash : Hash) : Option Bool := do
  testBits self.bits (← self.indices hash)

/-! ### Lookups do not panic -/

variable {self : BloomFilter}

theorem Dims.of_validate (h : self.validate = .ok ()) : self.Dims := by
  unfold validate at h
  split at h
  · cases h
  · split at h
    · cases h
    · exact ⟨by omega, by omega⟩

theorem Dims.new [Crates] (expectedItems : ℕ) : (new expectedItems).Dims := by
  refine ⟨?_, ?_⟩
  · simp only [BloomFilter.new]
    omega
  · simp only [BloomFilter.new, List.length_replicate]
    omega

/-- The indices of a hash exist and are below the number of bits. -/
theorem Dims.indices (h : self.Dims) (hash : Hash) :
    ∃ is, self.indices hash = some is ∧ ∀ i ∈ is, i < self.numBits := by
  have hne : self.numBits ≠ 0 := Nat.pos_iff_ne_zero.mp h.1
  refine ⟨(List.range self.numHashes).map fun i =>
    (hashWord hash 0 + i * hashWord hash 8 + i * i) % 2 ^ 64 % self.numBits, ?_, ?_⟩
  · rw [BloomFilter.indices]
    simp only [if_neg hne]
    exact List.mapM_pure
  · intro i hi
    obtain ⟨j, -, rfl⟩ := List.mem_map.mp hi
    exact Nat.mod_lt _ h.1

/-- A lookup in a filter with sound dimensions answers. -/
theorem Dims.contains (h : self.Dims) (hash : Hash) : ∃ b, self.contains hash = some b := by
  obtain ⟨is, his, hlt⟩ := h.indices hash
  rw [BloomFilter.contains, his]
  clear his
  change ∃ b, testBits self.bits is = some b
  induction is with
  | nil => exact ⟨true, rfl⟩
  | cons i is ih =>
    have hi : i / 64 < self.bits.length := by
      have h1 := h.2
      have h2 := hlt i List.mem_cons_self
      omega
    rw [testBits, List.getElem?_eq_getElem hi]
    dsimp only
    split
    · exact ih fun j hj => hlt j (List.mem_cons_of_mem _ hj)
    · exact ⟨false, rfl⟩

theorem length_setBits {bits bits' : List (BitVec 64)} {is : List ℕ}
    (h : setBits bits is = some bits') : bits'.length = bits.length := by
  induction is generalizing bits with
  | nil => simp only [setBits, Option.some.injEq] at h; rw [h]
  | cons i is ih =>
    rw [setBits] at h
    split at h
    · cases h
    · rw [ih h, List.length_set]

/-- Inserting works in a filter with sound dimensions and keeps them. -/
theorem Dims.insert (h : self.Dims) (hash : Hash) :
    ∃ f, self.insert hash = some f ∧ f.Dims := by
  obtain ⟨is, his, hlt⟩ := h.indices hash
  have hset : ∃ bits', setBits self.bits is = some bits' := by
    clear his
    have hb := h.2
    generalize self.bits = bits at hb
    induction is generalizing bits with
    | nil => exact ⟨bits, rfl⟩
    | cons i is ih =>
      have hi : i / 64 < bits.length := by
        have := hlt i List.mem_cons_self
        omega
      rw [setBits, List.getElem?_eq_getElem hi]
      exact ih (fun j hj => hlt j (List.mem_cons_of_mem _ hj)) _ (by rwa [List.length_set])
  obtain ⟨bits', hbits'⟩ := hset
  refine ⟨{ self with bits := bits', count := self.count + 1 }, ?_, h.1, ?_⟩
  · simp [BloomFilter.insert, his, hbits']
  · rw [length_setBits hbits']
    exact h.2

end BloomFilter

end SilkGraph
