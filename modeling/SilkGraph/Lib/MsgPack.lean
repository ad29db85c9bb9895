import SilkGraph.Lib.ByteStream
import SilkGraph.Lib.Bytes

/-!
# MessagePack

The part of the MessagePack format that arrays of numbers and strings need: lengths of arrays,
unsigned integers, strings, and `nil` for an absent value. Each of the first three is a family of
markers, of which the smallest hold the number themselves and the wider ones are followed by
the number in big endian (`Markers`).
-/

namespace MsgPack

open ByteStream

variable {α : Type}

/-- Take one byte. -/
def nextByte : Decoder UInt8
  | [] => .error "unexpected end of the stream"
  | b :: rest => .ok (b, rest)

/-- Take so many bytes. -/
def takeBytes (n : ℕ) : Decoder (List UInt8) := fun stream =>
  if stream.length < n then .error "unexpected end of the stream"
  else .ok (stream.take n, stream.drop n)

theorem reads_nextByte (b : UInt8) : Reads nextByte [b] b := fun _ => rfl

theorem reads_takeBytes {n : ℕ} {bytes : List UInt8} (h : bytes.length = n) :
    Reads (takeBytes n) bytes bytes := by
  subst h
  intro rest
  rw [StateT.run, takeBytes, if_neg (by rw [List.length_append]; omega), List.take_left,
    List.drop_left]

/-! ### Families of markers -/

/-- The markers of one kind of number: `lim` of them, from `base` on, stand for the numbers
below `lim`, the others for a number of so many bytes. -/
structure Markers where
  base : ℕ
  lim : ℕ
  wide : List (UInt8 × ℕ)
  le_size : base + lim ≤ 256
  apart : ∀ w ∈ wide, ¬ (base ≤ w.1.toNat ∧ w.1.toNat < base + lim)
  nodup : (wide.map Prod.fst).Nodup

namespace Markers

variable (m : Markers)

/-- Is there a marker for the number? -/
def Fits (n : ℕ) : Prop := n < m.lim ∨ ∃ w ∈ m.wide, n < 256 ^ w.2

/-- Write a number behind the first marker that has room for it. -/
def write (n : ℕ) : List UInt8 :=
  if n < m.lim then [UInt8.ofNat (m.base + n)]
  else match m.wide.find? fun w => decide (n < 256 ^ w.2) with
    | some w => w.1 :: Bytes.toBe w.2 n
    | none => []

/-- Read a number with its marker. -/
def read : Decoder ℕ := do
  let b ← nextByte
  if m.base ≤ b.toNat ∧ b.toNat < m.base + m.lim then pure (b.toNat - m.base)
  else match m.wide.find? fun w => w.1 == b with
    | some w => do
      let bytes ← takeBytes w.2
      pure (Bytes.ofBe bytes)
    | none => throw "unexpected marker"

variable {m}

/-- A marker is found among its family. -/
theorem find?_wide {w : UInt8 × ℕ} (h : w ∈ m.wide) :
    m.wide.find? (fun v => v.1 == w.1) = some w := by
  have hnodup := m.nodup
  generalize m.wide = wide at h hnodup
  induction wide with
  | nil => cases h
  | cons v wide ih =>
    rw [List.map_cons, List.nodup_cons] at hnodup
    rcases List.mem_cons.mp h with rfl | h
    · rw [List.find?_cons_of_pos (by exact beq_self_eq_true _)]
    · have hne : (v.1 == w.1) = false := by
        rw [beq_eq_false_iff_ne]
        exact fun heq => hnodup.1 (heq ▸ List.mem_map_of_mem h)
      rw [List.find?_cons_of_neg (by rw [hne]; decide)]
      exact ih h hnodup.2

/-- A number that fits is read as it was written. -/
theorem reads_read {n : ℕ} (h : m.Fits n) : Reads m.read (m.write n) n := by
  rw [write]
  split
  · rename_i hlt
    have hle := m.le_size
    have hb : (UInt8.ofNat (m.base + n)).toNat = m.base + n := by
      rw [UInt8.toNat_ofNat']
      exact Nat.mod_eq_of_lt (by omega)
    refine Reads.bind (v := []) (reads_nextByte _) _ ?_
    rw [hb, if_pos ⟨Nat.le_add_right _ _, Nat.add_lt_add_left hlt _⟩, Nat.add_sub_cancel_left]
    exact Reads.pure n
  · rename_i hge
    have hwide : ∃ w ∈ m.wide, n < 256 ^ w.2 := h.resolve_left hge
    split
    · rename_i w hw
      have hmem : w ∈ m.wide := List.mem_of_find?_eq_some hw
      have hn : n < 256 ^ w.2 := by
        have hfound := List.find?_some hw
        exact of_decide_eq_true hfound
      refine Reads.bind (reads_nextByte w.1) _ ?_
      rw [if_neg (m.apart w hmem), find?_wide hmem]
      have hbytes := Reads.map (reads_takeBytes (Bytes.length_toBe w.2 n)) Bytes.ofBe
      rwa [Bytes.ofBe_toBe hn] at hbytes
    · rename_i hnone
      obtain ⟨w, hmem, hn⟩ := hwide
      exact absurd (decide_eq_true hn) (List.find?_eq_none.mp hnone w hmem)

/-- What is written begins with a marker of the family. -/
theorem exists_marker {n : ℕ} (h : m.Fits n) :
    ∃ b bytes, m.write n = b :: bytes ∧
      (m.base ≤ b.toNat ∧ b.toNat < m.base + m.lim ∨ ∃ w ∈ m.wide, w.1 = b) := by
  rw [write]
  split
  · rename_i hlt
    have hle := m.le_size
    refine ⟨_, _, rfl, Or.inl ?_⟩
    rw [UInt8.toNat_ofNat', Nat.mod_eq_of_lt (by omega)]
    omega
  · rename_i hge
    split
    · rename_i w hw
      exact ⟨_, _, rfl, Or.inr ⟨w, List.mem_of_find?_eq_some hw, rfl⟩⟩
    · rename_i hnone
      obtain ⟨w, hmem, hn⟩ := h.resolve_left hge
      exact absurd (decide_eq_true hn) (List.find?_eq_none.mp hnone w hmem)

end Markers

/-- Lengths of arrays. -/
def arrayLen : Markers where
  base := 0x90
  lim := 16
  wide := [(0xDC, 2), (0xDD, 4)]
  le_size := by decide
  apart := by decide
  nodup := by decide

/-- Unsigned integers. -/
def uint : Markers where
  base := 0
  lim := 128
  wide := [(0xCC, 1), (0xCD, 2), (0xCE, 4), (0xCF, 8)]
  le_size := by decide
  apart := by decide
  nodup := by decide

/-- Lengths of strings. -/
def strLen : Markers where
  base := 0xA0
  lim := 32
  wide := [(0xD9, 1), (0xDA, 2), (0xDB, 4)]
  le_size := by decide
  apart := by decide
  nodup := by decide

theorem arrayLen_fits {n : ℕ} (h : n < 2 ^ 32) : arrayLen.Fits n :=
  Or.inr ⟨(0xDD, 4), by decide, by simpa using h⟩

theorem uint_fits {n : ℕ} (h : n < 2 ^ 64) : uint.Fits n :=
  Or.inr ⟨(0xCF, 8), by decide, by simpa using h⟩

theorem strLen_fits {n : ℕ} (h : n < 2 ^ 32) : strLen.Fits n :=
  Or.inr ⟨(0xDB, 4), by decide, by simpa using h⟩

/-! ### Codecs -/

/-- Arrays; elements that the visitor has left are refused. -/
def array : SeqFormat where
  writeLen := arrayLen.write
  readLen := arrayLen.read
  finish left := if left = 0 then pure () else throw "array had incorrect length"
  finish_zero := rfl

theorem reads_arrayLen {n : ℕ} (h : n < 2 ^ 32) : Reads array.readLen (array.writeLen n) n :=
  Markers.reads_read (arrayLen_fits h)

/-- Unsigned integers below a bound. -/
def number (bound : ℕ) : Codec ℕ where
  encode := uint.write
  decode := do
    let n ← uint.read
    if n < bound then pure n else throw "number out of range"

theorem number_lossless {bound n : ℕ} (h : n < bound) (hbound : bound ≤ 2 ^ 64) :
    (number bound).Lossless n := by
  have hread : Reads uint.read (uint.write n) n :=
    Markers.reads_read (uint_fits (Nat.lt_of_lt_of_le h hbound))
  have hcheck := hread.bind (fun n => if n < bound then pure n else throw "number out of range")
    (v := []) (b := n) (by rw [if_pos h]; exact Reads.pure n)
  rwa [List.append_nil] at hcheck

/-- Strings. -/
def string : Codec String where
  encode s := strLen.write (Bytes.ofString s).length ++ Bytes.ofString s
  decode := do
    let n ← strLen.read
    let bytes ← takeBytes n
    let s := Bytes.toStringLossy bytes
    if Bytes.ofString s = bytes then pure s else throw "invalid UTF-8"

theorem string_lossless {s : String} (h : s.utf8ByteSize < 2 ^ 32) : string.Lossless s := by
  rw [← Bytes.length_ofString] at h
  refine (Markers.reads_read (strLen_fits h)).bind _ ?_
  have hbytes : Reads (takeBytes (Bytes.ofString s).length) (Bytes.ofString s) (Bytes.ofString s) :=
    reads_takeBytes rfl
  have htake := hbytes.bind
    (fun bytes => if Bytes.ofString (Bytes.toStringLossy bytes) = bytes then
      pure (Bytes.toStringLossy bytes) else throw "invalid UTF-8") (v := []) (b := s)
    (by rw [Bytes.toStringLossy_ofString, if_pos rfl]; exact Reads.pure s)
  rwa [List.append_nil] at htake

/-- A value that may be absent: `nil`, or the value itself. -/
def option (c : Codec α) : Codec (Option α) where
  encode
    | none => [0xC0]
    | some a => c.encode a
  decode := fun stream =>
    match stream with
    | 0xC0 :: rest => .ok (none, rest)
    | stream => (c.decode.run stream).map fun (a, rest) => (some a, rest)

theorem option_lossless_none (c : Codec α) : (option c).Lossless none := fun _ => rfl

/-- A value whose encoding does not look like `nil` is read as present. -/
theorem option_lossless_some {c : Codec α} {a : α} {b : UInt8} {bytes : List UInt8}
    (hc : c.encode a = b :: bytes) (hb : b ≠ 0xC0) (h : c.Lossless a) :
    (option c).Lossless (some a) := by
  intro rest
  have hread := h rest
  rw [hc, List.cons_append, StateT.run] at hread
  simp only [option, StateT.run]
  rw [hc, List.cons_append]
  split
  · rename_i heq
    injection heq with heq
    exact absurd heq hb
  · rw [hread]
    rfl

/-- An array does not look like `nil`. -/
theorem option_lossless_array {c : Codec α} {a : α} {n : ℕ} {bytes : List UInt8}
    (hc : c.encode a = array.writeLen n ++ bytes) (hn : n < 2 ^ 32) (h : c.Lossless a) :
    (option c).Lossless (some a) := by
  obtain ⟨b, more, hb, hmarker⟩ := Markers.exists_marker (arrayLen_fits hn)
  have hcons : c.encode a = b :: (more ++ bytes) := by
    rw [hc, ← List.cons_append]
    exact congrArg (· ++ bytes) hb
  refine option_lossless_some hcons ?_ h
  rintro rfl
  rcases hmarker with ⟨-, hlt⟩ | ⟨w, hw, heq⟩
  · exact absurd hlt (by decide)
  · revert w
    decide

/-- A list whose length can be written is read as it was written if its elements are. -/
theorem vec_lossless {c : Codec α} {as : List α} (hlen : as.length < 2 ^ 32)
    (h : ∀ a ∈ as, c.Lossless a) : (array.vec c).Lossless as :=
  SeqFormat.vec_lossless (reads_arrayLen hlen) h

end MsgPack
