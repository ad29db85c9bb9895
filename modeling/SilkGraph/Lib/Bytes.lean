import Mathlib.Algebra.Order.Ring.Nat
import Mathlib.Data.List.Forall2
import Mathlib.Data.Nat.Notation

/-!
# Bytes

Numbers in big endian, the lexicographic order of byte strings that share their first bytes,
and UTF-8: the bytes of a string, and the lossy decoding that puts a replacement character in
the place of what is not UTF-8. What was encoded decodes to itself.
-/

namespace Bytes

/-! ### Big endian -/

/-- The last `k` digits of a number in base 256, the most significant first. -/
def toBe : ℕ → ℕ → List UInt8
  | 0, _ => []
  | k + 1, n => toBe k (n / 256) ++ [UInt8.ofNat n]

/-- The number that digits in base 256 stand for, the most significant first. -/
def ofBe (bytes : List UInt8) : ℕ := bytes.foldl (fun n b => n * 256 + b.toNat) 0

@[simp]
theorem length_toBe (k n : ℕ) : (toBe k n).length = k := by
  induction k generalizing n with
  | zero => rfl
  | succ k ih => rw [toBe, List.length_append, ih, List.length_singleton]

theorem ofBe_toBe {k n : ℕ} (h : n < 256 ^ k) : ofBe (toBe k n) = n := by
  induction k generalizing n with
  | zero =>
    rw [Nat.pow_zero] at h
    rw [toBe, ofBe, List.foldl_nil]
    omega
  | succ k ih =>
    have hdiv : n / 256 < 256 ^ k := by
      rw [Nat.pow_succ] at h
      omega
    have hlast : (UInt8.ofNat n).toNat = n % 256 := UInt8.toNat_ofNat'
    rw [toBe, ofBe, List.foldl_append, ← ofBe, ih hdiv, List.foldl_cons, List.foldl_nil, hlast]
    omega

/-! ### The lexicographic order -/

/-- The order of byte strings that begin alike is the order of the rest. -/
theorem compare_append_left (p a b : List UInt8) : compare (p ++ a) (p ++ b) = compare a b := by
  induction p with
  | nil => rfl
  | cons x p ih =>
    have hx : compare x x = .eq := Std.ReflCmp.compare_self
    rw [List.cons_append, List.cons_append, List.compare_cons_cons, ih, hx, Ordering.eq_then]

/-- Of byte strings that begin with as many bytes, these decide first. -/
theorem compare_append {a b : List UInt8} (h : a.length = b.length) (c d : List UInt8) :
    compare (a ++ c) (b ++ d) = (compare a b).then (compare c d) := by
  induction a generalizing b with
  | nil =>
    obtain rfl : b = [] := List.eq_nil_of_length_eq_zero h.symm
    rfl
  | cons x a ih =>
    obtain ⟨y, b, rfl⟩ := List.exists_cons_of_length_eq_add_one h.symm
    rw [List.cons_append, List.cons_append, List.compare_cons_cons, List.compare_cons_cons,
      ih (Nat.succ.inj h), Ordering.then_assoc]

/-- A byte is compared as the number it is. -/
theorem compare_singleton_ofNat (m n : ℕ) :
    compare [UInt8.ofNat m] [UInt8.ofNat n] = compare (m % 256) (n % 256) := by
  rw [List.compare_cons_cons, List.compare_nil_nil, Ordering.then_eq]
  have h (x y : UInt8) : compare x y = compare x.toNat y.toNat := by
    change compareOfLessAndEq x y = compareOfLessAndEq x.toNat y.toNat
    simp only [compareOfLessAndEq, UInt8.lt_iff_toNat_lt, ← UInt8.toNat_inj]
  rw [h, UInt8.toNat_ofNat', UInt8.toNat_ofNat']

/-- Numbers of as many digits are ordered as their digits are. -/
theorem compare_toBe {k m n : ℕ} (hm : m < 256 ^ k) (hn : n < 256 ^ k) :
    compare (toBe k m) (toBe k n) = compare m n := by
  induction k generalizing m n with
  | zero =>
    obtain rfl : m = 0 := by simpa using hm
    obtain rfl : n = 0 := by simpa using hn
    rfl
  | succ k ih =>
    rw [Nat.pow_succ] at hm hn
    rw [toBe, toBe, compare_append (by rw [length_toBe, length_toBe]), compare_singleton_ofNat,
      ih (by omega) (by omega)]
    rcases Nat.lt_trichotomy (m / 256) (n / 256) with hlt | heq | hgt
    · have hmn : m < n := by omega
      rw [Nat.compare_eq_lt.mpr hlt, Nat.compare_eq_lt.mpr hmn]
      rfl
    · rw [heq, Nat.compare_eq_eq.mpr rfl, Ordering.eq_then]
      rcases Nat.lt_trichotomy (m % 256) (n % 256) with hlt | heq' | hgt
      · rw [Nat.compare_eq_lt.mpr hlt, Nat.compare_eq_lt.mpr (by omega)]
      · rw [heq', Nat.compare_eq_eq.mpr rfl, Nat.compare_eq_eq.mpr (by omega)]
      · rw [Nat.compare_eq_gt.mpr hgt, Nat.compare_eq_gt.mpr (by omega)]
    · have hmn : n < m := by omega
      rw [Nat.compare_eq_gt.mpr hgt, Nat.compare_eq_gt.mpr hmn]
      rfl

/-- A byte string that is nowhere above another of its length does not come after it. -/
theorem isLE_of_forall_le {a b : List UInt8} (h : List.Forall₂ (· ≤ ·) a b) :
    (compare a b).isLE = true := by
  induction h with
  | nil => rfl
  | @cons x y a b hxy h ih =>
    have hle : (compare x y).isLE = true := Std.isLE_compare.mpr hxy
    rw [List.compare_cons_cons, Ordering.isLE_then_iff_and]
    exact ⟨hle, Or.inr ih⟩

/-- No byte string comes before as many zeros. -/
theorem isLE_zeros (a : List UInt8) : (compare (List.replicate a.length 0) a).isLE = true := by
  apply isLE_of_forall_le
  induction a with
  | nil => exact List.Forall₂.nil
  | cons x a ih => exact List.Forall₂.cons UInt8.zero_le ih

/-- No byte string comes after as many bytes of ones. -/
theorem isLE_ones (a : List UInt8) : (compare a (List.replicate a.length 255)).isLE = true := by
  apply isLE_of_forall_le
  induction a with
  | nil => exact List.Forall₂.nil
  | cons x a ih => exact List.Forall₂.cons (UInt8.le_iff_toNat_le.mpr (Nat.le_of_lt_succ x.toNat_lt)) ih

/-! ### UTF-8 -/

/-- The bytes of a string. -/
def ofString (s : String) : List UInt8 := s.toList.flatMap String.utf8EncodeChar

/-- The character that the first bytes encode. -/
def firstChar? (bytes : List UInt8) : Option Char := bytes.toByteArray.utf8DecodeChar? 0

/-- Is it a continuation byte? -/
def isContinuation (b : UInt8) : Bool := 0x80 ≤ b && b ≤ 0xBF

/-- May the second byte follow the first in a character of three or four bytes? Overlong forms,
surrogates and what lies beyond the last code point are ruled out here. -/
def isSecond (first second : UInt8) : Bool :=
  if first = 0xE0 then 0xA0 ≤ second && second ≤ 0xBF
  else if first = 0xED then 0x80 ≤ second && second ≤ 0x9F
  else if 0xE1 ≤ first && first ≤ 0xEF then isContinuation second
  else if first = 0xF0 then 0x90 ≤ second && second ≤ 0xBF
  else if first = 0xF4 then 0x80 ≤ second && second ≤ 0x8F
  else if 0xF1 ≤ first && first ≤ 0xF3 then isContinuation second
  else false

/-- How many bytes one replacement character stands for, where no character is encoded: the
longest beginning of a character. -/
def invalidLength : List UInt8 → ℕ
  | first :: second :: rest =>
    if isSecond first second then
      match rest with
      | third :: _ => if 0xF0 ≤ first && isContinuation third then 3 else 2
      | [] => 2
    else 1
  | _ => 1

/-- Lossy decoding, of so many characters at most. -/
def decodeLossy : ℕ → List UInt8 → List Char
  | 0, _ => []
  | _ + 1, [] => []
  | n + 1, bytes =>
    match firstChar? bytes with
    | some c => c :: decodeLossy n (bytes.drop c.utf8Size)
    | none => '\uFFFD' :: decodeLossy n (bytes.drop (invalidLength bytes))

/-- The string that the bytes encode, with a replacement character where they encode none. -/
def toStringLossy (bytes : List UInt8) : String := String.ofList (decodeLossy bytes.length bytes)

theorem length_ofString (s : String) : (ofString s).length = s.utf8ByteSize := by
  have h : s.toByteArray = (ofString s).toByteArray := String.utf8Encode_toList.symm
  rw [← String.size_toByteArray, h, List.size_toByteArray]

theorem firstChar?_append (c : Char) (bytes : List UInt8) :
    firstChar? (String.utf8EncodeChar c ++ bytes) = some c := by
  rw [firstChar?, List.toByteArray_append]
  exact ByteArray.utf8DecodeChar?_utf8EncodeChar_append

theorem decodeLossy_append (n : ℕ) (c : Char) (bytes : List UInt8) :
    decodeLossy (n + 1) (String.utf8EncodeChar c ++ bytes) = c :: decodeLossy n bytes := by
  have hne : String.utf8EncodeChar c ++ bytes ≠ [] := by simp
  rw [decodeLossy, firstChar?_append]
  · simp only [List.drop_left' (String.length_utf8EncodeChar c)]
  · exact hne

theorem decodeLossy_flatMap {cs : List Char} {n : ℕ} (h : cs.length ≤ n) :
    decodeLossy n (cs.flatMap String.utf8EncodeChar) = cs := by
  induction cs generalizing n with
  | nil => cases n <;> rfl
  | cons c cs ih =>
    rw [List.length_cons] at h
    obtain ⟨n, rfl⟩ : ∃ m, n = m + 1 := ⟨n - 1, by omega⟩
    rw [List.flatMap_cons, decodeLossy_append, ih (by omega)]

/-- What was encoded decodes to itself. -/
theorem toStringLossy_ofString (s : String) : toStringLossy (ofString s) = s := by
  have hlen : s.toList.length ≤ (ofString s).length := by
    have hle : ∀ cs : List Char, cs.length ≤ (cs.flatMap String.utf8EncodeChar).length := by
      intro cs
      induction cs with
      | nil => exact Nat.le_refl 0
      | cons c cs ih =>
        have hc : 0 < c.utf8Size := c.utf8Size_pos
        rw [List.flatMap_cons, List.length_append, List.length_cons,
          String.length_utf8EncodeChar]
        omega
    exact hle s.toList
  rw [toStringLossy]
  generalize (ofString s).length = n at hlen
  rw [ofString, decodeLossy_flatMap hlen, String.ofList_toList]

/-- Different strings have different bytes. -/
theorem ofString_injective {s t : String} (h : ofString s = ofString t) : s = t := by
  rw [← toStringLossy_ofString s, h, toStringLossy_ofString]

end Bytes
