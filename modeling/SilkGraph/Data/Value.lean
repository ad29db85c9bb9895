import SilkGraph.Data.Collections

/-!
# Property values and constraint values

`Value` is `entry.rs`'s property value and `Json` the `serde_json::Value` a constraint is
written in. Numbers are compared as IEEE 754 doubles; `F64` keeps the bit pattern, so the
comparisons below are the ones the hardware makes, `NaN` included.
-/

namespace SilkGraph

/-- An IEEE 754 binary64 number, by its bit pattern. -/
structure F64 where
  bits : BitVec 64
  deriving DecidableEq, Repr

namespace F64

/-- The biased exponent field. -/
def exponent (x : F64) : ℕ := (x.bits.toNat >>> 52) % 2 ^ 11

/-- The fraction field. -/
def fraction (x : F64) : ℕ := x.bits.toNat % 2 ^ 52

/-- Not a number: the exponent is all ones and the fraction is not zero. -/
def isNaN (x : F64) : Bool := x.exponent == 2047 && x.fraction != 0

/-- The value times `2 ^ 1074`, an integer; the infinities lie beyond every finite value,
where their bit pattern puts them. -/
def scaled (x : F64) : ℤ :=
  let m : ℕ := if x.exponent = 0 then x.fraction
    else (2 ^ 52 + x.fraction) * 2 ^ (x.exponent - 1)
  if x.bits.toNat < 2 ^ 63 then m else -m

/-- `a < b` on doubles: false as soon as one side is not a number. -/
def lt (a b : F64) : Bool := !a.isNaN && !b.isNaN && decide (a.scaled < b.scaled)

/-- `a <= b` on doubles. -/
def le (a b : F64) : Bool := !a.isNaN && !b.isNaN && decide (a.scaled ≤ b.scaled)

/-- The bits of a magnitude: exact below `2 ^ 53`, rounded to nearest with ties to even
above it. A carry out of the fraction moves into the exponent by itself. -/
def magnitudeBits (m : ℕ) : ℕ :=
  if m = 0 then 0
  else
    let top := Nat.log2 m
    if top ≤ 52 then (top + 1022) * 2 ^ 52 + m * 2 ^ (52 - top)
    else
      let k := top - 52
      let q := m / 2 ^ k
      let r := m % 2 ^ k
      let up := 2 ^ k < 2 * r ∨ (2 * r = 2 ^ k ∧ q % 2 = 1)
      (top + 1022) * 2 ^ 52 + (if up then q + 1 else q)

/-- `n as f64` for an integer `n`. -/
def ofInt (n : ℤ) : F64 :=
  ⟨BitVec.ofNat 64 ((if n < 0 then 2 ^ 63 else 0) + magnitudeBits n.natAbs)⟩

end F64

/-- Property value (`entry.rs`). The keys of a map value are in key order. -/
inductive Value where
  | null
  | bool (b : Bool)
  | int (n : ℤ)
  | float (x : F64)
  | string (s : String)
  | list (vs : List Value)
  | map (kvs : List (String × Value))
  deriving Repr

/-- `serde_json::Number`: what the parser keeps of a JSON number. -/
inductive JsonNumber where
  | posInt (n : ℕ)
  | negInt (n : ℤ)
  | float (x : F64)
  deriving DecidableEq, Repr

/-- `Number::as_f64`. -/
def JsonNumber.asF64 : JsonNumber → F64
  | .posInt n => F64.ofInt n
  | .negInt n => F64.ofInt n
  | .float x => x

/-- `Number::as_u64`. -/
def JsonNumber.asU64 : JsonNumber → Option ℕ
  | .posInt n => some n
  | _ => none

/-- `serde_json::Value`. -/
inductive Json where
  | null
  | bool (b : Bool)
  | number (n : JsonNumber)
  | string (s : String)
  | array (vs : List Json)
  | object (kvs : List (String × Json))
  deriving Repr

/-- `Value::as_str` of `serde_json`. -/
def Json.asStr : Json → Option String
  | .string s => some s
  | _ => none

/-- `Value::as_f64` of `serde_json`. -/
def Json.asF64 : Json → Option F64
  | .number n => some n.asF64
  | _ => none

end SilkGraph
