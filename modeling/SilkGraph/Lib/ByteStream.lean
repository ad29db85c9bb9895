import Mathlib.Data.Nat.Notation

/-!
# Reading values off a stream

A decoder takes a value off the front of a stream of bytes and leaves the rest. `Reads d bytes a`
says that it takes these bytes and makes `a` of them, whatever follows; the rules put such facts
together along the steps of a decoder.

A sequence is a number of elements and then the elements, each as long as it is. A visitor
asks for one element after the other (`SeqAccess`), with the number of those that are left; if
it leaves some, what it leaves stays in the stream. `Takes` is `Reads` for a visitor.
-/

namespace ByteStream

variable {α β : Type}

/-- A decoder of a stream of bytes. -/
abbrev Decoder (α : Type) := StateT (List UInt8) (Except String) α

/-- The decoder takes these bytes off any stream that begins with them. -/
def Reads (d : Decoder α) (bytes : List UInt8) (a : α) : Prop :=
  ∀ rest : List UInt8, d.run (bytes ++ rest) = .ok (a, rest)

theorem Reads.pure (a : α) : Reads (Pure.pure a) [] a := fun _ => rfl

theorem Reads.bind {d : Decoder α} {u v : List UInt8} {a : α} {b : β} (hd : Reads d u a)
    (f : α → Decoder β) (hf : Reads (f a) v b) : Reads (d >>= f) (u ++ v) b := by
  intro rest
  rw [List.append_assoc, StateT.run_bind, hd]
  exact hf rest

/-- A step that is followed by one that reads nothing. -/
theorem Reads.map {d : Decoder α} {u : List UInt8} {a : α} (hd : Reads d u a) (f : α → β) :
    Reads (d >>= fun a => Pure.pure (f a)) u (f a) := by
  have h := hd.bind (fun a => Pure.pure (f a)) (Reads.pure (f a))
  rwa [List.append_nil] at h

/-- How values are written and how they are read. -/
structure Codec (α : Type) where
  encode : α → List UInt8
  decode : Decoder α

/-- What was encoded for a value is read as that value. -/
def Codec.Lossless (c : Codec α) (a : α) : Prop := Reads c.decode (c.encode a) a

/-- The codec of a type whose values are written as values of another. -/
def Codec.via (c : Codec α) (repr : β → α) (make : α → Except String β) : Codec β where
  encode b := c.encode (repr b)
  decode := do
    let a ← c.decode
    match make a with
    | .ok b => pure b
    | .error e => throw e

theorem Codec.via_lossless {c : Codec α} {repr : β → α} {make : α → Except String β} {b : β}
    (h : c.Lossless (repr b)) (hmake : make (repr b) = .ok b) : (c.via repr make).Lossless b := by
  have hread := Reads.bind h (fun a => match make a with
    | .ok b => Pure.pure b
    | .error e => throw e) (v := []) (b := b) (by rw [hmake]; exact Reads.pure b)
  rwa [List.append_nil] at hread

/-! ### Sequences -/

/-- A visitor of a sequence, with the number of elements that are left. -/
abbrev SeqAccess (α : Type) := StateT ℕ (StateT (List UInt8) (Except String)) α

/-- The next element, if one is left. -/
def nextElement (d : Decoder α) : SeqAccess (Option α)
  | 0 => Pure.pure (none, 0)
  | left + 1 => d >>= fun a => Pure.pure (some a, left)

/-- The visitor takes these bytes, as the elements by which the two numbers differ. -/
def Takes (p : SeqAccess α) (left : ℕ) (bytes : List UInt8) (a : α) (left' : ℕ) : Prop :=
  Reads (p.run left) bytes (a, left')

theorem Takes.pure (a : α) (left : ℕ) : Takes (Pure.pure a) left [] a left :=
  Reads.pure (a, left)

theorem Takes.bind {p : SeqAccess α} {u v : List UInt8} {a : α} {b : β} {n₁ n₂ n₃ : ℕ}
    (hp : Takes p n₁ u a n₂) (f : α → SeqAccess β) (hf : Takes (f a) n₂ v b n₃) :
    Takes (p >>= f) n₁ (u ++ v) b n₃ :=
  Reads.bind hp (fun r => (f r.1).run r.2) hf

/-- A step that is followed by one that takes nothing. -/
theorem Takes.map {p : SeqAccess α} {u : List UInt8} {a : α} {n₁ n₂ : ℕ} (hp : Takes p n₁ u a n₂)
    (f : α → β) : Takes (p >>= fun a => Pure.pure (f a)) n₁ u (f a) n₂ :=
  Reads.map hp fun r => (f r.1, r.2)

/-- An element that is there is taken. -/
theorem takes_nextElement {d : Decoder α} {bytes : List UInt8} {a : α} (h : Reads d bytes a)
    (left : ℕ) : Takes (nextElement d) (left + 1) bytes (some a) left :=
  Reads.map h fun a => (some a, left)

/-- At the end nothing is taken. -/
theorem takes_nextElement_end (d : Decoder α) : Takes (nextElement d) 0 [] none 0 :=
  Reads.pure (none, 0)

/-- An element that has to be there, the `i`-th of them. -/
def required (i : ℕ) (expected : String) (d : Decoder α) : SeqAccess α := do
  match ← nextElement d with
  | some a => pure a
  | none => throw s!"invalid length {i}, expected {expected}"

theorem takes_required {d : Decoder α} {bytes : List UInt8} {a : α} (h : Reads d bytes a)
    (i : ℕ) (expected : String) (left : ℕ) :
    Takes (required i expected d) (left + 1) bytes a left := by
  have htake := (takes_nextElement h left).bind (fun element => match element with
    | some a => Pure.pure a
    | none => throw s!"invalid length {i}, expected {expected}") (Takes.pure a left)
  rwa [List.append_nil] at htake

/-- All elements that are left: `while let Some(value) = seq.next_element()?`. -/
def visitVec (d : Decoder α) : SeqAccess (List α)
  | 0 => Pure.pure ([], 0)
  | left + 1 => do
    let a ← d
    let more ← visitVec d left
    pure (a :: more.1, more.2)

/-- Elements that are encoded one after the other are taken one after the other, whichever
encoding each of them has. -/
theorem takes_visitVec {ι : Type} {d : Decoder α} {encode : ι → List UInt8} {value : ι → α} :
    ∀ {items : List ι}, (∀ i ∈ items, Reads d (encode i) (value i)) →
      Takes (visitVec d) items.length (items.flatMap encode) (items.map value) 0
  | [], _ => Reads.pure ([], 0)
  | i :: items, h => by
    have hrest : Takes (visitVec d) items.length (items.flatMap encode) (items.map value) 0 :=
      takes_visitVec fun j hj => h j (List.mem_cons_of_mem i hj)
    rw [List.flatMap_cons]
    exact Reads.bind (h i List.mem_cons_self) _
      (Reads.map hrest fun more => (value i :: more.1, more.2))

/-- How a format writes and reads the number of elements of a sequence, and what it does about
elements that the visitor has left. -/
structure SeqFormat where
  writeLen : ℕ → List UInt8
  readLen : Decoder ℕ
  finish : ℕ → Decoder Unit
  /-- If none are left, there is nothing to do. -/
  finish_zero : finish 0 = pure ()

/-- Read a sequence with the given visitor. -/
def SeqFormat.deserializeSeq (fmt : SeqFormat) (visit : SeqAccess α) : Decoder α := do
  let len ← fmt.readLen
  let visited ← visit.run len
  fmt.finish visited.2
  pure visited.1

/-- A visitor that takes all elements reads the whole sequence. -/
theorem reads_deserializeSeq {fmt : SeqFormat} {visit : SeqAccess α} {n : ℕ} {bytes : List UInt8}
    {a : α} (hlen : Reads fmt.readLen (fmt.writeLen n) n) (hvisit : Takes visit n bytes a 0) :
    Reads (fmt.deserializeSeq visit) (fmt.writeLen n ++ bytes) a := by
  refine hlen.bind _ ?_
  have hfinish : Reads (fmt.finish 0 >>= fun _ => pure a) [] a := by
    rw [fmt.finish_zero]
    exact Reads.pure a
  have h := Reads.bind hvisit (fun visited => fmt.finish visited.2 >>= fun _ => pure visited.1)
    hfinish
  rwa [List.append_nil] at h

/-- A sequence of values of one codec. -/
def SeqFormat.vec (fmt : SeqFormat) (c : Codec α) : Codec (List α) where
  encode as := fmt.writeLen as.length ++ as.flatMap c.encode
  decode := fmt.deserializeSeq (visitVec c.decode)

theorem SeqFormat.vec_lossless {fmt : SeqFormat} {c : Codec α} {as : List α}
    (hlen : Reads fmt.readLen (fmt.writeLen as.length) as.length)
    (h : ∀ a ∈ as, c.Lossless a) : (fmt.vec c).Lossless as := by
  have hvisit : Takes (visitVec c.decode) as.length (as.flatMap c.encode) (as.map id) 0 :=
    takes_visitVec h
  rw [List.map_id] at hvisit
  exact reads_deserializeSeq hlen hvisit

end ByteStream
