import SilkGraph.Data.Entry
import SilkGraph.Lib.ByteStream
import SilkGraph.Lib.MsgPack

/-!
# Entries as positional sequences

`impl Deserialize for Entry` in `entry.rs`. An entry is a sequence of seven elements without
names; builds up to 0.2.7 wrote an eighth, the hash of an ontology, which the visitor takes
and drops. Entries are read as a sequence of such sequences, so one element that is not taken
would shift every entry after it. `reads_deserializeEntries` is about any mixture of the two
forms.

How the elements themselves are written is a parameter (`EntryCodecs`): `rmp_serde`, and the
derived code for the operations. `messagePack` builds it from the format, but for the
operations.
-/

namespace SilkGraph

open ByteStream

/-- How sequences and the elements of an entry are written. -/
structure EntryCodecs where
  seq : SeqFormat
  hash : Codec Hash
  payload : Codec GraphOp
  hashes : Codec (List Hash)
  clock : Codec HybridClock
  author : Codec String
  signature : Codec (Option (List UInt8))
  ontologyHash : Codec (Option Hash)

/-- The two forms of an entry; the older one has a trailing `ontology_hash`. -/
inductive EntryForm where
  | current
  | legacy (ontologyHash : Option Hash)

namespace EntryCodecs

variable (c : EntryCodecs)

/-- `EntryVisitor::visit_seq`. -/
def visitSeq : SeqAccess Entry := do
  let hash ← required 0 "8 fields" c.hash.decode
  let payload ← required 1 "8 fields" c.payload.decode
  let next ← required 2 "8 fields" c.hashes.decode
  let refs ← nextElement c.hashes.decode
  let clock ← required 4 "8 fields" c.clock.decode
  let author ← required 5 "8 fields" c.author.decode
  let signature ← nextElement c.signature.decode
  -- consumed so that the stream around the entry stays aligned
  let _legacy ← nextElement c.ontologyHash.decode
  pure { hash, payload, next, refs := refs.getD [], clock, author,
         signature := signature.getD none }

/-- `Entry::deserialize`. -/
def deserialize : Decoder Entry := c.seq.deserializeSeq c.visitSeq

/-- `Vec<Entry>::deserialize`. -/
def deserializeEntries : Decoder (List Entry) := c.seq.deserializeSeq (visitVec c.deserialize)

/-- The seven elements of an entry. -/
def fields (e : Entry) : List UInt8 :=
  c.hash.encode e.hash ++ (c.payload.encode e.payload ++ (c.hashes.encode e.next ++
    (c.hashes.encode e.refs ++ (c.clock.encode e.clock ++ (c.author.encode e.author ++
      c.signature.encode e.signature)))))

/-- An entry in one of the two forms. -/
def serialize (e : Entry) : EntryForm → List UInt8
  | .current => c.seq.writeLen 7 ++ c.fields e
  | .legacy ontologyHash => c.seq.writeLen 8 ++ (c.fields e ++ c.ontologyHash.encode ontologyHash)

/-- Entries in a sequence, each in a form of its own. -/
def serializeEntries (items : List (Entry × EntryForm)) : List UInt8 :=
  c.seq.writeLen items.length ++ items.flatMap fun item => c.serialize item.1 item.2

/-- The elements of the entry are read as they were written. -/
structure Lossless (e : Entry) : Prop where
  hash : c.hash.Lossless e.hash
  payload : c.payload.Lossless e.payload
  next : c.hashes.Lossless e.next
  refs : c.hashes.Lossless e.refs
  clock : c.clock.Lossless e.clock
  author : c.author.Lossless e.author
  signature : c.signature.Lossless e.signature

/-- The length is read as it was written. -/
def LosslessLen (n : ℕ) : Prop := Reads c.seq.readLen (c.seq.writeLen n) n

variable {c}

/-- The visitor takes the seven elements and, if there is one, the eighth. -/
theorem takes_visitSeq {e : Entry} (h : c.Lossless e) {left : ℕ} {bytes : List UInt8}
    {legacy : Option (Option Hash)}
    (hlegacy : Takes (nextElement c.ontologyHash.decode) left bytes legacy 0) :
    Takes c.visitSeq (left + 7) (c.fields e ++ bytes) e 0 := by
  simp only [fields, List.append_assoc]
  refine (takes_required h.hash 0 _ _).bind _ ?_
  refine (takes_required h.payload 1 _ _).bind _ ?_
  refine (takes_required h.next 2 _ _).bind _ ?_
  refine (takes_nextElement h.refs _).bind _ ?_
  refine (takes_required h.clock 4 _ _).bind _ ?_
  refine (takes_required h.author 5 _ _).bind _ ?_
  refine (takes_nextElement h.signature _).bind _ ?_
  exact hlegacy.map fun _ => e

/-- An entry is read back from either form. -/
theorem reads_deserialize {e : Entry} {form : EntryForm} (h7 : c.LosslessLen 7)
    (h8 : c.LosslessLen 8) (h : c.Lossless e)
    (hlegacy : ∀ o, form = .legacy o → c.ontologyHash.Lossless o) :
    Reads c.deserialize (c.serialize e form) e := by
  cases form with
  | current =>
    have hend := takes_visitSeq h (takes_nextElement_end c.ontologyHash.decode)
    rw [List.append_nil] at hend
    exact reads_deserializeSeq h7 hend
  | legacy o =>
    exact reads_deserializeSeq h8 (takes_visitSeq h (takes_nextElement (hlegacy o rfl) 0))

/-- **Streams of mixed versions stay aligned.** A sequence of entries, each in the current or in
the legacy form, is read as these entries, and exactly its bytes are taken off the stream. -/
theorem deserializeEntries_serializeEntries (c : EntryCodecs) (items : List (Entry × EntryForm))
    (h7 : c.LosslessLen 7) (h8 : c.LosslessLen 8) (hlen : c.LosslessLen items.length)
    (h : ∀ item ∈ items, c.Lossless item.1)
    (hlegacy : ∀ item ∈ items, ∀ o, item.2 = .legacy o → c.ontologyHash.Lossless o)
    (rest : List UInt8) :
    c.deserializeEntries.run (c.serializeEntries items ++ rest) =
      .ok (items.map Prod.fst, rest) := by
  have hvisit : Takes (visitVec c.deserialize) items.length
      (items.flatMap fun item => c.serialize item.1 item.2) (items.map Prod.fst) 0 :=
    takes_visitVec fun item hitem =>
      reads_deserialize h7 h8 (h item hitem) (hlegacy item hitem)
  exact reads_deserializeSeq hlen hvisit rest

/-! ### MessagePack -/

/-- A byte. -/
def byteCodec : Codec UInt8 :=
  (MsgPack.number 256).via UInt8.toNat fun n => .ok (UInt8.ofNat n)

/-- A hash, `[u8; 32]`. -/
def hashCodec : Codec Hash :=
  (MsgPack.array.vec byteCodec).via (fun hash => Bytes.toBe 32 hash.toNat) fun bytes =>
    if bytes.length = 32 then .ok (BitVec.ofNat 256 (Bytes.ofBe bytes))
    else .error s!"invalid length {bytes.length}, expected an array of length 32"

/-- The derived visitor of `HybridClock`. -/
def visitClock : SeqAccess HybridClock := do
  let id ← required 0 "struct HybridClock with 3 elements" MsgPack.string.decode
  let physicalMs ← required 1 "struct HybridClock with 3 elements" (MsgPack.number (2 ^ 64)).decode
  let logical ← required 2 "struct HybridClock with 3 elements" (MsgPack.number (2 ^ 32)).decode
  pure ⟨id, physicalMs, logical⟩

/-- A clock, a sequence of three elements. -/
def clockCodec : Codec HybridClock where
  encode clock := MsgPack.array.writeLen 3 ++ (MsgPack.string.encode clock.id ++
    ((MsgPack.number (2 ^ 64)).encode clock.physicalMs ++
      (MsgPack.number (2 ^ 32)).encode clock.logical))
  decode := MsgPack.array.deserializeSeq visitClock

/-- Entries in MessagePack, with a given codec for the operations. -/
def messagePack (payload : Codec GraphOp) : EntryCodecs where
  seq := MsgPack.array
  hash := hashCodec
  payload
  hashes := MsgPack.array.vec hashCodec
  clock := clockCodec
  author := MsgPack.string
  signature := MsgPack.option (MsgPack.array.vec byteCodec)
  ontologyHash := MsgPack.option hashCodec

theorem losslessLen_messagePack (payload : Codec GraphOp) {n : ℕ} (h : n < 2 ^ 32) :
    (messagePack payload).LosslessLen n :=
  MsgPack.reads_arrayLen h

theorem byteCodec_lossless (b : UInt8) : byteCodec.Lossless b :=
  Codec.via_lossless (MsgPack.number_lossless b.toNat_lt (by decide))
    (by rw [UInt8.ofNat_toNat])

theorem hashCodec_lossless (hash : Hash) : hashCodec.Lossless hash := by
  refine Codec.via_lossless (MsgPack.vec_lossless ?_ fun b _ => byteCodec_lossless b) ?_
  · rw [Bytes.length_toBe]
    decide
  · have hlt : hash.toNat < 256 ^ 32 := hash.isLt
    rw [Bytes.length_toBe, if_pos rfl, Bytes.ofBe_toBe hlt, BitVec.ofNat_toNat, BitVec.setWidth_eq]

theorem clockCodec_lossless {clock : HybridClock} (hid : clock.id.utf8ByteSize < 2 ^ 32)
    (hphysical : clock.physicalMs < 2 ^ 64) (hlogical : clock.logical < 2 ^ 32) :
    clockCodec.Lossless clock := by
  refine reads_deserializeSeq (n := 3) (MsgPack.reads_arrayLen (by decide)) ?_
  refine (takes_required (MsgPack.string_lossless hid) 0 _ _).bind _ ?_
  refine (takes_required (MsgPack.number_lossless hphysical (by decide)) 1 _ _).bind _ ?_
  exact (takes_required (MsgPack.number_lossless hlogical (by decide)) 2 _ 0).map
    fun logical => HybridClock.mk clock.id clock.physicalMs logical

/-- The trailing hash is read as it was written, be it there or not. -/
theorem ontologyHash_lossless (o : Option Hash) : (MsgPack.option hashCodec).Lossless o := by
  cases o with
  | none => exact MsgPack.option_lossless_none hashCodec
  | some hash =>
    exact MsgPack.option_lossless_array (c := hashCodec) rfl
      (by rw [Bytes.length_toBe]; decide) (hashCodec_lossless hash)

/-- In MessagePack an entry is read as it was written if its operation is, its lists and strings
have lengths that MessagePack can write, and its clock is one of a `u64` and a `u32`. -/
theorem messagePack_lossless {payload : Codec GraphOp} {e : Entry}
    (hpayload : payload.Lossless e.payload) (hnext : e.next.length < 2 ^ 32)
    (hrefs : e.refs.length < 2 ^ 32) (hid : e.clock.id.utf8ByteSize < 2 ^ 32)
    (hphysical : e.clock.physicalMs < 2 ^ 64) (hlogical : e.clock.logical < 2 ^ 32)
    (hauthor : e.author.utf8ByteSize < 2 ^ 32)
    (hsignature : ∀ bytes, e.signature = some bytes → bytes.length < 2 ^ 32) :
    (messagePack payload).Lossless e where
  hash := hashCodec_lossless e.hash
  payload := hpayload
  next := MsgPack.vec_lossless hnext fun hash _ => hashCodec_lossless hash
  refs := MsgPack.vec_lossless hrefs fun hash _ => hashCodec_lossless hash
  clock := clockCodec_lossless hid hphysical hlogical
  author := MsgPack.string_lossless hauthor
  signature := by
    change (MsgPack.option (MsgPack.array.vec byteCodec)).Lossless e.signature
    cases hs : e.signature with
    | none => exact MsgPack.option_lossless_none _
    | some bytes =>
      exact MsgPack.option_lossless_array rfl (hsignature bytes hs)
        (MsgPack.vec_lossless (hsignature bytes hs) fun b _ => byteCodec_lossless b)

end EntryCodecs

/-! ### An example -/

namespace Sample

/-- Removals of nodes as the derived code writes them, an array of the tag and the id. No other
operation is written here. -/
def removalCodec : Codec GraphOp :=
  (MsgPack.array.vec MsgPack.string).via
    (fun op => match op with
      | .removeNode nodeId => ["remove_node", nodeId]
      | _ => [])
    fun fields => match fields with
      | ["remove_node", nodeId] => .ok (.removeNode nodeId)
      | _ => .error "unknown variant"

theorem removalCodec_lossless {nodeId : String} (h : nodeId.utf8ByteSize < 2 ^ 32) :
    removalCodec.Lossless (.removeNode nodeId) := by
  refine Codec.via_lossless (MsgPack.vec_lossless (by change 2 < 2 ^ 32; decide) ?_) rfl
  intro s hs
  rcases List.mem_cons.mp hs with rfl | hs
  · exact MsgPack.string_lossless (by decide)
  · rw [List.mem_singleton.mp hs]
    exact MsgPack.string_lossless h

/-- A removal, signed. -/
def farewell : Entry where
  hash := 77
  payload := .removeNode "bob"
  next := [5, 6]
  refs := []
  clock := ⟨"ana", 1700000000000, 3⟩
  author := "ana"
  signature := some [1, 200]

/-- Another one, unsigned. -/
def adieu : Entry where
  hash := 78
  payload := .removeNode "cy"
  next := [77]
  refs := []
  clock := ⟨"bo", 1700000000001, 0⟩
  author := "bo"

theorem messagePack_removal_lossless {e : Entry} (h : e = farewell ∨ e = adieu) :
    (EntryCodecs.messagePack removalCodec).Lossless e := by
  rcases h with rfl | rfl
  · exact EntryCodecs.messagePack_lossless (removalCodec_lossless (by decide)) (by decide)
      (by decide) (by decide) (by decide) (by decide) (by decide)
      fun bytes hbytes => Option.some.inj hbytes ▸ by decide
  · exact EntryCodecs.messagePack_lossless (removalCodec_lossless (by decide)) (by decide)
      (by decide) (by decide) (by decide) (by decide) (by decide)
      fun bytes hbytes => by cases hbytes

end Sample

namespace EntryCodecs

open Sample in
/-- A legacy entry with a hash, a current one and a legacy one without, in one stream. -/
theorem deserializeEntries_serializeEntries_mixed :
    (messagePack removalCodec).deserializeEntries.run
        ((messagePack removalCodec).serializeEntries
          [(farewell, .legacy (some 9)), (adieu, .current), (adieu, .legacy none)] ++ [1, 2, 3]) =
      .ok ([farewell, adieu, adieu], [1, 2, 3]) :=
  deserializeEntries_serializeEntries (messagePack removalCodec)
    [(farewell, .legacy (some 9)), (adieu, .current), (adieu, .legacy none)]
    (losslessLen_messagePack removalCodec (by decide))
    (losslessLen_messagePack removalCodec (by decide))
    (losslessLen_messagePack removalCodec (by change 3 < 2 ^ 32; decide))
    (fun item hitem => messagePack_removal_lossless (by
      simp only [List.mem_cons, List.not_mem_nil, or_false] at hitem
      rcases hitem with rfl | rfl | rfl
      · exact Or.inl rfl
      · exact Or.inr rfl
      · exact Or.inr rfl))
    (fun _ _ o _ => ontologyHash_lossless o) [1, 2, 3]

end EntryCodecs

end SilkGraph
