import SilkGraph.Data.Clock
import SilkGraph.Data.Schema

/-!
# Entries of the operation log

`entry.rs`: the operations, the entries that carry them, and the content hash that names an
entry. What the repository takes from crates it links is collected in `Crates`: BLAKE3 of a
canonical encoding, the regular expressions, the text formatting of floats and strings, the
signature scheme, and the sizing of a Bloom filter from its floating-point formulas.
-/

namespace SilkGraph

/-- A 32-byte BLAKE3 hash. Comparing two of them byte by byte is comparing them as
big-endian numbers. -/
abbrev Hash := BitVec 256

instance : Std.TransOrd Hash := inferInstance

/-- Graph operations, the payload of an entry. -/
inductive GraphOp where
  | defineOntology (ontology : Ontology)
  | addNode (nodeId nodeType : String) (subtype : Option String) (label : String)
      (properties : BTreeMap String Value)
  | addEdge (edgeId edgeType sourceId targetId : String) (properties : BTreeMap String Value)
  | updateProperty (entityId key : String) (value : Value)
  | removeNode (nodeId : String)
  | removeEdge (edgeId : String)
  | extendOntology (extension : OntologyExtension)
  | defineLens (transforms : List UInt8)
  | checkpoint (ops : List GraphOp) (opClocks : List (ℕ × ℕ))
      (compactedAtPhysicalMs compactedAtLogical : ℕ)

namespace GraphOp

/-- `matches!(payload, GraphOp::Checkpoint { .. })`. -/
def isCheckpoint : GraphOp → Bool
  | checkpoint .. => true
  | _ => false

/-- `matches!(payload, GraphOp::DefineOntology { .. })`. -/
def isDefineOntology : GraphOp → Bool
  | defineOntology _ => true
  | _ => false

/-- `matches!(payload, GraphOp::ExtendOntology { .. })`. -/
def isExtendOntology : GraphOp → Bool
  | extendOntology _ => true
  | _ => false

end GraphOp

/-- A single entry in the Merkle-DAG operation log. -/
structure Entry where
  /-- Hash of the signable content. -/
  hash : Hash
  payload : GraphOp
  /-- Causal predecessors: the heads of the log at the time of writing. -/
  next : List Hash
  /-- Reserved, empty in every entry the store writes. -/
  refs : List Hash
  clock : HybridClock
  author : String
  /-- Signature over the hash; not covered by it. -/
  signature : Option (List UInt8) := none

/-- The portion of an entry that gets hashed. -/
structure SignableContent where
  payload : GraphOp
  next : List Hash
  refs : List Hash
  clock : HybridClock
  author : String

/-- A public key of the signature scheme, by its bytes. -/
abbrev VerifyingKey := List UInt8

/-- What the program takes from the crates it links. -/
class Crates where
  /-- BLAKE3 of the MessagePack encoding of an entry's content. -/
  contentHash : SignableContent → Hash
  /-- BLAKE3 of the JSON rendering of an ontology. -/
  ontologyHash : Ontology → Hash
  /-- `Regex::new(pattern)`, then `is_match(text)`; the error is the one of the pattern. -/
  regexIsMatch : (pattern text : String) → Except String Bool
  /-- The decimal rendering of a double. -/
  displayF64 : F64 → String
  /-- The quoted rendering of a string. -/
  debugString : String → String
  /-- The signature of a hash under a signing key. -/
  sign : (signingKey : List UInt8) → Hash → List UInt8
  /-- Whether a 64-byte signature of a hash verifies under a public key. -/
  verify : VerifyingKey → Hash → List UInt8 → Bool
  /-- Bits of a Bloom filter for so many items at one false positive in a hundred. -/
  bloomBits : ℕ → ℕ
  /-- Hash functions of a Bloom filter of so many bits for so many items. -/
  bloomHashes : (numBits expectedItems : ℕ) → ℕ

namespace Entry

/-- What the hash of an entry covers. -/
def content (self : Entry) : SignableContent :=
  ⟨self.payload, self.next, self.refs, self.clock, self.author⟩

variable [Crates]

/-- Compute the hash of the signable content. -/
def computeHash (payload : GraphOp) (next refs : List Hash) (clock : HybridClock)
    (author : String) : Hash :=
  Crates.contentHash ⟨payload, next, refs, clock, author⟩

/-- Create a new unsigned entry with computed hash. -/
def new (payload : GraphOp) (next refs : List Hash) (clock : HybridClock) (author : String) :
    Entry :=
  { hash := computeHash payload next refs clock author
    payload, next, refs, clock, author }

/-- Create a new signed entry: compute the hash, then sign it. -/
def newSigned (payload : GraphOp) (next refs : List Hash) (clock : HybridClock)
    (author : String) (signingKey : List UInt8) : Entry :=
  let hash := computeHash payload next refs clock author
  { hash, payload, next, refs, clock, author, signature := some (Crates.sign signingKey hash) }

/-- Verify the signature on this entry against a public key; an unsigned entry passes. -/
def verifySignature (self : Entry) (publicKey : VerifyingKey) : Bool :=
  match self.signature with
  | some sigBytes => sigBytes.length == 64 && Crates.verify publicKey self.hash sigBytes
  | none => true

/-- Whether this entry has a signature. -/
def isSigned (self : Entry) : Bool := self.signature.isSome

/-- Verify that the stored hash matches the content. -/
def verifyHash (self : Entry) : Bool :=
  self.hash == computeHash self.payload self.next self.refs self.clock self.author

theorem verifyHash_iff {e : Entry} : e.verifyHash ↔ e.hash = Crates.contentHash e.content := by
  simp [verifyHash, computeHash, content]

@[simp]
theorem verifyHash_new (payload : GraphOp) (next refs : List Hash) (clock : HybridClock)
    (author : String) : (new payload next refs clock author).verifyHash := by
  simp [verifyHash, new]

@[simp]
theorem verifyHash_newSigned (payload : GraphOp) (next refs : List Hash) (clock : HybridClock)
    (author : String) (signingKey : List UInt8) :
    (newSigned payload next refs clock author signingKey).verifyHash := by
  simp [verifyHash, newSigned]

end Entry

/-- A parentless checkpoint: the entry `OpLog::append` replaces the whole log with. -/
def Entry.isRootCheckpoint (e : Entry) : Bool := e.next.isEmpty && e.payload.isCheckpoint

/-! ### Hexadecimal text -/

/-- The character of a four-bit value. -/
def hexDigit (n : ℕ) : Char := "0123456789abcdef".toList.getD n '0'

/-- `hex::encode`: the 64 digits of a hash, most significant first. -/
def hexEncode (h : Hash) : String :=
  String.ofList ((List.range 64).map fun i => hexDigit ((h.toNat >>> (4 * (63 - i))) % 16))

/-! ### Concrete crates

The worked instances of the theorems run on these. The digest packs the time stamp, the
author and the identifiers of the operation into the hash, so entries that differ there have
different hashes. -/

namespace Sample

/-- A number that tells short strings apart. -/
def stringCode (s : String) : ℕ := s.toList.foldl (fun n c => (n * 131 + c.toNat) % 2 ^ 40) 7

/-- A number that tells the operations of the worked instances apart. -/
def opCode : GraphOp → ℕ
  | .defineOntology _ => 1
  | .addNode id ty _ label _ => 2 + 16 * (stringCode id + stringCode ty + stringCode label)
  | .addEdge id ty _ _ _ => 3 + 16 * (stringCode id + stringCode ty)
  | .updateProperty id key _ => 4 + 16 * (stringCode id + stringCode key)
  | .removeNode id => 5 + 16 * stringCode id
  | .removeEdge id => 6 + 16 * stringCode id
  | .extendOntology _ => 7
  | .defineLens _ => 8
  | .checkpoint .. => 9

scoped instance crates : Crates where
  contentHash c := BitVec.ofNat 256
    (((c.clock.physicalMs * 2 ^ 32 + c.clock.logical) * 2 ^ 48 + stringCode c.author) * 2 ^ 48 +
      opCode c.payload)
  ontologyHash o := BitVec.ofNat 256 (o.nodeTypes.size * 2 ^ 16 + o.edgeTypes.size)
  regexIsMatch pattern text := .ok (pattern == text)
  displayF64 x := toString x.scaled
  debugString s := "\"" ++ s ++ "\""
  sign key h := (key ++ List.replicate 64 0).take 56 ++
    (List.range 8).map fun i => UInt8.ofNat (h.toNat >>> (8 * i))
  verify key h sig := sig == (key ++ List.replicate 64 0).take 56 ++
    (List.range 8).map fun i => UInt8.ofNat (h.toNat >>> (8 * i))
  bloomBits n := 10 * n
  bloomHashes _ _ := 7

end Sample

end SilkGraph
