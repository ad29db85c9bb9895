import SilkGraph.OpLog.Enumeration
import SilkGraph.Sync.Delivery

/-!
# Messages on the wire

The `to_bytes` and `from_bytes` of `sync.rs`. A message travels as MessagePack, which is the
parameter `MessagePack`; around it the receiver checks the length of the bytes and the
number of entries, and of an offer the version and the filter. The sender checks nothing.
-/

namespace SilkGraph

/-- `rmp_serde` at one type. -/
structure MessagePack (α : Type) where
  toVec : α → List UInt8
  fromSlice : List UInt8 → Except String α

/-- A value that comes back from its encoding. -/
def MessagePack.Lossless {α : Type} (codec : MessagePack α) (a : α) : Prop :=
  codec.fromSlice (codec.toVec a) = .ok a

/-- `MAX_SYNC_BYTES`: 64 MB. -/
def maxSyncBytes : ℕ := 64 * 1024 * 1024

/-- `MAX_ENTRIES_PER_MESSAGE`. -/
def maxEntriesPerMessage : ℕ := 100000

/-- What the three `from_bytes` share: the length is checked before anything is decoded. -/
def readMessage {α : Type} (codec : MessagePack α) (name : String) (bytes : List UInt8) :
    Except String α :=
  if maxSyncBytes < bytes.length then
    .error s!"{name} too large: {bytes.length} bytes (max {maxSyncBytes})"
  else (codec.fromSlice bytes).mapError fun e => s!"invalid {name}: {e}"

/-- The check of the number of entries. -/
def checkEntryCount (name : String) (entries : List Entry) : Except String Unit :=
  if maxEntriesPerMessage < entries.length then
    .error s!"too many entries in {name}: {entries.length} (max {maxEntriesPerMessage})"
  else .ok ()

/-- A message of entries: byte length, decoding, number of entries. -/
def readEntries {α : Type} (codec : MessagePack α) (name counted : String)
    (entriesOf : α → List Entry) (bytes : List UInt8) : Except String α := do
  let a ← readMessage codec name bytes
  checkEntryCount counted (entriesOf a)
  pure a

/-- A full snapshot: every entry of the log, parents first. -/
structure Snapshot where
  entries : List Entry

/-- Build a full snapshot from an op log. -/
def Snapshot.fromOplog (oplog : OpLog) : Option Snapshot :=
  (oplog.entriesSince none).map Snapshot.mk

/-- Deserialize an offer: byte length, then version, then the dimensions of the filter. -/
def SyncOffer.fromBytes (codec : MessagePack SyncOffer) (bytes : List UInt8) :
    Except String SyncOffer := do
  let offer ← readMessage codec "sync offer" bytes
  if currentProtocolVersion < offer.protocolVersion then
    throw (s!"unsupported protocol version {offer.protocolVersion} " ++
      s!"(this peer supports up to {currentProtocolVersion})")
  offer.bloom.validate.mapError fun e => s!"invalid bloom filter in sync offer: {e}"
  pure offer

/-- Deserialize a payload. -/
def SyncPayload.fromBytes (codec : MessagePack SyncPayload) (bytes : List UInt8) :
    Except String SyncPayload :=
  readEntries codec "sync payload" "payload" SyncPayload.entries bytes

/-- Deserialize a snapshot. -/
def Snapshot.fromBytes (codec : MessagePack Snapshot) (bytes : List UInt8) :
    Except String Snapshot :=
  readEntries codec "snapshot" "snapshot" Snapshot.entries bytes

/-! ### What a receiver accepts -/

section

variable {α : Type} {codec : MessagePack α} {bytes : List UInt8} {a : α}
  {entries : List Entry}

end

/-- An offer that is accepted has a version this peer knows and a filter that can be asked. -/
theorem SyncOffer.fromBytes_ok {codec : MessagePack SyncOffer} {bytes : List UInt8}
    {offer : SyncOffer} (h : SyncOffer.fromBytes codec bytes = .ok offer) :
    offer.protocolVersion ≤ currentProtocolVersion ∧ offer.bloom.Dims := by
  unfold SyncOffer.fromBytes at h
  cases hread : readMessage codec "sync offer" bytes with
  | error e => simp [hread, bind, Except.bind] at h
  | ok o =>
    simp only [hread, bind, Except.bind] at h
    split at h
    · cases h
    · rename_i hversion
      cases hv : o.bloom.validate with
      | error e => simp [hv, Except.mapError] at h
      | ok u =>
        simp only [hv, Except.mapError, pure, Except.pure, Except.ok.injEq] at h
        subst h
        exact ⟨by omega, .of_validate hv⟩

section

variable {L : OpLog}

/-- A payload sends a part of the listing, in its order. -/
theorem entriesMissing_sublist {offer : SyncOffer} {payload : SyncPayload} {all : List Entry}
    (hall : L.entriesSince none = some all) (h : entriesMissing L offer = some payload) :
    payload.entries.Sublist all := by
  simp only [entriesMissing, hall, Option.bind_eq_bind, Option.bind_some] at h
  split at h
  · obtain rfl := Option.some.inj h
    exact List.nil_sublist _
  · obtain ⟨send, -, h⟩ := Option.bind_eq_some_iff.mp h
    obtain rfl := Option.some.inj h
    exact List.filter_sublist

end

namespace Sample

/-- A genesis. -/
def wide : Entry := Entry.new (.defineOntology ⟨∅, ∅⟩) [] [] ⟨"ann", 1, 0⟩ "ann"

end Sample

end SilkGraph
