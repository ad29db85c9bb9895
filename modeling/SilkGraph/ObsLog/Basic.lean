import SilkGraph.Data.Value
import SilkGraph.Lib.Bytes
import SilkGraph.Store.Basic

/-!
# The observation log

`obslog.rs`: raw observations in a redb table of their own, under keys that sort by source and
then by time. The table is ordered by its keys byte by byte and holds the values themselves, as
they are written in a lossless encoding. The clock reading of a call and how each step of its
transaction ends are arguments of the call.
-/

namespace SilkGraph

/-- A single observation record. -/
structure Observation where
  timestampMs : UInt64
  source : String
  value : F64
  metadata : BTreeMap String String

/-- What a row of the table holds. -/
structure ObsValue where
  value : F64
  metadata : BTreeMap String String

inductive ObsLogError where
  | io (msg : String)
  | serialization (msg : String)
  deriving DecidableEq

/-- The text of an error. -/
def ObsLogError.display : ObsLogError → String
  | io msg => "ObsLog I/O error: " ++ msg
  | serialization msg => "ObsLog serialization error: " ++ msg

/-- The compound key of a row: the length of the source in two bytes, the source, the
milliseconds in eight bytes. A source that does not fit is an error. -/
def encodeKey (source : String) (timestampMs : UInt64) : Except ObsLogError (List UInt8) :=
  let src := Bytes.ofString source
  if 65535 < src.length then
    .error (.io s!"source name too long: {src.length} bytes (max 65535)")
  else .ok (Bytes.toBe 2 src.length ++ src ++ Bytes.toBe 8 timestampMs.toNat)

/-- The source and the milliseconds of a compound key. -/
def decodeKey (key : List UInt8) : Option (String × UInt64) :=
  if key.length < 10 then none
  else
    let srcLen := Bytes.ofBe (key.take 2)
    if key.length < 2 + srcLen + 8 then none
    else
      some (Bytes.toStringLossy ((key.drop 2).take srcLen),
        UInt64.ofNat (Bytes.ofBe ((key.drop (2 + srcLen)).take 8)))

/-- How the steps of a write transaction end. -/
structure ObsTxn where
  /-- To begin it and to open the table. -/
  opened : TxnResult
  /-- To insert the row of each position. -/
  inserted : ℕ → TxnResult
  committed : TxnResult

/-- A step of a transaction, under the error type of the log. -/
def obsIo (result : TxnResult) : Except ObsLogError Unit := result.mapError ObsLogError.io

/-- The observations table. -/
abbrev ObsTable := BTreeMap (List UInt8) ObsValue

/-- The observation log: what the file holds. -/
structure ObservationLog where
  table : ObsTable

/-- A new log. -/
def ObservationLog.empty : ObservationLog := ⟨∅⟩

namespace ObservationLog

/-- The end of a transaction: its table is there once it is committed, and not before. -/
def finish (self : ObservationLog) (table : Except ObsLogError ObsTable) :
    Except ObsLogError Unit × ObservationLog :=
  match table with
  | .error err => (.error err, self)
  | .ok table => (.ok (), ⟨table⟩)

/-- Append a single observation, at the reading of the clock. -/
def append (self : ObservationLog) (txn : ObsTxn) (now : UInt64) (source : String) (value : F64)
    (metadata : BTreeMap String String) : Except ObsLogError Unit × ObservationLog :=
  self.finish do
    let key ← encodeKey source now
    obsIo txn.opened
    obsIo (txn.inserted 0)
    obsIo txn.committed
    return self.table.insert key ⟨value, metadata⟩

/-- The inserts of a batch. Each key is one millisecond past the one before it; the sum wraps
around. -/
def insertRows (txn : ObsTxn) (now : UInt64) :
    ℕ → List (String × F64 × BTreeMap String String) → ObsTable → Except ObsLogError ObsTable
  | _, [], table => .ok table
  | i, (source, value, metadata) :: observations, table => do
    let key ← encodeKey source (now + UInt64.ofNat i)
    obsIo (txn.inserted i)
    insertRows txn now (i + 1) observations (table.insert key ⟨value, metadata⟩)

/-- Append a batch of observations in a single transaction. -/
def appendBatch (self : ObservationLog) (txn : ObsTxn) (now : UInt64)
    (observations : List (String × F64 × BTreeMap String String)) :
    Except ObsLogError Unit × ObservationLog :=
  self.finish do
    obsIo txn.opened
    let table ← insertRows txn now 0 observations self.table
    obsIo txn.committed
    return table

/-- The rows between two keys, both included. -/
def range (self : ObservationLog) (start stop : List UInt8) : List (List UInt8 × ObsValue) :=
  self.table.toList.filter fun row => (compare start row.1).isLE && (compare row.1 stop).isLE

/-- The observation of a row, if it is one of the source. -/
def observation? (source : String) (row : List UInt8 × ObsValue) : Option Observation :=
  match decodeKey row.1 with
  | some (src, ts) =>
    if src = source then some ⟨ts, src, row.2.value, row.2.metadata⟩ else none
  | none => none

/-- Query observations for a source since a given timestamp. -/
def query (self : ObservationLog) (txn : TxnResult) (source : String) (sinceTsMs : UInt64) :
    Except ObsLogError (List Observation) := do
  let start ← encodeKey source sinceTsMs
  let stop ← encodeKey source (UInt64.ofNat (2 ^ 64 - 1))
  obsIo txn
  return (self.range start stop).filterMap (observation? source)

/-- The most recent observation for a source: the last of its rows. -/
def queryLatest (self : ObservationLog) (txn : TxnResult) (source : String) :
    Except ObsLogError (Option Observation) := do
  let start ← encodeKey source 0
  let stop ← encodeKey source (UInt64.ofNat (2 ^ 64 - 1))
  obsIo txn
  return ((self.range start stop).filterMap (observation? source)).getLast?

/-- The distinct sources that have observations. -/
def sources (self : ObservationLog) (txn : TxnResult) : Except ObsLogError (List String) := do
  obsIo txn
  let seen := self.table.toList.filterMap fun row => (decodeKey row.1).map Prod.fst
  return (Std.ExtTreeSet.ofList seen compare).toList

/-- Delete all observations older than the given milliseconds, and say how many they are. -/
def truncate (self : ObservationLog) (txn : TxnResult) (beforeTsMs : UInt64) :
    Except ObsLogError ℕ × ObservationLog :=
  let toDelete := (self.table.toList.map Prod.fst).filter fun key =>
    match decodeKey key with
    | some (_, ts) => ts < beforeTsMs
    | none => false
  match obsIo txn with
  | .error err => (.error err, self)
  | .ok () => (.ok toDelete.length, ⟨toDelete.foldl (fun table key => table.erase key) self.table⟩)

/-- Total number of observations. -/
def count (self : ObservationLog) (txn : TxnResult) : Except ObsLogError ℕ := do
  obsIo txn
  return self.table.size

/-! ### Calls -/

/-- A call that writes to the log: its transaction, its reading of the clock and what is
appended. -/
inductive Call where
  | append (txn : ObsTxn) (now : UInt64) (source : String) (value : F64)
      (metadata : BTreeMap String String)
  | appendBatch (txn : ObsTxn) (now : UInt64)
      (observations : List (String × F64 × BTreeMap String String))

/-- One call. -/
def exec (self : ObservationLog) : Call → Except ObsLogError Unit × ObservationLog
  | .append txn now source value metadata => append self txn now source value metadata
  | .appendBatch txn now observations => appendBatch self txn now observations

/-- The calls one after another. -/
def run (self : ObservationLog) (calls : List Call) : ObservationLog :=
  calls.foldl (fun log call => (log.exec call).2) self

end ObservationLog

end SilkGraph
