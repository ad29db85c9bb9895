import SilkGraph.Sync.Basic

/-!
# The persistent store

`store.rs`: the in-memory log beside a redb database with two tables, the entries by hash
and the list of heads.

A redb transaction commits as a whole or fails as a whole. Whether the transaction of a call
commits is an argument of the call; a failed one leaves the database as it was, but not
always the log. Entries are written in a lossless encoding, so the model's table holds the
entries themselves. What the order of a hash map decides takes a `HashOrder`.
-/

namespace SilkGraph

/-- When entries are persisted to disk. -/
inductive FlushMode where
  /-- Every write in a transaction of its own. -/
  | immediate
  /-- Writes are buffered until `flush`. -/
  | deferred
  deriving DecidableEq

inductive StoreError where
  | io (msg : String)
  | noGenesis
  | opLog (err : OpLogError)
  deriving DecidableEq

/-- The text of an error. -/
def StoreError.display : StoreError → String
  | io msg => "store I/O error: " ++ msg
  | noGenesis => "no genesis entry provided for new store"
  | opLog err => "oplog error: " ++ err.display

/-- The database file. -/
structure Db where
  /-- Entry hash to entry, walked in key order. -/
  entries : BTreeMap Hash Entry
  /-- The `"heads"` row, absent in a new file. -/
  heads : Option (List Hash)

/-- A new database file. -/
def Db.empty : Db := ⟨∅, none⟩

/-- Persistent graph store: the database and the log in memory. -/
structure Store where
  db : Db
  oplog : OpLog
  flushMode : FlushMode
  /-- Entries appended since the last flush, in deferred mode. -/
  pending : List Entry

/-- How the transaction of a call ends: the error it fails with, or its commit. -/
abbrev TxnResult := Except String Unit

namespace Store

/-- Persist entries and the updated heads in one transaction. -/
def persistEntriesAndHeads (self : Store) (σ : HashOrder) (txn : TxnResult)
    (entries : List Entry) : Except StoreError Unit × Store :=
  match txn with
  | .error msg => (.error (.io msg), self)
  | .ok () =>
    (.ok (), { self with
      db := { entries := entries.foldl (fun table e => table.insert e.hash e) self.db.entries
              heads := some (σ.walk self.oplog.heads.toList) } })

/-- Append an entry: to the log at once, to disk by flush mode. -/
def append [Crates] (self : Store) (σ : HashOrder) (txn : TxnResult) (entry : Entry) :
    Except StoreError Bool × Store :=
  match self.oplog.append entry with
  | (.error err, oplog) => (.error (.opLog err), { self with oplog })
  | (.ok false, oplog) => (.ok false, { self with oplog })
  | (.ok true, oplog) =>
    match self.flushMode with
    | .immediate =>
      let (r, self) := persistEntriesAndHeads { self with oplog } σ txn [entry]
      (r.map fun _ => true, self)
    | .deferred => (.ok true, { self with oplog, pending := self.pending ++ [entry] })

/-- Set the flush mode. -/
def setFlushMode (self : Store) (mode : FlushMode) : Store := { self with flushMode := mode }

/-- Flush all pending entries in a single transaction. The buffer is drained first. -/
def flush (self : Store) (σ : HashOrder) (txn : TxnResult) : Except StoreError ℕ × Store :=
  if self.pending.isEmpty then (.ok 0, self)
  else
    let (r, store) := persistEntriesAndHeads { self with pending := [] } σ txn self.pending
    (r.map fun _ => self.pending.length, store)

/-- Number of entries pending flush. -/
def pendingCount (self : Store) : ℕ := self.pending.length

/-- Merge a batch of remote entries: into the log one by one, to disk at the end. -/
def merge [Crates] (self : Store) (σ : HashOrder) (txn : TxnResult) (entries : List Entry) :
    Except StoreError ℕ × Store :=
  match mergeBatch self.oplog entries with
  | (.error err, oplog) => (.error (.io err.message), { self with oplog })
  | (.ok [], oplog) => (.ok 0, { self with oplog })
  | (.ok newEntries, oplog) =>
    match self.flushMode with
    | .immediate =>
      let (r, self) := persistEntriesAndHeads { self with oplog } σ txn newEntries
      (r.map fun _ => newEntries.length, self)
    | .deferred =>
      (.ok newEntries.length, { self with oplog, pending := self.pending ++ newEntries })

/-- Replace the entire store with a single checkpoint entry: the tables in one transaction,
then the log. -/
def replaceWithCheckpoint (self : Store) (txn : TxnResult) (checkpoint : Entry) :
    Except StoreError Unit × Store :=
  match txn with
  | .error msg => (.error (.io msg), self)
  | .ok () =>
    (.ok (), { self with
      db := { entries := (∅ : BTreeMap Hash Entry).insert checkpoint.hash checkpoint
              heads := some [checkpoint.hash] }
      oplog := self.oplog.replaceWithCheckpoint checkpoint })

/-! ### Opening a store -/

/-- Load all entries, in key order. -/
def loadEntries (db : Db) : List Entry := db.entries.toList.map Prod.snd

/-- Index entries by hash. -/
def indexByHash (entries : List Entry) : HashMap Hash Entry :=
  entries.foldl (fun m e => m.insert e.hash e) ∅

/-- The entries without a parent, in the order they come. -/
def rootsOf (entries : List Entry) : List Entry := entries.filter fun e => e.next.isEmpty

/-- The reverse index of the reconstruction and the parents each entry waits for. -/
structure ParentIndex where
  childrenOf : HashMap Hash (List Hash)
  pendingParents : HashMap Hash (HashSet Hash)

/-- `children_of.entry(parent).or_default().push(hash)`. -/
def pushChild (childrenOf : HashMap Hash (List Hash)) (parent hash : Hash) :
    HashMap Hash (List Hash) :=
  childrenOf.insert parent (childrenOf[parent]?.getD [] ++ [hash])

/-- Build the reverse index of everything that is not yet resolved. -/
def indexParents (σ : HashOrder) (resolved : HashSet Hash) (byHash : HashMap Hash Entry) :
    ParentIndex :=
  (σ.walk byHash.toList).foldl
    (fun ix kv =>
      if resolved.contains kv.1 then ix
      else
        let parents : HashSet Hash := Std.ExtTreeSet.ofList kv.2.next compare
        { childrenOf := (σ.walk parents.toList).foldl (fun ch p => pushChild ch p kv.1) ix.childrenOf
          pendingParents := ix.pendingParents.insert kv.1 parents })
    ⟨∅, ∅⟩

/-- Take a resolved hash off what its children wait for; those that wait for nothing more
join the queue. -/
def unblock (h : Hash) : List Hash → HashMap Hash (HashSet Hash) → List Hash →
    HashMap Hash (HashSet Hash) × List Hash
  | [], pp, ready => (pp, ready)
  | kid :: kids, pp, ready =>
    match pp[kid]? with
    | none => unblock h kids pp ready
    | some parents =>
      let parents := parents.erase h
      unblock h kids (pp.insert kid parents)
        (if parents.isEmpty then ready ++ [kid] else ready)

/-- Unblock the children of all roots. -/
def seedReady (childrenOf : HashMap Hash (List Hash)) :
    List Hash → HashMap Hash (HashSet Hash) → List Hash → HashMap Hash (HashSet Hash) × List Hash
  | [], pp, ready => (pp, ready)
  | root :: roots, pp, ready =>
    let (pp, ready) := unblock root (childrenOf[root]?.getD []) pp ready
    seedReady childrenOf roots pp ready

/-- Append the queued entries, each unblocking its children. The first argument bounds the
number of pops. -/
def reconstructLoop [Crates] (byHash : HashMap Hash Entry)
    (childrenOf : HashMap Hash (List Hash)) :
    ℕ → List Hash → HashMap Hash (HashSet Hash) → OpLog →
      Except StoreError (OpLog × HashMap Hash (HashSet Hash))
  | 0, _, pp, oplog => .ok (oplog, pp)
  | _ + 1, [], pp, oplog => .ok (oplog, pp)
  | fuel + 1, h :: ready, pp, oplog =>
    match byHash[h]? with
    | none => reconstructLoop byHash childrenOf fuel ready pp oplog
    | some entry =>
      match oplog.append entry with
      | (.error err, _) => .error (.io ("reconstruct failed: " ++ err.display))
      | (.ok _, oplog) =>
        let (pp, ready) := unblock h (childrenOf[h]?.getD []) pp ready
        reconstructLoop byHash childrenOf fuel ready pp oplog

/-- The reconstruction once the roots are known: the first becomes the genesis, the others
are appended and the results ignored, the rest follows in causal order. -/
def reconstructFrom [Crates] (σ : HashOrder) (entries : List Entry) (genesis : Entry)
    (others : List Entry) : Except StoreError OpLog :=
  let byHash := indexByHash entries
  let oplog := (OpLog.new genesis).appendAll others
  let resolved : HashSet Hash := Std.ExtTreeSet.ofList ((genesis :: others).map Entry.hash) compare
  let ix := indexParents σ resolved byHash
  let (pp, ready) := seedReady ix.childrenOf (σ.walk resolved.toList) ix.pendingParents []
  match reconstructLoop byHash ix.childrenOf byHash.size ready pp oplog with
  | .error err => .error err
  | .ok (oplog, pp) =>
    let unresolved := pp.toList.filter fun kv => !kv.2.isEmpty
    if unresolved.isEmpty then .ok oplog
    else .error (.io (s!"could not reconstruct oplog: {unresolved.length} entries " ++
      "with unresolvable parents"))

/-- Reconstruct the log from a flat list of entries. -/
def reconstructOplog [Crates] (σ : HashOrder) (entries : List Entry) : Except StoreError OpLog :=
  if entries.isEmpty then .error (.io "no entries to reconstruct")
  else match rootsOf entries with
    | [] => .error (.io "no genesis entry found")
    | genesis :: others => reconstructFrom σ entries genesis others

/-- Open or create a store: the log is rebuilt from what the file holds, and an empty file
takes the genesis. -/
def openDb [Crates] (σ : HashOrder) (txn : TxnResult) (db : Db) (genesis : Option Entry) :
    Except StoreError Store :=
  match loadEntries db with
  | [] =>
    match genesis with
    | none => .error .noGenesis
    | some genesis =>
      let store : Store := ⟨db, OpLog.new genesis, .immediate, []⟩
      match persistEntriesAndHeads store σ txn [genesis] with
      | (.error err, _) => .error err
      | (.ok (), store) => .ok store
  | existing =>
    match reconstructOplog σ existing with
    | .error err => .error err
    | .ok oplog => .ok ⟨db, oplog, .immediate, []⟩

end Store

end SilkGraph
