import Mathlib.Data.List.Sort
import SilkGraph.Data.Entry

/-!
# The operation log

`oplog.rs`: an in-memory Merkle DAG. Entries are content-addressed and linked to their
causal predecessors; the log keeps its heads and a reverse index beside the entries and
updates all of them by hand.

Two points of the translation. A method that takes `&mut self` and can fail returns its
result *and* the log it leaves behind, in the failing case too. Indexing the entry table by
a hash it does not hold panics, so every function that indexes returns an `Option`, `none`
being the panic.
-/

namespace SilkGraph

/-- In-memory Merkle-DAG operation log. -/
@[ext]
structure OpLog where
  /-- All entries indexed by hash. -/
  entries : HashMap Hash Entry
  /-- Current DAG heads: entries with no successors. -/
  heads : HashSet Hash
  /-- Reverse index: hash to the set of entries that reference it via `next`. -/
  children : HashMap Hash (HashSet Hash)
  /-- Total entry count. -/
  len : ℕ

/-- Errors from `OpLog` operations. -/
inductive OpLogError where
  | invalidHash
  | missingParent (hash : String)
  deriving DecidableEq

/-- The text of an error. -/
def OpLogError.display : OpLogError → String
  | invalidHash => "entry hash verification failed"
  | missingParent h => "missing parent entry: " ++ h

namespace OpLog

/-- Create a new log with a genesis entry, which it takes as it is. -/
def new (genesis : Entry) : OpLog where
  entries := (∅ : HashMap Hash Entry).insert genesis.hash genesis
  heads := (∅ : HashSet Hash).insert genesis.hash
  children := ∅
  len := 1

/-- Replace the entire log with a single checkpoint entry. -/
def replaceWithCheckpoint (_self : OpLog) (checkpoint : Entry) : OpLog where
  entries := (∅ : HashMap Hash Entry).insert checkpoint.hash checkpoint
  heads := (∅ : HashSet Hash).insert checkpoint.hash
  children := ∅
  len := 1

/-- The first hash of `next` that the log does not hold. -/
def missingParent (self : OpLog) (next : List Hash) : Option Hash :=
  next.find? fun p => !self.entries.contains p

/-- `children.entry(parent).or_default().insert(hash)`. -/
def addChild (children : HashMap Hash (HashSet Hash)) (parent hash : Hash) :
    HashMap Hash (HashSet Hash) :=
  children.insert parent ((children[parent]?.getD ∅).insert hash)

/-- The success path of `append`: parents stop being heads, the entry becomes one. -/
def insertEntry (self : OpLog) (entry : Entry) : OpLog where
  entries := self.entries.insert entry.hash entry
  heads := (entry.next.foldl (fun hs p => hs.erase p) self.heads).insert entry.hash
  children := entry.next.foldl (fun ch p => addChild ch p entry.hash) self.children
  len := self.len + 1

/-- Append an entry to the log: `true` if it was newly inserted, `false` if the log already
holds its hash. -/
def append [Crates] (self : OpLog) (entry : Entry) : Except OpLogError Bool × OpLog :=
  if !entry.verifyHash then (.error .invalidHash, self)
  else if self.entries.contains entry.hash then (.ok false, self)
  else if entry.next.isEmpty && !self.entries.isEmpty && entry.payload.isCheckpoint then
    (.ok true, self.replaceWithCheckpoint entry)
  else match self.missingParent entry.next with
    | some p => (.error (.missingParent (hexEncode p)), self)
    | none => (.ok true, self.insertEntry entry)

/-- Append entries one after the other, whatever each call returns. -/
def appendAll [Crates] (self : OpLog) (entries : List Entry) : OpLog :=
  entries.foldl (fun L e => (L.append e).2) self

/-- Get an entry by hash. -/
def get (self : OpLog) (hash : Hash) : Option Entry := self.entries[hash]?

/-- The causal predecessors a stored hash names; none for a hash that is not stored. -/
def nextOf (self : OpLog) (hash : Hash) : List Hash := ((self.get hash).map Entry.next).getD []

/-! ### Integrity check -/

/-- The hashes that some stored entry names as a parent. -/
def hasSuccessor (self : OpLog) : HashSet Hash :=
  Std.ExtTreeSet.ofList (self.entries.toList.flatMap fun kv => kv.2.next) compare

/-- The heads the entry table implies: stored hashes without a successor. -/
def computedHeads (self : OpLog) : HashSet Hash :=
  Std.ExtTreeSet.ofList (self.entries.keys.filter fun h => !self.hasSuccessor.contains h) compare

/-- The I-04 complaints: heads that should not be there, heads that should. -/
def headErrors (self : OpLog) : List String :=
  let extra := self.heads.toList.filter fun h => !self.computedHeads.contains h
  let missing := self.computedHeads.toList.filter fun h => !self.heads.contains h
  (if extra.isEmpty then [] else
    ["I-04 violated: spurious heads: " ++ ", ".intercalate (extra.map hexEncode)]) ++
  (if missing.isEmpty then [] else
    ["I-04 violated: missing heads: " ++ ", ".intercalate (missing.map hexEncode)])

/-- Verify structural integrity of the log: hash integrity, causal completeness, heads
accuracy. The empty list is a healthy log. -/
def verifyIntegrity [Crates] (self : OpLog) : List String :=
  ((self.entries.toList.filter fun kv => !kv.2.verifyHash).map fun kv =>
    s!"I-01 violated: entry {hexEncode kv.1} has invalid hash") ++
  (self.entries.toList.flatMap fun kv =>
    (kv.2.next.filter fun p => !self.entries.contains p).map fun p =>
      s!"I-02 violated: entry {hexEncode kv.1} references missing parent {hexEncode p}") ++
  (if self.computedHeads = self.heads then [] else self.headErrors)

/-! ### Traversal -/

/-- Breadth-first search backwards through `next` and `refs`. The first argument bounds the
number of pops. -/
def reachLoop (self : OpLog) : ℕ → List Hash → HashSet Hash → HashSet Hash
  | 0, _, visited => visited
  | _ + 1, [], visited => visited
  | fuel + 1, h :: queue, visited =>
    if visited.contains h then self.reachLoop fuel queue visited
    else
      let visited := visited.insert h
      match self.entries[h]? with
      | none => self.reachLoop fuel queue visited
      | some entry =>
        self.reachLoop fuel
          (queue ++ entry.next.filter (fun p => !visited.contains p) ++
            entry.refs.filter (fun r => !visited.contains r)) visited

/-- Every link a stored entry holds, counted: no search makes more pops than its starting
points and one for each link. -/
def linkCount (self : OpLog) : ℕ :=
  (self.entries.toList.map fun kv => kv.2.next.length + kv.2.refs.length).sum

/-- The hashes reachable backwards from the given ones, these included. -/
def reachableFrom (self : OpLog) (starts : List Hash) : HashSet Hash :=
  self.reachLoop (starts.length + self.linkCount) starts ∅

/-- `*deg -= 1` on a `usize`, which wraps at zero. -/
def usizePred (d : ℕ) : ℕ := if d = 0 then 2 ^ 64 - 1 else d - 1

/-- The order of simultaneously ready entries: by clock, then by hash. -/
def readyLE (self : OpLog) (a b : Hash) : Bool :=
  match self.entries[a]?, self.entries[b]? with
  | some ea, some eb =>
    ((compare ea.clock.physicalMs eb.clock.physicalMs).then
      ((compare ea.clock.logical eb.clock.logical).then (compare a b))).isLE
  | _, _ => (compare a b).isLE

/-- Sort simultaneously ready entries. -/
def sortReady (self : OpLog) (hs : List Hash) : List Hash :=
  hs.insertionSort fun a b => self.readyLE a b

/-- In-degrees of the subset: how many `next` links of an entry lead into it. -/
def inDegrees (self : OpLog) (hashes : HashSet Hash) : HashMap Hash ℕ :=
  hashes.toList.foldl
    (fun deg h => deg.insert h ((self.nextOf h).countP fun p => hashes.contains p)) ∅

/-- One popped entry gives its children in the subset one in-degree less and collects those
that reach zero. -/
def releaseChildren (hashes : HashSet Hash) :
    List Hash → HashMap Hash ℕ → HashMap Hash ℕ × List Hash
  | [], deg => (deg, [])
  | child :: rest, deg =>
    if !hashes.contains child then releaseChildren hashes rest deg
    else match deg[child]? with
      | none => releaseChildren hashes rest deg
      | some d =>
        let (deg', ready) := releaseChildren hashes rest (deg.insert child (usizePred d))
        (deg', if usizePred d = 0 then child :: ready else ready)

/-- The main loop of Kahn's algorithm. The first argument bounds the number of pops. -/
def topoLoop (self : OpLog) (hashes : HashSet Hash) :
    ℕ → List Hash → HashMap Hash ℕ → List Hash → List Hash
  | 0, _, _, result => result
  | _ + 1, [], _, result => result
  | fuel + 1, h :: queue, deg, result =>
    let result := result ++ [h]
    match self.children[h]? with
    | none => self.topoLoop hashes fuel queue deg result
    | some ch =>
      let (deg', ready) := releaseChildren hashes ch.toList deg
      self.topoLoop hashes fuel (queue ++ self.sortReady ready) deg' result

/-- The hashes of `topo_sort`'s result: the subset in causal order, parents before
children. -/
def topoHashes (self : OpLog) (hashes : HashSet Hash) : List Hash :=
  let deg := self.inDegrees hashes
  let queue := self.sortReady (hashes.toList.filter fun h => deg[h]? == some 0)
  self.topoLoop hashes hashes.size queue deg []

/-- Topological sort of the given set of entry hashes. Indexing an absent hash panics. -/
def topoSort (self : OpLog) (hashes : HashSet Hash) : Option (List Entry) :=
  if hashes.toList.all fun h => self.entries.contains h then
    (self.topoHashes hashes).mapM fun h => self.entries[h]?
  else none

/-- All entries reachable from the heads that are not reachable from the known hash; the
whole log if no hash is given. -/
def entriesSince (self : OpLog) (knownHash : Option Hash) : Option (List Entry) :=
  let allFromHeads := self.reachableFrom self.heads.toList
  match knownHash with
  | none => self.topoSort allFromHeads
  | some kh =>
    let knownSet := self.reachableFrom [kh]
    self.topoSort (allFromHeads.filter fun h => !knownSet.contains h)

/-- Entries not causally reachable from any of the provided heads; an error if one of these
is unknown. -/
def entriesSinceHeads (self : OpLog) (heads : List Hash) :
    Option (Except OpLogError (List Entry)) :=
  match self.missingParent heads with
  | some h => some (.error (.missingParent (hexEncode h)))
  | none =>
    let allFromHeads := self.reachableFrom self.heads.toList
    let knownSet := if heads.isEmpty then ∅ else self.reachableFrom heads
    (self.topoSort (allFromHeads.filter fun h => !knownSet.contains h)).map .ok

/-- True if every hash in the cursor exists in the log. -/
def headsKnown (self : OpLog) (heads : List Hash) : Bool :=
  heads.all fun h => self.entries.contains h

/-- All entries with clock at most the cutoff, in topological order. -/
def entriesAsOf (self : OpLog) (cutoffPhysical cutoffLogical : ℕ) : Option (List Entry) :=
  self.topoSort (Std.ExtTreeSet.ofList ((self.entries.toList.filter fun kv =>
    ((compare kv.2.clock.physicalMs cutoffPhysical).then
      (compare kv.2.clock.logical cutoffLogical)).isLE).map Prod.fst) compare)

end OpLog

end SilkGraph
