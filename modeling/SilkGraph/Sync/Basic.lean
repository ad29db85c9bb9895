import SilkGraph.OpLog.Basic
import SilkGraph.Sync.Bloom

/-!
# Sync between peers

`sync.rs`: a peer offers its heads and a Bloom filter of what it holds, the other answers
with the entries the offer seems to lack, and the answer is merged by a retry loop.

The order in which the sender walks its hash sets only decides the order of the queue of the
ancestor closure, not the set it computes; the model walks them in key order. The order of
the heads in an offer is the sender's, hence the `HashOrder`.
-/

namespace SilkGraph

/-- A sync offer: a peer advertises its state. -/
structure SyncOffer where
  protocolVersion : ℕ
  /-- Current heads of the offering peer. -/
  heads : List Hash
  /-- Filter of all entry hashes the peer has. -/
  bloom : BloomFilter
  physicalMs : ℕ
  logical : ℕ

/-- A sync response: the entries the recipient should merge. -/
structure SyncPayload where
  entries : List Entry
  /-- Hashes the sender still needs. -/
  need : List Hash

/-- `PROTOCOL_VERSION`. -/
def currentProtocolVersion : ℕ := 3

/-- Build a sync offer from an op log. -/
def SyncOffer.fromOplog [Crates] (σ : HashOrder) (oplog : OpLog) (physicalMs logical : ℕ) :
    Option SyncOffer := do
  let all ← oplog.entriesSince none
  let bloom ← all.foldlM (fun bloom e => bloom.insert e.hash)
    (BloomFilter.new (max all.length 128))
  pure { protocolVersion := currentProtocolVersion, heads := σ.walk oplog.heads.toList, bloom,
         physicalMs, logical }

/-- Which of the remote heads we do not have. -/
def computeNeed (oplog : OpLog) (remoteHeads : List Hash) : List Hash :=
  remoteHeads.filter fun h => (oplog.get h).isNone

/-- Phase 1: the entries the filter says the remote does not have. -/
def notInBloom (bloom : BloomFilter) : List Entry → Option (HashSet Hash)
  | [] => some ∅
  | e :: rest => do
    let hit ← bloom.contains e.hash
    let send ← notInBloom bloom rest
    pure (if hit then send else send.insert e.hash)

/-- Phase 1.5: force our heads into the send set where the remote does not have them as
heads. -/
def forceHeads (ourHeads remoteHeads send : HashSet Hash) : HashSet Hash :=
  ourHeads.toList.foldl (fun send h => if remoteHeads.contains h then send else send.insert h)
    send

/-- The parents of one entry that phase 2 adds to the send set and to its queue. -/
def pullParents (oplog : OpLog) (remoteHeads : HashSet Hash) :
    List Hash → HashSet Hash → List Hash → HashSet Hash × List Hash
  | [], send, queue => (send, queue)
  | p :: rest, send, queue =>
    if !send.contains p && !remoteHeads.contains p && (oplog.get p).isSome then
      pullParents oplog remoteHeads rest (send.insert p) (queue ++ [p])
    else pullParents oplog remoteHeads rest send queue

/-- Phase 2: ancestor closure that stops at the remote's heads. The first argument bounds
the number of pops. -/
def closeAncestors (oplog : OpLog) (remoteHeads : HashSet Hash) :
    ℕ → List Hash → HashSet Hash → HashSet Hash
  | 0, _, send => send
  | _ + 1, [], send => send
  | fuel + 1, h :: queue, send =>
    match oplog.get h with
    | none => closeAncestors oplog remoteHeads fuel queue send
    | some entry =>
      let (send, queue) := pullParents oplog remoteHeads entry.next send queue
      closeAncestors oplog remoteHeads fuel queue send

/-- Compute the entries that a remote peer is missing. -/
def entriesMissing (oplog : OpLog) (remoteOffer : SyncOffer) : Option SyncPayload := do
  let remoteHeads : HashSet Hash := Std.ExtTreeSet.ofList remoteOffer.heads compare
  let all ← oplog.entriesSince none
  let need := computeNeed oplog remoteOffer.heads
  if oplog.heads.toList.all fun h => remoteHeads.contains h then
    pure { entries := [], need }
  else
    let send ← notInBloom remoteOffer.bloom all
    let send := forceHeads oplog.heads remoteHeads send
    let send := closeAncestors oplog remoteHeads (send.size + oplog.entries.size) send.toList send
    pure { entries := all.filter fun e => send.contains e.hash, need }

/-! ### Merging a batch -/

/-- The two ways a merge gives up. -/
inductive MergeError where
  | invalidHash (entry : Entry)
  | unresolvable (count : ℕ)

/-- The text of a merge error. -/
def MergeError.message : MergeError → String
  | invalidHash e => s!"invalid hash for entry {hexEncode e.hash}"
  | unresolvable n => s!"{n} entries have unresolvable parents"

/-- One pass over the remaining entries: those newly inserted and those to retry, each in
order. An invalid hash ends it, with what came before it inserted. -/
def mergePass [Crates] (oplog : OpLog) :
    List Entry → Except MergeError (List Entry × List Entry) × OpLog
  | [] => (.ok ([], []), oplog)
  | e :: rest =>
    match oplog.append e with
    | (.ok true, oplog) =>
      let (r, oplog) := mergePass oplog rest
      (r.map fun (new, retry) => (e :: new, retry), oplog)
    | (.ok false, oplog) => mergePass oplog rest
    | (.error (.missingParent _), oplog) =>
      let (r, oplog) := mergePass oplog rest
      (r.map fun (new, retry) => (new, e :: retry), oplog)
    | (.error .invalidHash, oplog) => (.error (.invalidHash e), oplog)

/-- The retry loop shared by `merge_entries` and `Store::merge`: passes until nothing
remains, a pass makes no progress, or the passes run out. -/
def mergeLoop [Crates] :
    ℕ → OpLog → List Entry → List Entry → Except MergeError (List Entry) × OpLog
  | 0, oplog, _, inserted => (.ok inserted, oplog)
  | _ + 1, oplog, [], inserted => (.ok inserted, oplog)
  | maxPasses + 1, oplog, remaining, inserted =>
    match mergePass oplog remaining with
    | (.error err, oplog) => (.error err, oplog)
    | (.ok (new, retry), oplog) =>
      if retry.length = remaining.length then (.error (.unresolvable remaining.length), oplog)
      else mergeLoop maxPasses oplog retry (inserted ++ new)

/-- The loop with as many passes as `merge_entries` and `Store::merge` allow: the entries
newly inserted, in order. -/
def mergeBatch [Crates] (oplog : OpLog) (entries : List Entry) :
    Except MergeError (List Entry) × OpLog :=
  mergeLoop (entries.length + 1) oplog entries []

/-- Merge remote entries into a local op log: the number of new entries, or the error, and
the log as it is left in either case. -/
def mergeEntries [Crates] (oplog : OpLog) (entries : List Entry) : Except String ℕ × OpLog :=
  let (r, oplog) := mergeBatch oplog entries
  (match r with
    | .ok inserted => .ok inserted.length
    | .error err => .error err.message, oplog)

end SilkGraph
