import SilkGraph.GraphStore.Newest

/-!
# Which peers have synced

`gossip.rs` and the compaction check of the store: a registry of peers with the wall-clock
time of the last sync of each, the registered cursors of subscribers, and
`verify_compaction_safe`, which compares these with the largest clock in the log.

The registry is not part of the graph or the log; a call of the store leaves it alone.
`verifyCompactionSafe_sound` is about runs in which every change of the log leaves a clock in
it that is later than the last sync of every peer.
-/

namespace SilkGraph

/-! ### The registry -/

/-- Information about a known peer. -/
structure PeerInfo where
  peerId : String
  address : String
  lastSeenMs : ℕ

/-- Registry of known peers. -/
structure PeerRegistry where
  peers : BTreeMap String PeerInfo

namespace PeerRegistry

/-- No peer is known. -/
def new : PeerRegistry := ⟨∅⟩

/-- Register a peer. Overwrites if the id already exists. -/
def register (self : PeerRegistry) (peerId address : String) : PeerRegistry :=
  ⟨self.peers.insert peerId ⟨peerId, address, 0⟩⟩

/-- Unregister a peer. -/
def unregister (self : PeerRegistry) (peerId : String) : PeerRegistry :=
  ⟨self.peers.erase peerId⟩

/-- Record that a sync with a peer happened at the given reading of the wall clock. -/
def recordSync (self : PeerRegistry) (peerId : String) (nowMs : ℕ) : PeerRegistry :=
  match self.peers[peerId]? with
  | none => self
  | some peer => ⟨self.peers.insert peerId { peer with lastSeenMs := nowMs }⟩

/-- Why a peer stands in the way of a compaction, if it does. -/
def reasonOf (latestEntryMs : ℕ) (peer : PeerInfo) : Option String :=
  if peer.lastSeenMs < latestEntryMs then
    some (if peer.lastSeenMs = 0 then s!"peer '{peer.peerId}' has never synced"
      else s!"peer '{peer.peerId}' last synced at {peer.lastSeenMs}ms, " ++
        s!"but latest entry is at {latestEntryMs}ms")
  else none

/-- Check that all known peers have synced since the most recent entry. -/
def verifyCompactionSafe (self : PeerRegistry) (latestEntryMs : ℕ) : Bool × List String :=
  let reasons := (self.peers.toList.map Prod.snd).filterMap (reasonOf latestEntryMs)
  (reasons.isEmpty, reasons)

/-- The check passes if no peer has synced before the latest entry. -/
theorem verifyCompactionSafe_iff {self : PeerRegistry} {latestEntryMs : ℕ} :
    (self.verifyCompactionSafe latestEntryMs).1 = true ↔
      ∀ (p : String) (peer : PeerInfo), self.peers[p]? = some peer →
        latestEntryMs ≤ peer.lastSeenMs := by
  simp only [verifyCompactionSafe, List.isEmpty_iff, List.filterMap_eq_nil_iff, List.mem_map,
    Prod.exists, exists_eq_right, forall_exists_index, HashMap.mem_toList]
  rw [forall_comm]
  refine forall_congr' fun p => forall_congr' fun peer => imp_congr_right fun _ => ?_
  rw [reasonOf, ite_eq_right_iff]
  simp only [reduceCtorEq, imp_false, not_lt]

end PeerRegistry

/-! ### The store with its peers -/

/-- A store with the two fields that only gossip and compaction look at. -/
structure GossipStore where
  store : PyGraphStore
  gossip : PeerRegistry
  /-- Cursors that block a compaction while they are behind. -/
  subscriberCursors : List (List Hash)

namespace GossipStore

open PyGraphStore

/-- A store as its constructors leave it: no peers, no cursors. -/
def new (store : PyGraphStore) : GossipStore := ⟨store, .new, []⟩

/-- The physical clock of the latest entry. -/
def latestMs (oplog : OpLog) : Option ℕ :=
  (oplog.entriesSince none).map fun all => maxOf (all.map fun e => e.clock.physicalMs)

/-- What the cursors from the `idx`-th on have against a compaction. -/
def cursorReasons (oplog : OpLog) : ℕ → List (List Hash) → Option (List String)
  | _, [] => some []
  | idx, cursor :: rest => do
    let delta ← oplog.entriesSinceHeads cursor
    let reasons ← cursorReasons oplog (idx + 1) rest
    pure (match delta with
      | .ok [] => reasons
      | .ok _ => s!"subscriber cursor #{idx} is behind current heads" :: reasons
      | .error _ => s!"subscriber cursor #{idx} references unknown entries" :: reasons)

/-- Check if compaction is safe: all known peers have synced since the most recent entry, and
no registered cursor is behind. -/
def verifyCompactionSafe (self : GossipStore) : Option (Bool × List String) := do
  let latest ← latestMs self.store.oplog
  let (peerSafe, peerReasons) := self.gossip.verifyCompactionSafe latest
  let reasons ← cursorReasons self.store.oplog 0 self.subscriberCursors
  pure (peerSafe && reasons.isEmpty, peerReasons ++ reasons)

/-- Register a subscriber cursor; twice the same is once. -/
def registerSubscriberCursor (self : GossipStore) (cursor : List Hash) : GossipStore :=
  if self.subscriberCursors.contains cursor then self
  else { self with subscriberCursors := self.subscriberCursors ++ [cursor] }

/-- Unregister a subscriber cursor. -/
def unregisterSubscriberCursor (self : GossipStore) (cursor : List Hash) : GossipStore :=
  { self with subscriberCursors := self.subscriberCursors.filter fun c => c != cursor }

/-- Compact with `safe = true`: only if the check passes. -/
def compact [Crates] (self : GossipStore) (env : Env) : Except PyErr String × GossipStore :=
  match self.verifyCompactionSafe with
  | none => (.error .panic, self)
  | some (false, reasons) => (.error (.runtimeError ("compaction is unsafe: " ++
      "; ".intercalate reasons ++ ". Pass safe=False to force.")), self)
  | some (true, _) =>
    let (r, store) := self.store.compact env
    (r, { self with store })

/-- The calls of a store that has peers. -/
inductive Call where
  | onStore (env : Env) (call : PyGraphStore.Call)
  | compact (env : Env)
  | registerPeer (peerId address : String)
  | unregisterPeer (peerId : String)
  | recordSync (peerId : String) (nowMs : ℕ)
  | registerSubscriberCursor (cursor : List Hash)
  | unregisterSubscriberCursor (cursor : List Hash)

/-- Run a call. -/
def exec [Crates] (self : GossipStore) : Call → GossipStore
  | .onStore env call => { self with store := (self.store.exec env call).2 }
  | .compact env => (self.compact env).2
  | .registerPeer peerId address => { self with gossip := self.gossip.register peerId address }
  | .unregisterPeer peerId => { self with gossip := self.gossip.unregister peerId }
  | .recordSync peerId nowMs => { self with gossip := self.gossip.recordSync peerId nowMs }
  | .registerSubscriberCursor cursor => self.registerSubscriberCursor cursor
  | .unregisterSubscriberCursor cursor => self.unregisterSubscriberCursor cursor

/-- If the check passes, no peer has synced before a listed entry. -/
theorem of_verifyCompactionSafe {self : GossipStore} {reasons : List String}
    (h : self.verifyCompactionSafe = some (true, reasons)) :
    ∃ all, self.store.oplog.entriesSince none = some all ∧
      ∀ (p : String) (peer : PeerInfo), self.gossip.peers[p]? = some peer →
        ∀ e ∈ all, e.clock.physicalMs ≤ peer.lastSeenMs := by
  obtain ⟨latest, hlatest, h⟩ := Option.bind_eq_some_iff.mp h
  obtain ⟨all, hall, rfl⟩ := Option.map_eq_some_iff.mp hlatest
  obtain ⟨reasons', -, h⟩ := Option.bind_eq_some_iff.mp h
  have hsafe := (Bool.and_eq_true_iff.mp (congrArg Prod.fst (Option.some.inj h))).1
  refine ⟨all, hall, fun p peer hp e he => ?_⟩
  have hle := PeerRegistry.verifyCompactionSafe_iff.mp hsafe p peer hp
  exact (le_maxOf (List.mem_map_of_mem he)).trans hle

/-! ### Runs -/

/-- A store with its peers, and for each peer the log at the last `record_sync` for it. -/
structure Watch where
  self : GossipStore
  synced : HashMap String OpLog

/-- Some entry that the log lists has a later physical clock. -/
def Later (L : OpLog) (ms : ℕ) : Prop :=
  ∀ all, L.entriesSince none = some all → ∃ e ∈ all, ms < e.clock.physicalMs

theorem Later.of_any {L : OpLog} {ms : ℕ} (h : ((L.entriesSince none).all fun all =>
    all.any fun e => ms < e.clock.physicalMs) = true) : Later L ms := by
  intro all hall
  rw [hall] at h
  simpa using h

namespace Watch

/-- Watch a store from its construction on. -/
def start (store : PyGraphStore) : Watch := ⟨.new store, ∅⟩

/-- The log that is watched. -/
def oplog (w : Watch) : OpLog := w.self.store.oplog

/-- Everything in the log was in it at the last `record_sync` for the peer. -/
def HadAll (w : Watch) (peerId : String) : Prop :=
  ∃ L, w.synced[peerId]? = some L ∧ ∀ h ∈ w.oplog.entries, h ∈ L.entries

/-- The check only passes if every registered peer had everything at its last sync. -/
def Sound (w : Watch) : Prop :=
  ∀ reasons, w.self.verifyCompactionSafe = some (true, reasons) →
    ∀ (p : String) (peer : PeerInfo), w.self.gossip.peers[p]? = some peer → w.HadAll p

variable [Crates]

/-- One call. -/
def step (w : Watch) (call : Call) : Watch where
  self := w.self.exec call
  synced := match call with
    | .recordSync peerId _ => w.synced.insert peerId w.oplog
    | _ => w.synced

/-- A sequence of calls. -/
def run (w : Watch) (calls : List Call) : Watch := calls.foldl step w

/-- A call leaves the log alone, or leaves a clock in it that is later than the last sync of
every registered peer. -/
def ChangesLater (w : Watch) (call : Call) : Prop :=
  (w.step call).oplog = w.oplog ∨ ∀ (p : String) (peer : PeerInfo),
    w.self.gossip.peers[p]? = some peer → Later (w.step call).oplog peer.lastSeenMs

/-- The condition on a call. A peer is registered as one that never synced, when there is a
clock above zero or it has everything anyway. -/
def Allowed (w : Watch) : Call → Prop
  | .registerPeer peerId _ => Later w.oplog 0 ∨ w.HadAll peerId
  | call => w.ChangesLater call

/-- Every call of a run meets the condition in the state it is made in. -/
def AllowedRun (w : Watch) : List Call → Prop
  | [] => True
  | call :: calls => w.Allowed call ∧ (w.step call).AllowedRun calls

/-- What holds along a run: a peer that lacks something last synced before the latest entry. -/
def Inv (w : Watch) : Prop :=
  ∀ (p : String) (peer : PeerInfo), w.self.gossip.peers[p]? = some peer →
    w.HadAll p ∨ Later w.oplog peer.lastSeenMs

omit [Crates] in
theorem Inv.start (store : PyGraphStore) : Inv (start store) := by
  intro p peer hp
  have hnone : (∅ : BTreeMap String PeerInfo)[p]? = none := Std.ExtTreeMap.getElem?_empty
  exact absurd (hnone.symm.trans hp) (by simp)

omit [Crates] in
theorem Inv.sound {w : Watch} (hI : w.Inv) : w.Sound := by
  intro reasons hsafe p peer hp
  obtain ⟨all, hall, hle⟩ := of_verifyCompactionSafe hsafe
  refine (hI p peer hp).resolve_right fun hlater => ?_
  obtain ⟨e, he, hlt⟩ := hlater all hall
  have := hle p peer hp e he
  omega

/-- A call that is not about the registry. -/
theorem Inv.changes {w : Watch} (hI : w.Inv) {call : Call} (hc : w.ChangesLater call)
    (hgossip : (w.step call).self.gossip = w.self.gossip)
    (hsynced : (w.step call).synced = w.synced) : (w.step call).Inv := by
  intro p peer hp
  rw [hgossip] at hp
  rcases hc with hlog | hlater
  · rw [HadAll, hlog, hsynced]
    exact hI p peer hp
  · exact .inr (hlater p peer hp)

/-- **Step.** -/
theorem Inv.step {w : Watch} (hI : w.Inv) {call : Call} (ha : w.Allowed call) :
    (w.step call).Inv := by
  match call with
  | .onStore env call => exact hI.changes ha rfl rfl
  | .compact env =>
    refine hI.changes ha ?_ rfl
    change (w.self.compact env).2.gossip = _
    rw [GossipStore.compact]
    split <;> rfl
  | .registerSubscriberCursor cursor =>
    refine hI.changes ha ?_ rfl
    change (w.self.registerSubscriberCursor cursor).gossip = _
    rw [GossipStore.registerSubscriberCursor]
    split <;> rfl
  | .unregisterSubscriberCursor cursor => exact hI.changes ha rfl rfl
  | .registerPeer peerId address =>
    intro p peer hp
    change (w.self.gossip.peers.insert peerId ⟨peerId, address, 0⟩)[p]? = some peer at hp
    rw [HashMap.getElem?_insert] at hp
    split at hp
    · obtain rfl := Option.some.inj hp
      subst peerId
      exact ha.symm
    · exact hI p peer hp
  | .unregisterPeer peerId =>
    intro p peer hp
    change (w.self.gossip.peers.erase peerId)[p]? = some peer at hp
    rw [HashMap.getElem?_erase] at hp
    split at hp
    · cases hp
    · exact hI p peer hp
  | .recordSync peerId nowMs =>
    intro p peer hp
    by_cases hpeer : peerId = p
    · subst peerId
      refine .inl ⟨w.oplog, ?_, fun h hh => hh⟩
      exact Std.ExtTreeMap.getElem?_insert_self
    · have hsame : (w.self.gossip.recordSync peerId nowMs).peers[p]? = w.self.gossip.peers[p]? := by
        rw [PeerRegistry.recordSync]
        split
        · rfl
        · rw [HashMap.getElem?_insert, if_neg hpeer]
      have hsynced : (w.synced.insert peerId w.oplog)[p]? = w.synced[p]? := by
        rw [HashMap.getElem?_insert, if_neg hpeer]
      rw [HadAll, show (w.step (.recordSync peerId nowMs)).synced[p]? = w.synced[p]? from hsynced]
      exact hI p peer (hsame ▸ hp)

/-- **Run.** -/
theorem Inv.run {w : Watch} (hI : w.Inv) {calls : List Call} (ha : w.AllowedRun calls) :
    (w.run calls).Inv := by
  induction calls generalizing w with
  | nil => exact hI
  | cons call calls ih => exact ih (hI.step ha.1) ha.2

end Watch

/-- **The compaction check, over runs.** Take a store as it is constructed and any calls:
writes, merges, compactions, registrations, syncs, each at any reading of the wall clock. If
every call that changes the log leaves a clock in it that is later than the last sync of
every registered peer, and no peer is registered while all clocks are zero, then whenever the
check passes, every registered peer's last sync was at a log that had all there is now. -/
theorem verifyCompactionSafe_sound [Crates] (store : PyGraphStore) (calls : List Call)
    (hall : (Watch.start store).AllowedRun calls) : ((Watch.start store).run calls).Sound :=
  ((Watch.Inv.start store).run hall).sound

open Sample in
/-- Bob is registered, something is written, Bob syncs: the check passes and Bob had it all. -/
theorem verifyCompactionSafe_sound_synced :
    let w := (Watch.start (freshStore "ann" ⟨∅, ∅⟩)).run [.registerPeer "bob" "tcp://bob:7701",
      .onStore ⟨.keyOrder, fun _ => 7, fun _ => .ok ()⟩ (.removeNode "x"), .recordSync "bob" 7]
    w.self.verifyCompactionSafe = some (true, []) ∧ w.HadAll "bob" := by
  intro w
  have hverify : w.self.verifyCompactionSafe = some (true, []) := by decide +kernel
  have hall : (Watch.start (freshStore "ann" ⟨∅, ∅⟩)).AllowedRun [
      .registerPeer "bob" "tcp://bob:7701",
      .onStore ⟨.keyOrder, fun _ => 7, fun _ => .ok ()⟩ (.removeNode "x"), .recordSync "bob" 7] := by
    refine ⟨.inl (.of_any (by decide +kernel)), .inr fun p peer hp => ?_, .inl rfl, trivial⟩
    change ((∅ : BTreeMap String PeerInfo).insert "bob" ⟨"bob", "tcp://bob:7701", 0⟩)[p]? =
      some peer at hp
    rw [HashMap.getElem?_insert, Std.ExtTreeMap.getElem?_empty] at hp
    split at hp
    · obtain rfl := Option.some.inj hp
      exact .of_any (by decide +kernel)
    · cases hp
  have hbob : (w.self.gossip.peers["bob"]?).isSome := by decide +kernel
  obtain ⟨peer, hp⟩ := Option.isSome_iff_exists.mp hbob
  exact ⟨hverify, verifyCompactionSafe_sound _ _ hall [] hverify "bob" peer hp⟩

open Sample in
/-- Bob syncs and something is written within the same millisecond, or an entry with an older
clock is merged after the sync: the check passes although Bob lacks it. -/
theorem compaction_check_unsound :
    let w := (Watch.start (freshStore "ann" ⟨∅, ∅⟩)).run [.registerPeer "bob" "tcp://bob:7701",
      .recordSync "bob" 7]
    let g := genesis Sample.env "ann" ⟨∅, ∅⟩
    let old := Entry.new (.removeNode "y") [g.hash] [] ⟨"carol", 2, 0⟩ "carol"
    ¬ (w.step (.onStore ⟨.keyOrder, fun _ => 7, fun _ => .ok ()⟩ (.removeNode "x"))).Sound ∧
      ¬ (w.step (.onStore ⟨.keyOrder, fun _ => 9, fun _ => .ok ()⟩ (.merge [old]))).Sound := by
  intro w g old
  have lacks : ∀ w : Watch, w.self.verifyCompactionSafe = some (true, []) →
      (w.self.gossip.peers["bob"]?).isSome →
      ((w.synced["bob"]?).all fun L => w.oplog.entries.keys.any fun h => !L.entries.contains h) = true →
      ¬ w.Sound := by
    intro w hverify hbob hlack hsound
    obtain ⟨peer, hp⟩ := Option.isSome_iff_exists.mp hbob
    obtain ⟨L, hL, hheld⟩ := hsound [] hverify "bob" peer hp
    rw [hL, Option.all_some, List.any_eq_true] at hlack
    obtain ⟨h, hh, hno⟩ := hlack
    rw [Std.ExtTreeMap.contains_iff_mem.mpr (hheld h (Std.ExtTreeMap.mem_keys.mp hh))] at hno
    cases hno
  exact ⟨lacks _ (by decide +kernel) (by decide +kernel) (by decide +kernel),
    lacks _ (by decide +kernel) (by decide +kernel) (by decide +kernel)⟩

end GossipStore

end SilkGraph
