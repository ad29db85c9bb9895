import SilkGraph.Graph.Inert
import SilkGraph.GraphStore.Resolved

/-!
# Who signed an entry

A store signs every entry it makes with its own key, whoever the entry names as its author.
For what it writes and for the checkpoint of a compaction that is itself; but a compaction
makes the quarantined entries anew under the authors they had. `signatures_attributable_iff` is
about a set of stores with keys of their own: every entry made along a run verifies under the
key of its author, and no other store refuses it for its signature, exactly if no store
compacts while an entry of another is in its quarantine.

`created` lists what a call makes. Nothing else comes into a log but what a merge brings
(`run_sources`).
-/

namespace SilkGraph

open OpLog

namespace PyGraphStore

section

variable [Crates] {s t : PyGraphStore} {env : Env} {P : Entry → Prop} {es : List Entry}

/-! ### What a call makes -/

/-- The entries that a call makes, if it comes so far: the one it writes, or the checkpoint of
a compaction and what it carries over. -/
def created (self : PyGraphStore) (env : Env) : Call → List Entry
  | .compact => self.checkpointEntry env :: (self.carried env).map (self.reRooted env)
  | c => match c.written with
    | some op => [self.writtenEntry env op]
    | none => []

theorem created_of_written {c : Call} {op : GraphOp} (h : c.written = some op) :
    s.created env c = [s.writtenEntry env op] := by
  cases c <;> cases h <;> rfl

/-- The store has the name and the keys of another, and its log holds entries of one kind. -/
structure StaysWith (P : Entry → Prop) (s t : PyGraphStore) : Prop where
  instanceId : t.instanceId = s.instanceId
  signingKey : t.signingKey = s.signingKey
  keyRegistry : t.keyRegistry = s.keyRegistry
  log : t.oplog.All fun _ e => P e

namespace StaysWith

variable {u : PyGraphStore}

omit [Crates] in
theorem congr (h : StaysWith P s t) (log : u.oplog = t.oplog) (instanceId : u.instanceId = t.instanceId)
    (signingKey : u.signingKey = t.signingKey) (keyRegistry : u.keyRegistry = t.keyRegistry) :
    StaysWith P s u :=
  ⟨instanceId.trans h.instanceId, signingKey.trans h.signingKey, keyRegistry.trans h.keyRegistry,
    log ▸ h.log⟩

theorem append (hs : s.oplog.All fun _ e => P e) {op : GraphOp} (hop : P (s.writtenEntry env op)) :
    StaysWith P s (s.append env op).2 := by
  have hlog : (s.backend.append env.order (env.txn 0) (s.writtenEntry env op)).2.oplog.All
      fun _ e => P e := by
    rw [Backend.append_oplog]
    exact hs.append hop
  obtain ⟨_, -, hrun⟩ | ⟨-, _, -, hrun⟩ | ⟨-, _, -, hrun⟩ := s.append_cases env op <;> rw [hrun]
  · exact ⟨rfl, rfl, rfl, hs⟩
  · exact ⟨rfl, rfl, rfl, hlog⟩
  · exact ⟨rfl, rfl, rfl, hlog⟩

theorem revalidate (h : StaysWith P s t) : StaysWith P s (t.revalidate env).2 := by
  rw [PyGraphStore.revalidate]
  split
  · exact h
  · exact h.congr rfl rfl rfl rfl

theorem compact (hs : s.oplog.All fun _ e => P e) (hmade : ∀ e ∈ s.created env .compact, P e) :
    StaysWith P s (s.compact env).2 := by
  refine compact_rule s env (I := StaysWith P s) ⟨rfl, rfl, rfl, ?_⟩
    (fun t i e he ht => ⟨ht.instanceId, ht.signingKey, ht.keyRegistry, ?_⟩) fun t ht => ht.revalidate
  · change (Backend.replaceWithCheckpoint _ _ _).2.oplog.All _
    obtain hlog | hlog := Backend.replace_oplog s.backend (env.txn 0) (s.checkpointEntry env) <;>
      rw [hlog]
    · exact hs
    · rw [replaceWithCheckpoint_eq_new]
      exact All.new (hmade _ List.mem_cons_self)
  · change (Backend.append _ _ _ _).2.oplog.All _
    -- what is carried over is made by the store that compacts
    have hsame : t.createEntry e.payload [(s.checkpointEntry env).hash] [] e.clock e.author =
        s.reRooted env e := by
      rw [reRooted, createEntry, createEntry, ht.signingKey]
    rw [Backend.append_oplog, hsame]
    exact ht.log.append (hmade _ (List.mem_cons_of_mem _ (List.mem_map_of_mem he)))

theorem merge (hs : s.oplog.All fun _ e => P e) (hes : ∀ e ∈ es, P e) :
    StaysWith P s (s.mergeEntriesVec env es).2 := by
  have hlog : (s.mergeEntriesVec env es).2.oplog.All fun _ e => P e := by
    rw [mergeEntriesVec_log]
    exact mergeBatch_all hs _ fun e he => hes e (List.mem_of_mem_filter he)
  have hframe : ∀ all batch, ∀ t : PyGraphStore, ((t.integrated env all batch).instanceId = t.instanceId ∧
      (t.integrated env all batch).signingKey = t.signingKey) ∧
      (t.integrated env all batch).keyRegistry = t.keyRegistry := by
    intro all batch t
    rw [integrated]
    split
    · rw [PyGraphStore.revalidate]
      split <;> exact ⟨⟨rfl, rfl⟩, rfl⟩
    · obtain ⟨nodeTypes, heq⟩ := foldl_applyMerged_eq env (listedOf all batch) t
      rw [heq]
      exact ⟨⟨rfl, rfl⟩, rfl⟩
  obtain ⟨msg, -, hrun⟩ | ⟨-, hrun⟩ | ⟨n, -, -, hrun⟩ | ⟨n, all, -, -, hrun⟩ :=
    s.mergeEntriesVec_cases env es <;> rw [hrun] at hlog ⊢
  · exact ⟨rfl, rfl, rfl, hlog⟩
  · exact ⟨rfl, rfl, rfl, hlog⟩
  · exact ⟨rfl, rfl, rfl, hlog⟩
  · obtain ⟨⟨hid, hkey⟩, hreg⟩ := hframe all (es.filter s.admits)
      { s with backend := (s.backend.merge env.order (env.txn 0) (es.filter s.admits)).2 }
    exact ⟨hid, hkey, hreg, hlog⟩

/-- **Step.** A call leaves name and keys, and brings into the log what it makes or what it is
given to merge. -/
theorem exec (hs : s.oplog.All fun _ e => P e) {c : Call} (hc : c.configures = false)
    (hmade : ∀ e ∈ s.created env c, P e) (hes : ∀ es, c = .merge es → ∀ e ∈ es, P e) :
    StaysWith P s (s.exec env c).2 := by
  refine exec_rule s env (I := StaysWith P s) ⟨rfl, rfl, rfl, hs⟩ (fun op hop _ => append hs ?_)
    (fun t nodeTypes ht => ht.congr rfl rfl rfl rfl) (fun t ontology ht => ?_)
    (fun b hlog => ⟨rfl, rfl, rfl, fun h e he => hs h e (hlog ▸ he)⟩)
    (fun es h => merge hs (hes es h)) (fun h => compact hs (h ▸ hmade)) fun h => ?_
  · exact hmade _ (created_of_written hop ▸ List.mem_singleton_self _)
  · have ht' : StaysWith P s { t with ontology } := ht.congr rfl rfl rfl rfl
    exact ht'.revalidate
  · rw [hc] at h
    cases h

end StaysWith

/-! ### Quarantine -/

omit [Crates] in
/-- What is quarantined in the log is the store's own. -/
def OwnQuarantine (self : PyGraphStore) : Prop :=
  ∀ h ∈ self.graph.quarantined, ∀ e, self.oplog.get h = some e → e.author = self.instanceId

omit [Crates] in
/-- A compaction carries over what is quarantined in the log. -/
theorem mem_carried {e : Entry} :
    e ∈ s.carried env ↔ ∃ h ∈ s.graph.quarantined, s.oplog.get h = some e := by
  rw [carried, List.mem_filterMap]
  simp only [HashOrder.mem_walk, Std.ExtTreeMap.mem_keys]

/-- All that a store makes comes from one function. It names the store, unless it is carried
over. -/
theorem mem_created {c : Call} {e : Entry} (he : e ∈ s.created env c) :
    ∃ payload next refs clock author, e = s.createEntry payload next refs clock author ∧
      (author = s.instanceId ∨ c = .compact ∧ ∃ x ∈ s.carried env, author = x.author) := by
  by_cases hc : c = .compact
  · subst hc
    obtain rfl | he := List.mem_cons.mp he
    · exact ⟨_, _, _, _, _, rfl, .inl rfl⟩
    · obtain ⟨x, hx, rfl⟩ := List.mem_map.mp he
      exact ⟨_, _, _, _, _, rfl, .inr ⟨rfl, x, hx, rfl⟩⟩
  · cases hw : c.written with
    | none =>
      have hnone : s.created env c = [] := by
        cases c <;> first | rfl | exact absurd rfl hc | cases hw
      rw [hnone] at he
      cases he
    | some op =>
      rw [created_of_written hw, List.mem_singleton] at he
      exact ⟨_, _, _, _, _, he, .inl rfl⟩

/-- A store that compacts with entries of its own in quarantine only makes none in the name of
another. -/
theorem author_of_created {c : Call} (own : c = .compact → s.OwnQuarantine) {e : Entry}
    (he : e ∈ s.created env c) : e.author = s.instanceId := by
  obtain ⟨payload, next, refs, clock, author, rfl, hauthor | ⟨hc, x, hx, hauthor⟩⟩ := mem_created he
  · rw [createEntry_author, hauthor]
  · obtain ⟨h, hq, hget⟩ := mem_carried.mp hx
    rw [createEntry_author, hauthor, own hc h hq x hget]

/-- All that a store makes is signed with its key. -/
theorem signature_of_created {c : Call} {key : List UInt8} (hkey : s.signingKey = some key) {e : Entry}
    (he : e ∈ s.created env c) : e.signature = some (Crates.sign key e.hash) := by
  obtain ⟨payload, next, refs, clock, author, rfl, -⟩ := mem_created he
  rw [createEntry, hkey]
  rfl

end

end PyGraphStore

/-! ### A set of stores -/

/-- A set of stores: their names, and keys of a scheme in which a signature verifies under the
key of the signer and under no other. -/
structure Fleet [Crates] (ι : Type) where
  name : ι → String
  signingKey : ι → List UInt8
  publicKey : ι → VerifyingKey
  sized : ∀ i h, (Crates.sign (signingKey i) h).length = 64
  verifies : ∀ i h, Crates.verify (publicKey i) h (Crates.sign (signingKey i) h) = true
  sound : ∀ i j h, Crates.verify (publicKey j) h (Crates.sign (signingKey i) h) = true → i = j

/-- A call of one of the stores. -/
structure Fleet.Move (ι : Type) where
  store : ι
  env : Env
  call : PyGraphStore.Call

namespace Fleet

section

open PyGraphStore

variable [Crates] {ι : Type} [DecidableEq ι] (F : Fleet ι)

/-- Every store has its name and its key, and the public keys of all the others. -/
structure Registered (w : ι → PyGraphStore) : Prop where
  instanceId : ∀ i, (w i).instanceId = F.name i
  signingKey : ∀ i, (w i).signingKey = some (F.signingKey i)
  keyRegistry : ∀ i j, i ≠ j → (w i).keyRegistry[F.name j]? = some (F.publicKey j)

/-- The entry is signed, and verifies under the key of its author. -/
def Attributed (e : Entry) : Prop :=
  ∃ i, e.author = F.name i ∧ e.isSigned = true ∧ e.verifySignature (F.publicKey i) = true

/-- The stores after a call of one of them. -/
def step (w : ι → PyGraphStore) (m : Move ι) : ι → PyGraphStore :=
  Function.update w m.store ((w m.store).exec m.env m.call).2

/-- The stores after a run. -/
def run (w : ι → PyGraphStore) (moves : List (Move ι)) : ι → PyGraphStore := moves.foldl step w

/-- The entries made along a run, each with the store that makes it. -/
def created (w : ι → PyGraphStore) : List (Move ι) → List (ι × Entry)
  | [] => []
  | m :: moves => ((w m.store).created m.env m.call).map (Prod.mk m.store) ++ created (step w m) moves

/-- What is merged along a run is held by one of the stores at the time. -/
def Honest (w : ι → PyGraphStore) : List (Move ι) → Prop
  | [] => True
  | m :: moves => (∀ es, m.call = .merge es → ∀ e ∈ es, ∃ j, ∃ h : Hash, (w j).oplog.entries[h]? = some e) ∧
      Honest (step w m) moves

/-- No store compacts along a run while an entry of another is in its quarantine. -/
def OwnCompactions (w : ι → PyGraphStore) : List (Move ι) → Prop
  | [] => True
  | m :: moves => (m.call = .compact → (w m.store).OwnQuarantine) ∧ OwnCompactions (step w m) moves

variable {F} {w : ι → PyGraphStore} {m : Move ι} {moves : List (Move ι)} {P : Entry → Prop}

/-- **Step.** Names and keys stay. -/
theorem Registered.step (hw : F.Registered w) (hm : m.call.configures = false) :
    F.Registered (step w m) := by
  have hstay : ∀ i, StaysWith (fun _ => True) (w i) (Fleet.step w m i) := fun i => by
    rw [Fleet.step, Function.update_apply]
    split
    · rename_i hi
      subst hi
      exact .exec (fun _ _ _ => trivial) hm (fun _ _ => trivial) fun _ _ _ _ => trivial
    · exact ⟨rfl, rfl, rfl, fun _ _ _ => trivial⟩
  exact ⟨fun i => (hstay i).instanceId.trans (hw.instanceId i),
    fun i => (hstay i).signingKey.trans (hw.signingKey i),
    fun i j hij => by rw [(hstay i).keyRegistry, hw.keyRegistry i j hij]⟩

theorem Registered.run (hw : F.Registered w) (hmoves : ∀ m ∈ moves, m.call.configures = false) :
    F.Registered (run w moves) := by
  induction moves generalizing w with
  | nil => exact hw
  | cons m moves ih =>
    exact ih (hw.step (hmoves m List.mem_cons_self)) fun x hx => hmoves x (List.mem_cons_of_mem m hx)

/-- **Run.** What holds of the entries of all logs and of all that is made holds of the
entries of all logs afterwards. -/
theorem all_run (hw : ∀ i, (w i).oplog.All fun _ e => P e)
    (hmoves : ∀ m ∈ moves, m.call.configures = false) (honest : Honest w moves)
    (hmade : ∀ x ∈ created w moves, P x.2) (i : ι) : (run w moves i).oplog.All fun _ e => P e := by
  induction moves generalizing w with
  | nil => exact hw i
  | cons m moves ih =>
    obtain ⟨hmerge, honest⟩ := honest
    refine ih (fun k => ?_) (fun x hx => hmoves x (List.mem_cons_of_mem m hx)) honest
      fun x hx => hmade x (List.mem_append_right _ hx)
    rw [step, Function.update_apply]
    split
    · refine (StaysWith.exec (hw m.store) (hmoves m List.mem_cons_self) (fun e he => ?_)
        fun es hes e he => ?_).log
      · exact hmade (m.store, e) (List.mem_append_left _ (List.mem_map_of_mem he))
      · obtain ⟨j, h, hget⟩ := hmerge es hes e he
        exact hw j h e hget
    · exact hw k

/-- Whatever is in a log was in one at the start, or was made along the run. -/
theorem run_sources (hmoves : ∀ m ∈ moves, m.call.configures = false) (honest : Honest w moves)
    (i : ι) (h : Hash) (e : Entry) (he : (run w moves i).oplog.entries[h]? = some e) :
    (∃ j, ∃ h' : Hash, (w j).oplog.entries[h']? = some e) ∨ ∃ j, (j, e) ∈ created w moves :=
  all_run (P := fun e => (∃ j, ∃ h' : Hash, (w j).oplog.entries[h']? = some e) ∨
    ∃ j, (j, e) ∈ created w moves) (fun j h' _ he => .inl ⟨j, h', he⟩) hmoves honest
    (fun x hx => .inr ⟨x.1, hx⟩) i h e he

omit [DecidableEq ι] in
/-- An entry that names a store and is signed with its key is attributed to it. -/
theorem verifies_of_signed {e : Entry} {i : ι}
    (hsig : e.signature = some (Crates.sign (F.signingKey i) e.hash)) :
    e.isSigned = true ∧ e.verifySignature (F.publicKey i) = true := by
  refine ⟨by rw [Entry.isSigned, hsig]; rfl, ?_⟩
  rw [Entry.verifySignature, hsig]
  simp only [F.sized, F.verifies]
  rfl

omit [DecidableEq ι] in
/-- And admitted by every other store. -/
theorem Registered.admits (hw : F.Registered w) {e : Entry} {i j : ι} (hij : j ≠ i)
    (hauthor : e.author = F.name i) (hsig : e.signature = some (Crates.sign (F.signingKey i) e.hash)) :
    ({ w j with requireSignatures := true } : PyGraphStore).admitsSignature e = true := by
  obtain ⟨hsigned, hverify⟩ := verifies_of_signed (F := F) hsig
  have hkey : (w j).keyRegistry[e.author]? = some (F.publicKey i) := hauthor ▸ hw.keyRegistry j i hij
  rw [admitsSignature]
  simp only [hkey, hsigned, hverify]
  simp

omit [DecidableEq ι] in
/-- A compaction whose entries are all attributed carries over entries of its own only. -/
theorem Registered.ownQuarantine (hw : F.Registered w) (env : Env) {i : ι}
    (h : ∀ e ∈ (w i).created env .compact, F.Attributed e) : (w i).OwnQuarantine := by
  intro x hq e hget
  have hmem : (w i).reRooted env e ∈ (w i).created env .compact :=
    List.mem_cons_of_mem _ (List.mem_map_of_mem (mem_carried.mpr ⟨x, hq, hget⟩))
  obtain ⟨j, hauthor, -, hverify⟩ := h _ hmem
  rw [Entry.verifySignature, signature_of_created (hw.signingKey i) hmem] at hverify
  obtain rfl : i = j := F.sound i j _ (Bool.and_eq_true_iff.mp hverify).2
  rw [reRooted, createEntry_author] at hauthor
  exact hauthor.trans (hw.instanceId i).symm

/-- **Run.** If no compaction carries over an entry of another, whatever a store makes names it
and is signed with its key. -/
theorem signed_of_created (hw : F.Registered w) (hmoves : ∀ m ∈ moves, m.call.configures = false)
    (hown : OwnCompactions w moves) : ∀ x ∈ created w moves, x.2.author = F.name x.1 ∧
      x.2.signature = some (Crates.sign (F.signingKey x.1) x.2.hash) := by
  induction moves generalizing w with
  | nil => exact fun x hx => by cases hx
  | cons m moves ih =>
    intro x hx
    obtain hx | hx := List.mem_append.mp hx
    · obtain ⟨e, he, rfl⟩ := List.mem_map.mp hx
      exact ⟨(author_of_created hown.1 he).trans (hw.instanceId m.store),
        signature_of_created (hw.signingKey m.store) he⟩
    · exact ih (hw.step (hmoves m List.mem_cons_self))
        (fun y hy => hmoves y (List.mem_cons_of_mem m hy)) hown.2 x hx

/-- **Run.** If all that is made is attributed, no compaction carried over an entry of another. -/
theorem ownCompactions_of_attributed (hw : F.Registered w)
    (hmoves : ∀ m ∈ moves, m.call.configures = false)
    (h : ∀ x ∈ created w moves, F.Attributed x.2) : OwnCompactions w moves := by
  induction moves generalizing w with
  | nil => trivial
  | cons m moves ih =>
    refine ⟨fun hc => hw.ownQuarantine m.env fun e he => ?_, ?_⟩
    · exact h (m.store, e) (List.mem_append_left _ (List.mem_map_of_mem (hc ▸ he)))
    · exact ih (hw.step (hmoves m List.mem_cons_self))
        (fun y hy => hmoves y (List.mem_cons_of_mem m hy)) fun x hx => h x (List.mem_append_right _ hx)

/-- **When signatures are attributable.** Along a run of writes, extensions, merges and
compactions, every entry made is signed, verifies under the key of its author, and is refused
by no other store for its signature, exactly if no store compacts while an entry of another is
in its quarantine. -/
theorem signatures_attributable_iff (hw : F.Registered w)
    (hmoves : ∀ m ∈ moves, m.call.configures = false) :
    (∀ x ∈ created w moves, F.Attributed x.2 ∧ ∀ j, j ≠ x.1 →
      ({ run w moves j with requireSignatures := true } : PyGraphStore).admitsSignature x.2 = true) ↔
      OwnCompactions w moves := by
  constructor
  · exact fun h => ownCompactions_of_attributed hw hmoves fun x hx => (h x hx).1
  · intro hown x hx
    obtain ⟨hauthor, hsig⟩ := signed_of_created hw hmoves hown x hx
    exact ⟨⟨x.1, hauthor, verifies_of_signed hsig⟩,
      fun j hj => (hw.run hmoves).admits hj hauthor hsig⟩

end

end Fleet

namespace Sample

/-- Three stores with keys of their own. -/
def trio : Fleet (Fin 3) where
  name i := ["ann", "bob", "cy"].get i
  signingKey i := [UInt8.ofNat (i + 1)]
  publicKey i := [UInt8.ofNat (i + 1)]
  sized i h := by simp [Crates.sign]
  verifies i h := by simp [Crates.sign, Crates.verify]
  sound i j h hv := by
    have heq : ([UInt8.ofNat (i + 1)] ++ List.replicate 64 0).take 56 =
        ([UInt8.ofNat (j + 1)] ++ List.replicate 64 0).take 56 :=
      List.append_inj_left (beq_iff_eq.mp hv) (by simp)
    clear hv
    revert i j
    decide

/-- One of them, copied from the first entry of the first, with its key and those of all. -/
def member (i : Fin 3) : PyGraphStore :=
  let copy := ((PyGraphStore.fromSnapshot env (trio.name i)
    [PyGraphStore.genesis env "ann" guests]).toOption).getD (freshStore (trio.name i) guests)
  let signing := (copy.exec env (.setSigningKey (trio.signingKey i))).2
  ([0, 1, 2] : List (Fin 3)).foldl
    (fun s j => (s.exec env (.registerTrustedAuthor (trio.name j) (trio.publicKey j))).2) signing

end Sample

namespace Fleet

open PyGraphStore Sample

theorem registered_member : trio.Registered member := by
  refine ⟨by decide +kernel, by decide +kernel, by decide +kernel⟩

theorem reachable_member (i : Fin 3) : Reachable (member i) := by
  obtain ⟨copy, hcopy⟩ : ∃ copy, fromSnapshot env (trio.name i) [genesis env "ann" guests] = .ok copy :=
    exists_ok_of_isOk (by revert i; decide +kernel)
  have hbase : Reachable copy := .fromSnapshot env _ _ hcopy
  rw [member, hcopy]
  exact .call (.call (.call (.call hbase env _) env _) env _) env _

/-- Bob drains an edge between nodes that do not exist, ann merges his log and compacts. -/
def carrying : List (Move (Fin 3)) :=
  let drained : Move (Fin 3) := ⟨1, env, .drain (.addEdge "e" "knows" "ann" "bob" ∅)⟩
  let held := (step member drained 1).oplog.entries.toList.map Prod.snd
  [drained, ⟨0, env, .merge held⟩, ⟨0, env, .compact⟩]

theorem honest_carrying : Honest member carrying := by
  refine ⟨fun es h => (by cases h), fun es h e he => ?_, fun es h => (by cases h), trivial⟩
  injection h with h
  subst h
  obtain ⟨kv, hkv, rfl⟩ := List.mem_map.mp he
  exact ⟨1, kv.1, HashMap.mem_toList.mp hkv⟩

/-- The edge is bob's, ann quarantines it, and makes it anew with bob as its author and a
signature of hers: cy refuses it. -/
theorem signatures_not_attributable : ¬ ∀ (F : Fleet (Fin 3)) (w : Fin 3 → PyGraphStore)
    (moves : List (Move (Fin 3))), (∀ i, Reachable (w i)) → F.Registered w →
    (∀ m ∈ moves, m.call.configures = false) → Honest w moves →
    ∀ x ∈ created w moves, F.Attributed x.2 ∧ ∀ j, j ≠ x.1 →
      ({ run w moves j with requireSignatures := true } : PyGraphStore).admitsSignature x.2 = true := by
  intro h
  have hall := h trio member carrying reachable_member registered_member (by decide) honest_carrying
  have hrefused : (created member carrying).all (fun x => x.1 == 2 ||
      ({ run member carrying 2 with requireSignatures := true } : PyGraphStore).admitsSignature x.2) =
      false := by decide +kernel
  have hadmitted : (created member carrying).all (fun x => x.1 == 2 ||
      ({ run member carrying 2 with requireSignatures := true } : PyGraphStore).admitsSignature x.2) =
      true := List.all_eq_true.mpr fun x hx => by
    by_cases hx2 : x.1 = 2
    · simp [hx2]
    · simp [(hall x hx).2 2 (Ne.symm hx2)]
  rw [hrefused] at hadmitted
  cases hadmitted

/-- Ann adds a node and compacts: two entries are made, both in her name. -/
theorem signatures_attributable_iff_own :
    let moves : List (Move (Fin 3)) :=
      [⟨0, env, .addNode "ann" "person" "Ann" ∅ none⟩, ⟨0, env, .compact⟩]
    ((created member moves).map fun x => x.2.author) = ["ann", "ann"] ∧
      ∀ x ∈ created member moves, trio.Attributed x.2 ∧ ∀ j, j ≠ x.1 →
        ({ run member moves j with requireSignatures := true } : PyGraphStore).admitsSignature x.2 =
          true := by
  intro moves
  refine ⟨by decide +kernel, (signatures_attributable_iff registered_member (by decide)).mpr
    ⟨fun h => (by cases h), fun _ => ?_, trivial⟩⟩
  have hnone : (step member ⟨0, env, .addNode "ann" "person" "Ann" ∅ none⟩ 0).graph.quarantined.isEmpty =
      true := by decide +kernel
  intro x hx
  rw [Std.ExtTreeMap.isEmpty_iff.mp hnone] at hx
  exact absurd hx Std.ExtTreeMap.not_mem_empty

end Fleet

end SilkGraph
