import SilkGraph.Graph.Reflects
import SilkGraph.GraphStore.Conformance
import SilkGraph.GraphStore.Identity
import SilkGraph.Sync.Delivery

/-!
# Two stores that write and sync

A store pulls from a peer: it sends an offer, the peer answers with what the offer lacks, and
the store merges the answer. Two logs that have grown over a common base, without further
checkpoints, can always be merged (`Grown`), and the graph of a store that writes and pulls
keeps reflecting its log (`Advances`): everything the log holds beyond the base is absorbed
or in quarantine.

Updates are followed only as far as they find their entity. Hashes are taken to tell entries
apart, including the operations a checkpoint replays as entries (`NoCollision`).
-/

namespace SilkGraph

open OpLog MaterializedGraph

/-! ### What graphs are made of -/

section Sources

variable [Crates] {A B L : OpLog} {x : Entry}

/-- The entries a graph is made of: those stored, and the operations of checkpoints, which
are replayed as entries of their own. -/
inductive Source (L : OpLog) : Entry → Prop where
  | stored {h : Hash} {e : Entry} (held : L.entries[h]? = some e) : Source L e
  | op {e : Entry} {ops : List GraphOp} {opClocks : List (ℕ × ℕ)} {lc ft : ℕ} (src : Source L e)
      (checkpoint : e.payload = .checkpoint ops opClocks lc ft) (i : ℕ) {op : GraphOp}
      (get : ops[i]? = some op) : Source L (Entry.new op [] [] (opClock e opClocks i) e.author)

theorem Source.of_stored {src : Entry → Prop} (h : Source L x)
    (stored : L.All fun _ e => src e)
    (op : ∀ (e : Entry) ops opClocks lc ft, src e → e.payload = .checkpoint ops opClocks lc ft →
      ∀ (i : ℕ) (op : GraphOp), ops[i]? = some op →
        src (Entry.new op [] [] (opClock e opClocks i) e.author)) : src x := by
  induction h with
  | stored held => exact stored _ _ held
  | op _ checkpoint i get ih => exact op _ _ _ _ _ ih checkpoint i _ get

theorem Source.mono (h : Source A x) (hsub : Within A B) : Source B x :=
  h.of_stored (fun _ _ he => .stored (hsub _ _ he)) fun _ _ _ _ _ hs hc i _ hg => hs.op hc i hg

theorem Source.verifyHash (h : Source L x) (hL : L.RepInv) : x.verifyHash := by
  cases h with
  | stored held => exact (hL.keyed _ _ held).2
  | op => exact Entry.verifyHash_new ..

/-- BLAKE3 gives no two of the entries the same hash unless their contents are the same. -/
def NoCollision (src : Entry → Prop) : Prop :=
  ∀ x y, src x → src y → Crates.contentHash x.content = Crates.contentHash y.content →
    x.content = y.content

/-- The sources of two logs. -/
def SourceOf (A B : OpLog) (x : Entry) : Prop := Source A x ∨ Source B x

theorem NoCollision.mono {src src' : Entry → Prop} (h : NoCollision src)
    (hle : ∀ x, src' x → src x) : NoCollision src' :=
  fun x y hx hy => h x y (hle x hx) (hle y hy)

theorem NoCollision.within {C : OpLog} (h : NoCollision (SourceOf C B)) (hsub : Within A C) :
    NoCollision (SourceOf A B) :=
  h.mono fun _ hx => hx.imp_left fun hA => hA.mono hsub

theorem NoCollision.agree (h : NoCollision (SourceOf A B)) (hA : A.RepInv) (hB : B.RepInv) :
    Agree A B := by
  have hcf : CollisionFree A B := fun i j a b ha hb =>
    h a b (.inl (.stored ha)) (.inr (.stored hb))
  exact hcf.agree hA hB

/-- The operations of a checkpoint, as entries. -/
def opEntries (e : Entry) : List Entry :=
  match e.payload with
  | .checkpoint ops opClocks _ _ =>
    ops.mapIdx fun i op => Entry.new op [] [] (opClock e opClocks i) e.author
  | _ => []

/-- The sources of a log without checkpoints inside checkpoints, listed. -/
def sourcesOf (L : OpLog) : List Entry :=
  let stored := L.entries.toList.map Prod.snd
  stored ++ stored.flatMap opEntries

theorem Source.mem_sourcesOf (h : Source L x) (hflat : ∀ e ∈ (L.entries.toList.map Prod.snd).flatMap opEntries,
    e.payload.isCheckpoint = false) : x ∈ sourcesOf L := by
  refine h.of_stored (fun h e he => ?_) fun e ops opClocks lc ft he hcp i op hg => ?_
  · exact List.mem_append_left _ (List.mem_map.mpr ⟨(h, e), HashMap.mem_toList.mpr he, rfl⟩)
  · obtain he | he := List.mem_append.mp he
    · refine List.mem_append_right _ (List.mem_flatMap.mpr ⟨e, he, ?_⟩)
      rw [opEntries, hcp]
      exact List.mem_iff_getElem?.mpr ⟨i, by rw [List.getElem?_mapIdx, hg, Option.map_some]⟩
    · have := hflat e he
      rw [hcp] at this
      cases this

/-- Sources that all hash differently do not collide. -/
theorem NoCollision.of_list {l : List Entry} {src : Entry → Prop} (hsrc : ∀ x, src x → x ∈ l)
    (hnd : (l.map fun x => Crates.contentHash x.content).Nodup) : NoCollision src :=
  fun x y hx hy heq =>
    congrArg Entry.content (List.inj_on_of_nodup_map hnd (hsrc x hx) (hsrc y hy) heq)

end Sources

/-! ### Logs that grow over a base -/

section Logs

variable [Crates] {base A B L : OpLog} {new : List Entry}

/-- The log has grown over a base: what came is no checkpoint and has parents, and nothing
refers to anything but its parents. -/
structure Grown (base L : OpLog) : Prop where
  wellFormed : L.WellFormed
  nextNodup : L.NextNodup
  noRefs : L.All fun _ e => e.refs = []
  within : Within base L
  later : L.All fun h e => base.entries[h]? = some e ∨ e.payload.isCheckpoint = false ∧ e.next ≠ []

theorem Grown.listable (h : Grown base L) : L.Listable := by
  refine ⟨h.wellFormed, fun x e he r hr => ?_, h.nextNodup⟩
  rw [h.noRefs x e he] at hr
  cases hr

/-- A listing of such a log exists and is complete. -/
theorem Grown.listing (h : Grown base L) : ∃ all, L.entriesSince none = some all ∧
    ∀ e, e ∈ all ↔ L.entries[e.hash]? = some e := by
  obtain ⟨all, hall, -, hmem, -⟩ := entriesSince_none_spec h.wellFormed h.nextNodup
    h.listable.refsStored
  exact ⟨all, hall, hmem⟩

theorem Grown.later_of_fresh (h : Grown base L) {e : Entry} (he : L.entries[e.hash]? = some e)
    (fresh : e.hash ∉ base.entries) : e.payload.isCheckpoint = false ∧ e.next ≠ [] :=
  (h.later _ e he).resolve_left fun hb => fresh (HashMap.mem_iff_getElem?.mpr ⟨e, hb⟩)

theorem Grown.inserts (h : Grown base A) (hi : Inserts A new B)
    (hnew : ∀ e ∈ new, e.payload.isCheckpoint = false ∧ e.next ≠ [] ∧ e.next.Nodup ∧ e.refs = []) :
    Grown base B := by
  refine ⟨hi.wellFormed h.wellFormed, fun x e he => ?_, fun x e he => ?_,
    fun x e he => hi.within x e (h.within x e he), fun x e he => ?_⟩ <;>
    obtain he | ⟨he, -⟩ := hi.source he
  · exact h.nextNodup x e he
  · exact (hnew e he).2.2.1
  · exact h.noRefs x e he
  · exact (hnew e he).2.2.2
  · exact h.later x e he
  · exact .inr ⟨(hnew e he).1, (hnew e he).2.1⟩

/-- Inserting what another such log holds. -/
theorem Grown.inserts_from (hA : Grown base A) (hL : Grown base L) (hi : Inserts A new B)
    (hnew : ∀ e ∈ new, L.entries[e.hash]? = some e) : Grown base B := by
  refine hA.inserts hi fun e he => ?_
  have hget := hnew e he
  obtain ⟨hcp, hnext⟩ := hL.later_of_fresh hget fun hb => hi.fresh.1 e he (hA.within.mem hb)
  exact ⟨hcp, hnext, hL.nextNodup _ e hget, hL.noRefs _ e hget⟩

end Logs

/-! ### Entries to look for -/

section Since

variable [Crates] {base A B L : OpLog} {W : Hash → Prop} {e : Entry}

/-- An update is followed only if its hash is among the given ones. -/
def Followed (W : Hash → Prop) (e : Entry) : Prop :=
  ∀ id k v, e.payload = .updateProperty id k v → W e.hash

/-- The entry is held, not by the base, and followed. -/
structure Since (base : OpLog) (W : Hash → Prop) (L : OpLog) (e : Entry) : Prop where
  held : L.entries[e.hash]? = some e
  fresh : e.hash ∉ base.entries
  followed : Followed W e

/-- Such entries are no operations of a checkpoint, and have their hashes for themselves. -/
theorem Grown.distinct (h : Grown base L) (hc : NoCollision (Source L)) :
    Distinct (Source L) (Since base W L) := by
  refine ⟨fun e ops opClocks lc ft hs hp i op hg => hs.op hp i hg, fun a ha p hp hh => ?_,
    fun a ha => (h.later_of_fresh ha.held ha.fresh).2⟩
  have hrep := h.wellFormed.rep
  have hcontent : p.content = a.content := by
    refine hc p a hp (.stored ha.held) ?_
    rw [← Entry.verifyHash_iff.mp (hp.verifyHash hrep),
      ← Entry.verifyHash_iff.mp (hrep.keyed _ a ha.held).2, hh]
  cases hp with
  | stored held =>
    obtain ⟨rfl, -⟩ := hrep.keyed _ p held
    rw [hh, ha.held] at held
    exact (Option.some.inj held).symm
  | op =>
    -- an operation of a checkpoint has no parents
    have hnext := congrArg SignableContent.next hcontent
    exact absurd hnext.symm (h.later_of_fresh ha.held ha.fresh).2

end Since

namespace PyGraphStore

section

variable [Crates] {base : OpLog} {W : Hash → Prop} {s t u peer : PyGraphStore} {env : Env} {op : GraphOp}
  {es : List Entry}

/-- What one step of a store does: its log stays grown over the base, nothing is lost, and if
hashes tell entries apart its graph goes on reflecting the log. -/
structure Advances (base : OpLog) (W : Hash → Prop) (s t : PyGraphStore) : Prop where
  grown : Grown base t.oplog
  within : Within s.oplog t.oplog
  reflects : NoCollision (Source t.oplog) → s.graph.Reflects (Source s.oplog) (Since base W s.oplog) →
    t.graph.Reflects (Source t.oplog) (Since base W t.oplog)

theorem Advances.of_eq (hs : Grown base s.oplog) (log : t.oplog = s.oplog) (graph : t.graph = s.graph) :
    Advances base W s t := by
  refine ⟨log ▸ hs, ?_, ?_⟩ <;> rw [log]
  · exact fun _ _ he => he
  · exact fun _ hr => graph ▸ hr

theorem Advances.trans (h : Advances base W s t) (h' : Advances base W t u) : Advances base W s u := by
  refine ⟨h'.grown, fun x e he => h'.within x e (h.within x e he), fun hc hr => ?_⟩
  exact h'.reflects hc (h.reflects (hc.mono fun _ hx => hx.mono h'.within) hr)

/-! ### Local writes -/

/-- The updates to follow find their entities when the graph is rebuilt from the log. -/
def LogFinds (self : PyGraphStore) (W : Hash → Prop) (env : Env) : Prop :=
  ∀ all, self.oplog.entriesSince none = some all →
    Finds (Followed W) (materialize env.order) (secondPass self.graph.baseOntology all) all

/-- A written update that is to be followed finds its entity. -/
def UpdateFinds (self : PyGraphStore) (W : Hash → Prop) (env : Env) (op : GraphOp) : Prop :=
  W (self.writtenEntry env op).hash → ∀ id k v, op = .updateProperty id k v →
    (self.graph.slot id).Occupied

/-- An append of anything but a checkpoint ends in an error and leaves log and graph alone,
or inserts its entry and applies it. -/
theorem append_outcome (hs : s.oplog.WellFormed) (commits : env.txn 0 = .ok ())
    (hop : op.isCheckpoint = false) (fresh : (s.writtenEntry env op).hash ∉ s.oplog.entries) :
    let e := s.writtenEntry env op
    let t := (s.append env op).2
    ((∃ err, (s.append env op).1 = .error err) ∧ t.oplog = s.oplog ∧ t.graph = s.graph) ∨
    (∃ hex, (s.append env op).1 = .ok hex) ∧ Inserts s.oplog [e] t.oplog ∧ e.next ≠ [] ∧
      t.graph = s.graph.apply env.order e := by
  intro e t
  have he : e = s.writtenEntry env op := rfl
  have hnext : ∀ p, p ∈ e.next ↔ p ∈ s.oplog.heads := fun p => by
    rw [he, writtenEntry, createEntry_next, HashOrder.mem_walk, Std.ExtTreeSet.mem_toList]
  have hheads : ∀ p ∈ s.oplog.heads, p ∈ s.oplog.entries := fun p hp => ((hs.rep.heads p).mp hp).1
  have hvalid : e.verifyHash := verifyHash_createEntry ..
  have hparents : ∀ p ∈ e.next, p ∈ s.oplog.entries := fun p hp => hheads p ((hnext p).mp hp)
  have hcommits : s.Commits env op := by
    rw [Commits]
    split
    · trivial
    · exact .inr (.inl commits)
  obtain ⟨reason, -, hrun⟩ | ⟨hv, msg, -, hrun⟩ | ⟨-, b, -, hrun⟩ := s.append_cases env op
  · exact .inl ⟨⟨_, congrArg Prod.fst hrun⟩, by rw [show t = _ from congrArg Prod.snd hrun]; rfl,
      by rw [show t = _ from congrArg Prod.snd hrun]; rfl⟩
  · -- the transaction commits, so an entry that validates is appended
    obtain ⟨hex, hok⟩ := append_of_writes hs.nonempty hheads hop ⟨hv, hcommits⟩
    rw [hrun] at hok
    cases hok
  · have ht : t = _ := congrArg Prod.snd hrun
    refine .inr ⟨⟨_, congrArg Prod.fst hrun⟩, ?_, fun hnil => ?_, by rw [ht]⟩
    · have hlog : t.oplog = (s.oplog.append e).2 := by
        rw [ht]
        exact Backend.append_oplog ..
      rw [hlog, append_eq_insertEntry hs.nonempty hvalid fresh (by simp [Entry.isRootCheckpoint, e, hop])
        hparents]
      exact .single hvalid fresh hparents
    · -- a log that holds something has a head
      obtain ⟨h, hh⟩ : ∃ h, h ∈ s.oplog.entries := by
        by_contra hno
        push Not at hno
        exact hs.nonempty (Std.ExtTreeMap.eq_empty_iff_forall_not_mem.mpr hno)
      obtain ⟨p, hp, -⟩ := hs.exists_head hh
      have := (hnext p).mpr hp
      rw [hnil] at this
      cases this

/-- **Step.** An append. -/
theorem Advances.append (hs : Grown base s.oplog) (commits : env.txn 0 = .ok ())
    (hop : op.isCheckpoint = false) (fresh : (s.writtenEntry env op).hash ∉ s.oplog.entries)
    (finds : s.UpdateFinds W env op) : Advances base W s (s.append env op).2 := by
  obtain ⟨-, hlog, hgraph⟩ | ⟨-, hi, hnext, hgraph⟩ :=
    append_outcome hs.wellFormed commits hop fresh
  · exact .of_eq hs hlog hgraph
  · set e := s.writtenEntry env op with he
    have hgrown : Grown base (s.append env op).2.oplog := hs.inserts hi fun x hx => by
      obtain rfl := List.mem_singleton.mp hx
      refine ⟨by rw [he, writtenEntry_payload, hop], hnext, ?_, writtenEntry_refs ..⟩
      rw [he, writtenEntry, createEntry_next, (env.order.perm _).nodup_iff]
      exact HashSet.nodup_toList
    refine ⟨hgrown, hi.within, fun hc hr => ?_⟩
    rw [hgraph, MaterializedGraph.apply]
    have hsub : ∀ a, Since base W s.oplog a → Since base W (s.append env op).2.oplog a := fun a ha =>
      ⟨hi.within _ _ ha.held, ha.fresh, ha.followed⟩
    refine (hr.mono (fun _ hx => hx.mono hi.within) fun _ => id).applyInner (hgrown.distinct hc)
      env.order .full true (.stored (hi.get_new List.mem_cons_self)) hsub (fun a ha => ⟨ha, ?_⟩) ?_
    · obtain hold | ⟨hnew, -⟩ := hi.source ha.held
      · exact .inl ⟨hold, ha.fresh, ha.followed⟩
      · exact .inr (List.mem_singleton.mp hnew)
    · intro ha id k v hp
      exact finds (ha.followed id k v hp) id k v (by rw [← hp, he, writtenEntry_payload])

/-- A graph that was rebuilt from the log reflects it. -/
theorem reflects_rebuild (hs : Grown base s.oplog) (hc : NoCollision (Source s.oplog))
    (g : MaterializedGraph) {all : List Entry} (hall : s.oplog.entriesSince none = some all)
    (finds : Finds (Followed W) (materialize env.order) (secondPass g.baseOntology all) all) :
    (g.rebuild env.order all).Reflects (Source s.oplog) (Since base W s.oplog) := by
  obtain ⟨all', hall', hmem⟩ := hs.listing
  obtain rfl := Option.some.inj (hall.symm.trans hall')
  refine (Reflects.rebuild (hs.distinct hc) (fun a ha => ha.followed) g
    (fun e he => .stored ((hmem e).mp he)) finds).mono (fun _ => id) fun a ha => ⟨ha, ?_⟩
  exact (hmem a).mpr ha.held

/-- **Step.** A rebuild from the log. -/
theorem Advances.revalidate (hs : Grown base s.oplog) (finds : s.LogFinds W env) :
    Advances base W s (s.revalidate env).2 := by
  obtain ⟨all, hall, -⟩ := hs.listing
  have hlog := revalidate_log s env
  refine ⟨hlog ▸ hs, ?_, fun hc _ => ?_⟩
  · rw [hlog]
    exact fun _ _ he => he
  · have hgraph : (s.revalidate env).2.graph = s.graph.rebuild env.order all := by
      rw [PyGraphStore.revalidate, hall]
    rw [hlog] at hc ⊢
    rw [hgraph]
    exact reflects_rebuild hs hc s.graph hall (finds all hall)

/-- The condition on a local write. -/
structure WriteFinds (s : PyGraphStore) (W : Hash → Prop) (env : Env) (c : Call) : Prop where
  update : ∀ op, c.written = some op → s.UpdateFinds W env op
  log : ∀ x, c = .extendOntology x → (s.append env (.extendOntology x)).2.LogFinds W env

/-- The store holds the entry the operation would be appended with. -/
def HoldsWritten (self : PyGraphStore) (s : PyGraphStore) (env : Env) (op : GraphOp) : Prop :=
  self.oplog.entries[(s.writtenEntry env op).hash]? = some (s.writtenEntry env op)

/-- An append that returns leaves the entry in the log. -/
theorem holdsWritten_of_append (hs : s.oplog.WellFormed) (commits : env.txn 0 = .ok ())
    (hop : op.isCheckpoint = false) (fresh : (s.writtenEntry env op).hash ∉ s.oplog.entries)
    {hex : String} (run : (s.append env op).1 = .ok hex) :
    (s.append env op).2.HoldsWritten s env op := by
  obtain ⟨⟨err, herr⟩, -⟩ | ⟨-, hi, -⟩ := append_outcome hs commits hop fresh
  · rw [run] at herr
    cases herr
  · exact hi.get_new List.mem_cons_self

/-- **Step.** A local write. If it returns, its entry is in the log. -/
theorem Advances.write (hs : Grown base s.oplog) (commits : ∀ i, env.txn i = .ok ()) {c : Call}
    (written : c.written = some op) (fresh : (s.writtenEntry env op).hash ∉ s.oplog.entries)
    (finds : s.WriteFinds W env c) : Advances base W s (s.exec env c).2 ∧
      ((s.exec env c).1 = .ok () → (s.exec env c).2.HoldsWritten s env op) := by
  have happend : op.isCheckpoint = false → Advances base W s (s.append env op).2 := fun hop =>
    .append hs (commits 0) hop fresh (finds.update op written)
  have hheld : op.isCheckpoint = false → ∀ hex, (s.append env op).1 = .ok hex →
      (s.append env op).2.HoldsWritten s env op := fun hop hex run =>
    holdsWritten_of_append hs.wellFormed (commits 0) hop fresh run
  -- the call is the append
  have hsame : op.isCheckpoint = false → ∀ r, r = s.append env op → Advances base W s (done r).2 ∧
      ((done r).1 = .ok () → (done r).2.HoldsWritten s env op) := by
    rintro hop _ rfl
    refine ⟨happend hop, fun hok => ?_⟩
    cases hr : (s.append env op).1 with
    | error err => rw [done, hr] at hok; cases hok
    | ok hex => exact hheld hop hex hr
  -- the call is refused, or it is the append and what it changes besides does not matter
  have hrefused : ∀ r : Except PyErr String × PyGraphStore, (∃ err, r = (.error err, s)) →
      Advances base W s (done r).2 ∧ ((done r).1 = .ok () → (done r).2.HoldsWritten s env op) := by
    rintro _ ⟨err, rfl⟩
    exact ⟨.of_eq hs rfl rfl, fun h => by cases h⟩
  have hnoted : op.isCheckpoint = false → ∀ (r : Except PyErr String × PyGraphStore)
      (m : HashMap String String),
      ((∃ err, (s.append env op).1 = .error err ∧ r = (.error err, (s.append env op).2)) ∨
        ∃ hex, (s.append env op).1 = .ok hex ∧
          r = (.ok hex, { (s.append env op).2 with nodeTypes := m })) →
      Advances base W s (done r).2 ∧ ((done r).1 = .ok () → (done r).2.HoldsWritten s env op) := by
    rintro hop _ m (⟨err, -, rfl⟩ | ⟨hex, hok, rfl⟩)
    · exact ⟨happend hop, fun h => by cases h⟩
    · exact ⟨(happend hop).trans (.of_eq (happend hop).grown rfl rfl), fun _ => hheld hop hex hok⟩
  cases c with
  | addNode id ty lb ps st =>
    obtain rfl := Option.some.inj written
    obtain ⟨e, -, hrun⟩ | ⟨-, hrun⟩ := s.addNode_cases env id ty lb ps st
    · exact hrefused _ ⟨_, hrun⟩
    · exact hnoted rfl _ _ hrun
  | addEdge id ty src tgt ps =>
    obtain rfl := Option.some.inj written
    obtain ⟨e, hrun⟩ | ⟨_, _, -, -, -, hrun⟩ := s.addEdge_cases env id ty src tgt ps
    · exact hrefused _ ⟨_, hrun⟩
    · exact hsame rfl _ hrun
  | updateProperty id k v =>
    obtain rfl := Option.some.inj written
    exact hsame rfl _ rfl
  | removeEdge id =>
    obtain rfl := Option.some.inj written
    exact hsame rfl _ rfl
  | removeNode id =>
    obtain rfl := Option.some.inj written
    -- the type is forgotten before the append
    let s' : PyGraphStore := { s with nodeTypes := s.nodeTypes.erase id }
    have hs' : Grown base s'.oplog := hs
    have hfresh : (s'.writtenEntry env (.removeNode id)).hash ∉ s'.oplog.entries := fresh
    refine ⟨(Advances.of_eq hs rfl rfl : Advances base W s s').trans
      (.append hs' (commits 0) rfl hfresh fun _ id k v h => by cases h), fun hok => ?_⟩
    cases hr : (s'.append env (.removeNode id)).1 with
    | error err =>
      have hrun : (s.exec env (.removeNode id)).1 = (s'.append env (.removeNode id)).1.map fun _ => () :=
        rfl
      rw [hrun, hr] at hok
      cases hok
    | ok hex => exact holdsWritten_of_append hs'.wellFormed (commits 0) rfl hfresh hr
  | drain op' =>
    obtain rfl := Option.some.inj written
    obtain ⟨e, hrun⟩ | ⟨hop, hrun⟩ := s.drainOp_cases env op'
    · exact hrefused _ ⟨_, hrun⟩
    · exact hnoted (Bool.or_eq_false_iff.mp hop).2 _ _ hrun
  | extendOntology x =>
    obtain rfl := Option.some.inj written
    obtain ⟨e, hrun⟩ | ⟨-, -, ⟨err, -, hrun⟩ | ⟨hex, hok, hrun, -⟩⟩ := s.extendOntology_cases env x
    · exact hrefused _ ⟨_, hrun⟩
    · simp only [PyGraphStore.exec, hrun]
      exact ⟨happend rfl, fun h => by cases h⟩
    · let t : PyGraphStore := { (s.append env (.extendOntology x)).2 with
        ontology := ((s.append env (.extendOntology x)).2.ontology.mergeExtension x).2 }
      have ht : Advances base W s t := (happend rfl).trans (.of_eq (happend rfl).grown rfl rfl)
      have hrun : (s.exec env (.extendOntology x)).2 = (t.revalidate env).2 := by
        rw [PyGraphStore.exec, done_snd, hrun]
      have hre : Advances base W t (t.revalidate env).2 := .revalidate ht.grown (finds.log x rfl)
      rw [hrun]
      exact ⟨ht.trans hre, fun _ => hre.within _ _ (hheld rfl hex hok)⟩
  | _ => cases written

/-! ### Pulls -/

/-- What a peer answers to the offer of the store. -/
def request (self peer : PyGraphStore) (env : Env) : Option (List Entry) := do
  let offer ← SyncOffer.fromOplog env.order self.oplog self.clock.physicalMs self.clock.logical
  let payload ← entriesMissing peer.oplog offer
  pure payload.entries

/-- One direction of a sync: offer, answer and merge. -/
def pull (self peer : PyGraphStore) (env : Env) : Except PyErr ℕ × PyGraphStore :=
  match self.request peer env with
  | none => (.error .panic, self)
  | some entries => self.mergeEntriesVec env entries

/-- The clock of the entry is not too far ahead, and its signature passes. -/
def trusts (self : PyGraphStore) (e : Entry) : Bool :=
  (e.payload.isDefineOntology ||
    e.clock.physicalMs ≤ u64SaturatingAdd self.clock.physicalMs maxClockDrift) &&
  self.admitsSignature e

/-- The store trusts every entry of the peer that it lacks. -/
def TrustsPeer (self peer : PyGraphStore) : Prop :=
  peer.oplog.All fun h e => h ∉ self.oplog.entries → self.trusts e = true

/-- The updates to follow find their entities in a merge. -/
def MergeFinds (self : PyGraphStore) (W : Hash → Prop) (env : Env) (entries : List Entry) : Prop :=
  let batch := entries.filter self.admits
  let merged := self.backend.merge env.order (env.txn 0) batch
  ∀ n all, merged.1 = .ok (n + 1) → merged.2.oplog.entriesSince none = some all →
    if batch.any isSchemaChange then
      Finds (Followed W) (materialize env.order) (secondPass self.graph.baseOntology all) all
    else Finds (Followed W) (fun g e => g.apply env.order e) self.graph (listedOf all batch)

/-- The updates to follow find their entities in a pull. -/
def PullFinds (self peer : PyGraphStore) (W : Hash → Prop) (env : Env) : Prop :=
  ∀ entries, self.request peer env = some entries → self.MergeFinds W env entries

theorem admits_of_trusts {e : Entry} (h : s.trusts e = true) (hc : e.payload.isCheckpoint = false) :
    s.admits e = true := by
  rw [trusts, Bool.and_eq_true, Bool.or_eq_true, decide_eq_true_eq] at h
  have hdrift : ¬ (!e.payload.isDefineOntology &&
      u64SaturatingAdd s.clock.physicalMs maxClockDrift < e.clock.physicalMs) = true := by
    rw [Bool.and_eq_true, decide_eq_true_eq]
    rintro ⟨hdef, hlt⟩
    obtain hdef' | hle := h.1
    · simp [hdef'] at hdef
    · omega
  rw [admits, hc, Bool.false_and, Bool.false_and, if_neg (by simp), if_neg hdrift]
  exact h.2

/-- The peer answers, with entries that meet `EntriesMissing`. -/
theorem request_spec (hs : s.oplog.Listable) (hpeer : peer.oplog.Listable) (env : Env) :
    ∃ heads entries, s.request peer env = some entries ∧ EntriesMissing peer.oplog heads entries ∧
      ∀ h ∈ heads, h ∈ s.oplog.entries := by
  obtain ⟨offer, hoffer, hdims, hheads⟩ := SyncOffer.fromOplog_spec hs.wellFormed hs.nextNodup
    hs.refsStored env.order s.clock.physicalMs s.clock.logical
  obtain ⟨payload, hpay, hp⟩ := entriesMissing_spec hpeer.wellFormed hpeer.nextNodup
    hpeer.refsStored offer hdims
  refine ⟨offer.heads, payload.entries, ?_, hp, fun h hh => ?_⟩
  · simp only [request, hoffer, Option.bind_eq_bind, Option.bind_some, hpay]
    rfl
  · exact ((hs.wellFormed.rep.heads h).mp ((hheads h).mp hh)).1

/-- A merge whose loop goes through counts the new entries, if its transaction commits. -/
theorem merge_of_ok {b : Backend} {σ : HashOrder} {new : List Entry}
    (hok : (mergeBatch b.oplog es).1 = .ok new) : (b.merge σ (.ok ()) es).1 = .ok new.length := by
  cases b with
  | memory L => exact congrArg Prod.fst (mergeEntries_of_ok hok)
  | persistent st =>
    have hrun : mergeBatch st.oplog es = (.ok new, (mergeBatch st.oplog es).2) := Prod.ext hok rfl
    rw [Backend.merge, Store.merge, hrun]
    cases new with
    | nil => rfl
    | cons a new => cases hm : st.flushMode <;> rfl

/-- **Step.** Whether a pull goes through or not, the log only grows, by what the peer
holds. -/
theorem pull_grows (hs : Grown base s.oplog) (hpeer : Grown base peer.oplog) (env : Env) :
    Grown base (s.pull peer env).2.oplog ∧ Within s.oplog (s.pull peer env).2.oplog ∧
      (s.pull peer env).2.oplog.All fun h e => s.oplog.entries[h]? = some e ∨
        peer.oplog.entries[h]? = some e := by
  obtain ⟨heads, entries, hreq, hp, -⟩ := request_spec hs.listable hpeer.listable env
  rw [pull, hreq]
  dsimp only
  rw [mergeEntriesVec_log]
  have hstored : ∀ e ∈ entries.filter s.admits, peer.oplog.entries[e.hash]? = some e := fun e he =>
    hp.stored e (List.mem_of_mem_filter he)
  -- a parentless checkpoint is in the base, so it is held
  have hn : NoReplace s.oplog (entries.filter s.admits) := fun e he _ hroot => by
    by_contra hno
    have hcp := (hpeer.later_of_fresh (hstored e he) fun hb => hno (hs.within.mem hb)).1
    simp [Entry.isRootCheckpoint, hcp] at hroot
  obtain ⟨new, hsub, hi⟩ := mergeBatch_inserts hs.wellFormed.nonempty hn
  have hnew : ∀ e ∈ new, peer.oplog.entries[e.hash]? = some e := fun e he => hstored e (hsub he)
  refine ⟨hs.inserts_from hpeer hi hnew, hi.within, fun h e he => ?_⟩
  obtain hold | ⟨hmem, rfl⟩ := hi.source he
  · exact .inl hold
  · exact .inr (hnew e hmem)

theorem source_of_pull (hs : Grown base s.oplog) (hpeer : Grown base peer.oplog) {x : Entry}
    (hx : Source (s.pull peer env).2.oplog x) : SourceOf s.oplog peer.oplog x :=
  hx.of_stored (fun h e he => ((pull_grows hs hpeer env).2.2 h e he).imp .stored .stored)
    fun _ _ _ _ _ hs hp i _ hg => hs.imp (fun h => h.op hp i hg) fun h => h.op hp i hg

/-- Entries applied to a graph that reflects the log before them. -/
theorem reflects_applied {σ : HashOrder} {g : MaterializedGraph} {A B : OpLog} {l : List Entry}
    (hr : g.Reflects (Source A) (Since base W A)) (hB : Grown base B) (hsub : Within A B)
    (hc : NoCollision (Source B)) (hl : ∀ e ∈ l, B.entries[e.hash]? = some e)
    (hcover : ∀ e, Since base W B e → Since base W A e ∨ e ∈ l)
    (finds : Finds (Followed W) (fun g e => g.apply σ e) g l) :
    (l.foldl (fun g e => g.apply σ e) g).Reflects (Source B) (Since base W B) := by
  have hgrow : ∀ a, Since base W A a → Since base W B a := fun a ha =>
    ⟨hsub _ _ ha.held, ha.fresh, ha.followed⟩
  have hstep : ∀ (g : MaterializedGraph) (e : Entry),
      (∃ adopt, g.apply σ e = g.applyInner σ e .full adopt) ∨ e.event = none ∧ g.apply σ e = g :=
    fun _ _ => .inl ⟨true, rfl⟩
  refine (Reflects.replay hstep (hB.distinct hc) (fun a ha => ha.followed)
    (fun e he => .stored (hl e he)) (hr.mono (fun _ hx => hx.mono hsub) fun _ => id) hgrow
    finds).mono (fun _ => id) fun a ha => ?_
  exact (hcover a ha).imp_right fun hmem => ⟨ha, hmem⟩

/-- **Step.** A pull from a peer whose entries the store trusts goes through, and afterwards
the store holds what either held. Its graph goes on reflecting its log. -/
theorem pull_goes_through (hs : Grown base s.oplog) (hpeer : Grown base peer.oplog)
    (hc : NoCollision (SourceOf s.oplog peer.oplog)) (commits : env.txn 0 = .ok ())
    (trusts : s.TrustsPeer peer) : (∃ n, (s.pull peer env).1 = .ok n) ∧
      (∀ h, h ∈ (s.pull peer env).2.oplog.entries ↔ h ∈ s.oplog.entries ∨ h ∈ peer.oplog.entries) ∧
      (s.PullFinds peer W env → s.graph.Reflects (Source s.oplog) (Since base W s.oplog) →
        (s.pull peer env).2.graph.Reflects (Source (s.pull peer env).2.oplog)
          (Since base W (s.pull peer env).2.oplog)) := by
  obtain ⟨hgrown, hwithin, -⟩ := pull_grows hs hpeer env
  obtain ⟨heads, es, hreq, hp, hheads⟩ := request_spec hs.listable hpeer.listable env
  have hpull : s.pull peer env = s.mergeEntriesVec env es := by rw [pull, hreq]
  have hlack : ∀ e ∈ es, e.hash ∉ s.oplog.entries → s.admits e = true ∧ ¬ e.isRootCheckpoint := by
    intro e he hno
    have hget := hp.stored e he
    have hcp := (hpeer.later_of_fresh hget fun hb => hno (hs.within.mem hb)).1
    exact ⟨admits_of_trusts (trusts _ e hget hno) hcp, by simp [Entry.isRootCheckpoint, hcp]⟩
  obtain ⟨new, hok, hi, hsub, hunion⟩ := hp.merge_admitted hpeer.wellFormed hs.wellFormed
    (hc.agree hs.wellFormed.rep hpeer.wellFormed.rep).symm hheads s.admits hlack
  have hlog : (s.pull peer env).2.oplog = (mergeBatch s.oplog (es.filter s.admits)).2 := by
    rw [hpull, mergeEntriesVec_log]
  have hcount : (s.backend.merge env.order (env.txn 0) (es.filter s.admits)).1 = .ok new.length := by
    rw [commits]
    exact merge_of_ok hok
  have hmerged : (s.backend.merge env.order (env.txn 0) (es.filter s.admits)).2.oplog =
      (s.pull peer env).2.oplog := by
    rw [hlog]
    exact Backend.merge_oplog ..
  have hcol : NoCollision (Source (s.pull peer env).2.oplog) := hc.mono fun x hx =>
    source_of_pull hs hpeer hx
  obtain ⟨all, hall, hmem⟩ := hgrown.listing
  rw [← hlog] at hi hunion
  obtain ⟨hdone, hgraph⟩ := mergeEntriesVec_of_ok s env es (Prod.ext hcount rfl)
    (by rw [hmerged]; exact hall)
  refine ⟨⟨new.length, by rw [hpull]; exact hdone⟩, fun h => (hunion h).trans or_comm, fun finds hr => ?_⟩
  rw [← hpull] at hgraph
  cases new with
  | nil =>
    -- nothing was inserted
    have hsame : (s.pull peer env).2.oplog = s.oplog := by
      generalize (s.pull peer env).2.oplog = L at hi
      cases hi
      rfl
    rw [hsame, hgraph]
    exact hr
  | cons a new =>
    have hfinds := finds es hreq new.length all hcount (by rw [hmerged]; exact hall)
    rw [hgraph, if_neg (List.length_cons ▸ Nat.succ_ne_zero _)]
    split <;> rename_i hschema
    · rw [if_pos hschema] at hfinds
      exact reflects_rebuild hgrown hcol s.graph hall hfinds
    · rw [if_neg hschema] at hfinds
      refine reflects_applied hr hgrown hwithin hcol (fun e he => ?_) (fun e he => ?_) hfinds
      · exact (hmem e).mp (mem_listedOf.mp he).1
      · obtain hold | ⟨hnew, -⟩ := hi.source he.held
        · exact .inl ⟨hold, he.fresh, he.followed⟩
        · exact .inr (mem_listedOf.mpr ⟨(hmem e).mpr he.held, List.mem_map_of_mem (hsub hnew)⟩)

end

end PyGraphStore

end SilkGraph
