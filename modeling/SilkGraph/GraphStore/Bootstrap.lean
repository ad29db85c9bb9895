import SilkGraph.Graph.Visible
import SilkGraph.GraphStore.Calls
import SilkGraph.GraphStore.MergeLog
import SilkGraph.OpLog.Order

/-!
# Bootstrapping from a snapshot

A snapshot is the listing of a log. `from_snapshot` makes its first entry the genesis of a
new log, takes the base ontology from it, and merges the rest. The copy is faithful if the
listing is complete, no later entry is a parentless checkpoint (which replaces what was
merged before it), and the first entry's ontology leads to the same ontology as the store's
own base (`snapshot_bootstraps`).
-/

namespace SilkGraph

open OpLog MaterializedGraph

/-- The ontology that the first pass of a rebuild folds from a base. -/
def declaredOntology (base : Ontology) (entries : List Entry) : Ontology :=
  entries.foldl (fun o e => e.payload.declare o) base

/-- A checkpoint as compaction writes it: it neither extends an ontology nor holds another
checkpoint. -/
def Entry.plainCheckpoint (e : Entry) : Bool :=
  match e.payload with
  | .checkpoint ops _ _ _ => ops.all fun op => !op.isExtendOntology && !op.isCheckpoint
  | _ => true

theorem evolveAll_of_plain {ops : List GraphOp}
    (h : (ops.all fun op => !op.isExtendOntology && !op.isCheckpoint) = true) (ontology : Ontology) :
    GraphOp.evolveAll false ops ontology = ontology := by
  induction ops with
  | nil => rw [GraphOp.evolveAll]
  | cons op ops ih =>
    rw [List.all_cons, Bool.and_eq_true] at h
    cases op with
    | extendOntology => cases h.1
    | checkpoint => cases h.1
    | defineOntology carried =>
      rw [GraphOp.evolveAll, if_neg Bool.false_ne_true]
      exact ih h.2
    | _ =>
      rw [GraphOp.evolveAll, GraphOp.evolve]
      · exact ih h.2
      all_goals simp

/-- With such checkpoints the first pass already finds the ontology in force. -/
theorem effectiveOntology_of_plain {entries : List Entry} (h : ∀ e ∈ entries, e.plainCheckpoint)
    (base : Ontology) : effectiveOntology base entries = declaredOntology base entries := by
  have hsame : ∀ (l : List Entry), (∀ e ∈ l, e.plainCheckpoint) → ∀ o : Ontology,
      l.foldl (fun o e => e.payload.redeclare o) o = o := by
    intro l
    induction l with
    | nil => exact fun _ o => rfl
    | cons e l ih =>
      intro hl o
      have he := hl e List.mem_cons_self
      have hstep : e.payload.redeclare o = o := by
        obtain ⟨hash, payload, next, refs, clock, author, signature⟩ := e
        cases payload with
        | checkpoint ops opClocks p c =>
          change GraphOp.evolve false _ o = o
          rw [GraphOp.evolve]
          exact evolveAll_of_plain he o
        | _ => rfl
      rw [List.foldl_cons, hstep]
      exact ih (fun x hx => hl x (List.mem_cons_of_mem _ hx)) o
  exact hsame entries h _

namespace PyGraphStore

/-- A full snapshot: the listing of the log; `none` is the panic. -/
def snapshot (self : PyGraphStore) : Option (List Entry) := self.oplog.entriesSince none

section

variable [Crates] {s : PyGraphStore} {L : OpLog} {g : Entry} {rest : List Entry}

/-- The copy made from the store's snapshot has its entries and heads, and shows what a
rebuild of the log from the store's base shows. -/
def Bootstraps (self : PyGraphStore) (env : Env) (id : String) : Prop :=
  ∃ all s', self.snapshot = some all ∧ fromSnapshot env id all = .ok s' ∧
    (∀ h : Hash, s'.oplog.entries[h]? = self.oplog.entries[h]?) ∧
    (∀ h, h ∈ s'.oplog.heads ↔ h ∈ self.oplog.heads) ∧
    Visible s'.graph (self.graph.rebuild env.order all) ∧
    s'.ontology = (self.graph.rebuild env.order all).ontology

/-- The condition: a listing that is complete and starts with an ontology that leads to the
store's own, without a parentless checkpoint after the first entry. -/
structure SnapshotSound (t : PyGraphStore) : Prop where
  listable : t.oplog.Listable
  first : ∃ g rest base, t.oplog.entriesSince none = some (g :: rest) ∧
    extractOntologyFromGenesis g = .ok base ∧ (∀ e ∈ rest, ¬ e.isRootCheckpoint) ∧
    declaredOntology base (g :: rest) = declaredOntology t.graph.baseOntology (g :: rest)

/-! ### Merging a listing into its first entry -/

/-- Every entry of a listing is resolvable over the first. -/
theorem resolvable_of_listed (hL : L.WellFormed) (hlist : L.All fun _ e => e ∈ g :: rest)
    {h : Hash} (hh : h ∈ L.entries) : Resolvable (OpLog.new g) rest h := by
  obtain ⟨rank, hrank⟩ := hL.causal
  induction hn : rank h using Nat.strong_induction_on generalizing h with
  | _ n ih =>
    subst hn
    obtain ⟨e, he⟩ := HashMap.mem_iff_getElem?.mp hh
    obtain ⟨rfl, hvalid⟩ := hL.rep.keyed h e he
    obtain rfl | hmem := List.mem_cons.mp (hlist _ e he)
    · exact .held (HashMap.mem_iff_getElem?.mpr ⟨e, by rw [getElem?_new, if_pos rfl]⟩)
    · refine .entry hmem hvalid fun p hp => ?_
      have hp' : p ∈ L.nextOf e.hash := by rwa [nextOf_eq_of_get he]
      exact ih _ (hrank _ p hp') (hL.rep.parentClosed _ hh p hp') rfl

/-- Merging the rest of a listing into its first entry gives the log back. -/
theorem merge_listing (hL : L.Listable) (hes : L.entriesSince none = some (g :: rest))
    (hroots : ∀ e ∈ rest, ¬ e.isRootCheckpoint) :
    ∃ new, mergeBatch (OpLog.new g) rest = (.ok new, (mergeBatch (OpLog.new g) rest).2) ∧
      (mergeBatch (OpLog.new g) rest).2.WellFormed ∧
      ∀ h : Hash, (mergeBatch (OpLog.new g) rest).2.entries[h]? = L.entries[h]? := by
  have hwf := hL.wellFormed
  obtain ⟨hg, hroot, -⟩ := entriesSince_head hL hes
  obtain ⟨es, hes', -, hmem, -⟩ := entriesSince_none_spec hwf hL.nextNodup hL.refsStored
  obtain rfl := Option.some.inj (hes.symm.trans hes')
  have hlist : L.All fun _ e => e ∈ g :: rest := fun h e he =>
    (hmem e).mpr ((hwf.rep.keyed h e he).1 ▸ he)
  have hget : ∀ e ∈ rest, L.entries[e.hash]? = some e := fun e he =>
    (hmem e).mp (List.mem_cons_of_mem _ he)
  have hne := entries_new_ne_empty g
  have hn : NoReplace (OpLog.new g) rest := fun e he _ hcp => absurd hcp (hroots e he)
  obtain ⟨new, hok⟩ := (mergeBatch_ok_iff hne hn).mpr fun e he =>
    ⟨(hwf.rep.keyed _ e (hget e he)).2,
      resolvable_of_listed hwf hlist (HashMap.mem_iff_getElem?.mpr ⟨e, hget e he⟩)⟩
  obtain ⟨hi, hsub, hheld⟩ := mergeBatch_ok hne hn hok
  have hnew : (OpLog.new g).WellFormed := .new (hwf.rep.keyed _ g hg).2 hroot
  have hback : (mergeBatch (OpLog.new g) rest).2.All fun h e => L.entries[h]? = some e := by
    intro h e he
    obtain he | ⟨hin, rfl⟩ := hi.source he
    · rw [getElem?_new] at he
      split at he
      · rename_i heq
        obtain rfl := Option.some.inj he
        exact heq ▸ hg
      · cases he
    · exact hget e (hsub hin)
  refine ⟨new, Prod.ext hok rfl, hi.wellFormed hnew, fun h => ?_⟩
  refine Option.ext fun e => ⟨fun he => hback h e he, fun he => ?_⟩
  have hin : h ∈ (mergeBatch (OpLog.new g) rest).2.entries := by
    have hkey := (hwf.rep.keyed h e he).1
    obtain rfl | hmem := List.mem_cons.mp (hlist h e he)
    · exact hi.mem_mono (HashMap.mem_iff_getElem?.mpr ⟨e, by rw [getElem?_new, if_pos hkey]⟩)
    · exact hkey ▸ (hheld e hmem).2
  obtain ⟨e', he'⟩ := HashMap.mem_iff_getElem?.mp hin
  rw [he', ← hback h e' he', he]

/-- A parentless checkpoint after the first entry loses the first. -/
theorem no_replace_of_merged (hL : L.WellFormed) (hes : L.entriesSince none = some (g :: rest))
    (hheld : g.hash ∈ (mergeBatch (OpLog.new g) rest).2.entries) :
    ∀ e ∈ rest, ¬ e.isRootCheckpoint := by
  intro c hc hroot
  obtain ⟨hmap, hget⟩ := entriesSince_eq_some hL hes
  have hnd : (g.hash :: rest.map Entry.hash).Nodup := by
    rw [← List.map_cons, hmap]
    exact (topoHashes_any hL _).1
  obtain ⟨hg, hnd⟩ := List.nodup_cons.mp hnd
  have hvalid : rest.takeWhile Entry.verifyHash = rest := List.takeWhile_eq_self_iff.mpr fun e he =>
    (hL.rep.keyed _ e (hget e (List.mem_cons_of_mem _ he))).2
  have hcol : NoCheckpointCollision rest := fun x hx y hy heq =>
    congrArg _ (List.inj_on_of_nodup_map hnd hx hy heq)
  have hne := entries_new_ne_empty g
  have hfresh : c.hash ∉ (OpLog.new g).entries := fun hin => by
    obtain ⟨e, he⟩ := HashMap.mem_iff_getElem?.mp hin
    rw [getElem?_new] at he
    split at he
    · rename_i heq
      exact hg (heq ▸ List.mem_map_of_mem hc)
    · cases he
  obtain hin | hin := mem_of_mem_mergeLoop _ hne hheld
  · exact mergePass_forgets hne (hvalid.symm ▸ hc) hroot hfresh hcol hg hin
  · exact hg hin

/-! ### The copy -/

theorem Bootstraps.sound {env : Env} {id : String} (hs : s.Bootstraps env id)
    (hwf : s.oplog.WellFormed) (hplain : s.oplog.All fun _ e => e.plainCheckpoint) :
    s.SnapshotSound := by
  obtain ⟨all, s', hes, hrun, heq, -, -, hont⟩ := hs
  obtain ⟨g, rest, base, n, L, all', rfl, hbase, hmerge, hall, rfl⟩ := from_snapshot hrun
  have hL : (mergeBatch (OpLog.new g) rest).2 = L := by rw [← mergeEntries_snd, hmerge]
  have heq : ∀ h : Hash, L.entries[h]? = s.oplog.entries[h]? := heq
  obtain ⟨hmap, hget⟩ := entriesSince_eq_some hwf hes
  -- the copy holds what it was given, so what it agrees with is all listed
  have hlist : s.oplog.All fun _ e => e ∈ g :: rest := by
    have hfrom : L.All fun _ e => e ∈ g :: rest := hL ▸
      mergeBatch_all (.new List.mem_cons_self) rest fun e he => List.mem_cons_of_mem _ he
    exact fun h e he => hfrom h e (heq h ▸ he)
  have hlistable : s.oplog.Listable :=
    ⟨hwf, (isSome_entriesSince_iff hwf).mp (by rw [← snapshot, hes]; rfl),
      nextNodup_of_listed hwf hes hlist⟩
  have hroots : ∀ e ∈ rest, ¬ e.isRootCheckpoint := by
    refine no_replace_of_merged hwf hes ?_
    rw [hL, HashMap.mem_iff_getElem?]
    exact ⟨g, (heq _).trans (hget g List.mem_cons_self)⟩
  refine ⟨hlistable, g, rest, base, hes, hbase, hroots, ?_⟩
  obtain ⟨new, -, hwf', -⟩ := merge_listing hlistable hes hroots
  rw [hL] at hwf'
  have hlistable' : L.Listable := ⟨hwf',
    fun h e he r hr => HashMap.mem_iff_getElem?.mpr (by
      rw [heq]
      exact HashMap.mem_iff_getElem?.mp (hlistable.refsStored h e (heq h ▸ he) r hr)),
    fun h e he => hlistable.nextNodup h e (heq h ▸ he)⟩
  obtain rfl : all' = g :: rest := Option.some.inj <| by
    rw [← hall, entriesSince_congr heq hlistable' hlistable]
    exact hes
  have hmem : ∀ e ∈ g :: rest, e.plainCheckpoint := fun e he => hplain _ e (hget e he)
  change ((MaterializedGraph.new base).rebuild env.order (g :: rest)).ontology = _ at hont
  rw [(rebuild_schema _ _ _).1, (rebuild_schema _ _ _).1, effectiveOntology_of_plain hmem,
    effectiveOntology_of_plain hmem] at hont
  exact hont

end

end PyGraphStore

end SilkGraph
