import SilkGraph.Graph.Inert

/-!
# A rebuild judges by the final ontology

The first pass of a rebuild folds the extensions, the second materializes everything else
against the ontology they lead to. So where an `AddNode` stands in the list makes no
difference to whether it is quarantined (`rebuild_verdict`): its own turn decides, with the
final ontology, and no other entry touches a record under its hash. Nothing of the graph
before is read but the base ontology, which no call writes; so a rebuild repeated later, with
anything in between, gives the same graph.
-/

namespace SilkGraph

/-! ### The final ontology -/

/-- The extension an operation carries. -/
def GraphOp.extension? : GraphOp → Option OntologyExtension
  | .extendOntology extension => some extension
  | _ => none

/-- Extensions merged one after the other, each as far as it goes. -/
def Ontology.mergeExtensions (self : Ontology) (extensions : List OntologyExtension) : Ontology :=
  extensions.foldl (fun o x => (o.mergeExtension x).2) self

/-- Without checkpoints the effective ontology is the fold of the extensions. -/
theorem effectiveOntology_eq_merge (base : Ontology) {es : List Entry}
    (plain : ∀ e ∈ es, e.payload.isCheckpoint = false) :
    effectiveOntology base es = base.mergeExtensions (es.filterMap fun e => e.payload.extension?) := by
  have hredeclare : ∀ (l : List Entry) (o : Ontology), (∀ e ∈ l, e.payload.isCheckpoint = false) →
      l.foldl (fun o e => e.payload.redeclare o) o = o := by
    intro l
    induction l with
    | nil => exact fun o _ => rfl
    | cons e l ih =>
      intro o hl
      have hstep : e.payload.redeclare o = o := by
        have hno := hl e List.mem_cons_self
        rw [GraphOp.redeclare]
        cases hp : e.payload
        case checkpoint => rw [hp] at hno; cases hno
        all_goals rfl
      rw [List.foldl_cons, hstep, ih o fun e he => hl e (List.mem_cons_of_mem _ he)]
  rw [effectiveOntology, hredeclare es _ plain]
  -- the first pass, entry by entry
  clear hredeclare
  induction es generalizing base with
  | nil => rfl
  | cons e es ih =>
    have hno := plain e List.mem_cons_self
    rw [List.foldl_cons, ih _ fun e he => plain e (List.mem_cons_of_mem _ he)]
    cases hp : e.payload
    case checkpoint => rw [hp] at hno; cases hno
    case extendOntology x => rw [List.filterMap_cons_some (by rw [hp]; rfl)]; rfl
    all_goals rw [List.filterMap_cons_none (by rw [hp]; rfl)]; rfl

/-! ### The verdict on a node -/

section

variable [Crates]

/-- A hash names one content among the entries of a list: they are valid, and BLAKE3 does not
collide on them. -/
structure NamedByHash (es : List Entry) : Prop where
  valid : ∀ e ∈ es, e.verifyHash
  collisionFree : ∀ a ∈ es, ∀ b ∈ es,
    Crates.contentHash a.content = Crates.contentHash b.content → a.content = b.content

theorem NamedByHash.payload_eq {es : List Entry} (h : NamedByHash es) {a b : Entry} (ha : a ∈ es)
    (hb : b ∈ es) (heq : a.hash = b.hash) : a.payload = b.payload := by
  rw [Entry.verifyHash_iff.mp (h.valid a ha), Entry.verifyHash_iff.mp (h.valid b hb)] at heq
  exact congrArg SignableContent.payload (h.collisionFree a ha b hb heq)

/-- Valid entries with different hashes are named by them. -/
theorem NamedByHash.of_nodup {es : List Entry} (valid : ∀ e ∈ es, e.verifyHash)
    (hnd : (es.map Entry.hash).Nodup) : NamedByHash es := by
  refine ⟨valid, fun a ha b hb heq => ?_⟩
  rw [← Entry.verifyHash_iff.mp (valid a ha), ← Entry.verifyHash_iff.mp (valid b hb)] at heq
  rw [List.inj_on_of_nodup_map hnd ha hb heq]

namespace MaterializedGraph

variable {g : MaterializedGraph} {σ : HashOrder} {e a : Entry} {es done : List Entry}
  {id ty lb : String} {st : Option String} {ps : BTreeMap String Value}

/-- What holds along the second pass: the ontology is the final one, the held edges are edges
of the list under their own hashes. -/
structure SecondPass (final : Ontology) (es : List Entry) (g : MaterializedGraph) : Prop where
  ontology : g.ontology = final
  held : g.HeldByHash
  edges : ∀ (h : Hash) (p : Entry), g.pendingEdges[h]? = some p →
    p ∈ es ∧ ∃ id ty src tgt ps, p.payload = .addEdge id ty src tgt ps

variable {final : Ontology}

theorem SecondPass.step (hg : SecondPass final es g) (σ : HashOrder)
    (hplain : e.payload.isCheckpoint = false) (he : e ∈ es) :
    SecondPass final es (materialize σ g e) := by
  obtain ho | ⟨x, hx⟩ := ordinary_or_extension hplain
  · have hstep : MaterializedGraph.materialize σ g e = g.applyInner σ e .full false := by
      rw [MaterializedGraph.materialize, if_neg (by simp [ho.notExtension])]
    have hsource : ∀ (h : Hash) (p : Entry), (g.applyInner σ e .full false).pendingEdges[h]? = some p →
        g.pendingEdges[h]? = some p ∨ p = e ∧ e.hash = h ∧ g.holds e.payload = true := by
      intro h p hp
      rw [getElem?_pending_applyInner g σ ho] at hp
      split at hp
      · cases hp
      · split at hp
        · rename_i hh
          exact .inr ⟨(Option.some.inj hp).symm, hh⟩
        · exact .inl hp
    rw [hstep]
    refine ⟨?_, fun h p hp => ?_, fun h p hp => ?_⟩
    · rw [(applyInner_frame g σ ho .full false).1, hg.ontology]
    · obtain hp | ⟨rfl, hh, -⟩ := hsource h p hp
      · exact hg.held h p hp
      · exact hh
    · obtain hp | ⟨rfl, -, hh⟩ := hsource h p hp
      · exact hg.edges h p hp
      · refine ⟨he, ?_⟩
        cases hpay : p.payload with
        | addEdge id ty src tgt ps => exact ⟨id, ty, src, tgt, ps, rfl⟩
        | _ => rw [hpay] at hh; cases hh
  · rwa [MaterializedGraph.materialize, if_pos (by rw [hx]; rfl)]

/-- **Step.** An entry that carries the hash of a node has its record judged by the final
ontology; any other leaves it. -/
theorem SecondPass.verdict (hg : SecondPass final es g) (σ : HashOrder) (named : NamedByHash es)
    (hplain : e.payload.isCheckpoint = false) (he : e ∈ es) (ha : a ∈ es)
    (hpay : a.payload = .addNode id ty st lb ps) :
    a.hash ∈ (materialize σ g e).quarantined ↔
      if e.hash = a.hash then (final.validateNode ty st ps).isOk = false
      else a.hash ∈ g.quarantined := by
  obtain ho | ⟨x, hx⟩ := ordinary_or_extension hplain
  · have hstep : MaterializedGraph.materialize σ g e = g.applyInner σ e .full false := by
      rw [MaterializedGraph.materialize, if_neg (by simp [ho.notExtension])]
    -- an edge has another hash than the node
    have hother : ∀ p ∈ g.retried σ .full e, p.hash ≠ a.hash := by
      intro p hp heq
      obtain ⟨-, h, hheld⟩ := ready_of_retried hp
      obtain ⟨hpes, eid, ety, src, tgt, eps, hedge⟩ := hg.edges h p hheld
      have := named.payload_eq hpes ha heq
      rw [hedge, hpay] at this
      cases this
    rw [hstep, mem_quarantined_applyInner hg.held σ ho]
    have hno : ¬ ∃ p ∈ g.retried σ .full e,
        p.hash = a.hash ∧ (g.withNode e).edgeEvents .full p = [] := by
      rintro ⟨p, hp, heq, -⟩
      exact hother p hp heq
    rw [or_iff_right hno, and_iff_right hother]
    by_cases hh : e.hash = a.hash
    · have hsame : e.payload = .addNode id ty st lb ps := (named.payload_eq he ha hh).trans hpay
      rw [if_pos ⟨hh, by rw [hsame]; rfl⟩, if_pos hh, hsame, accepts, hg.ontology]
      rfl
    · rw [if_neg fun hc => hh hc.1, if_neg hh]
  · -- an extension is not applied again, and has another hash
    have hne : e.hash ≠ a.hash := fun heq => by
      have := named.payload_eq he ha heq
      rw [hx, hpay] at this
      cases this
    rw [MaterializedGraph.materialize, if_pos (by rw [hx]; rfl), if_neg hne]

/-- **Run.** After the second pass over a part of the list, a node of that part is quarantined
exactly if the final ontology refuses it. -/
theorem SecondPass.run (hg : SecondPass final es g) (σ : HashOrder) (named : NamedByHash es)
    (plain : ∀ e ∈ es, e.payload.isCheckpoint = false) (hdone : done ⊆ es) (ha : a ∈ es)
    (hpay : a.payload = .addNode id ty st lb ps) :
    SecondPass final es (done.foldl (materialize σ) g) ∧
      (a.hash ∈ (done.foldl (materialize σ) g).quarantined ↔
        if ∃ e ∈ done, e.hash = a.hash then (final.validateNode ty st ps).isOk = false
        else a.hash ∈ g.quarantined) := by
  induction done generalizing g with
  | nil => simpa using hg
  | cons e done ih =>
    have he : e ∈ es := hdone List.mem_cons_self
    obtain ⟨hrun, hverdict⟩ := ih (hg.step σ (plain e he) he)
      fun x hx => hdone (List.mem_cons_of_mem _ hx)
    rw [List.foldl_cons]
    refine ⟨hrun, ?_⟩
    rw [hverdict, hg.verdict σ named (plain e he) he ha hpay]
    by_cases hh : e.hash = a.hash <;> simp [hh]

/-- A node of the list is quarantined after a rebuild exactly if the final ontology refuses
it. -/
theorem rebuild_verdict (g : MaterializedGraph) (σ : HashOrder) (named : NamedByHash es)
    (plain : ∀ e ∈ es, e.payload.isCheckpoint = false) (ha : a ∈ es)
    (hpay : a.payload = .addNode id ty st lb ps) :
    a.hash ∈ (g.rebuild σ es).quarantined ↔
      ((effectiveOntology g.baseOntology es).validateNode ty st ps).isOk = false := by
  obtain ⟨-, -, hpending⟩ := entities_secondPass g.baseOntology es
  have hempty : ∀ (h : Hash) (p : Entry), (secondPass g.baseOntology es).pendingEdges[h]? ≠ some p :=
    fun h p hp => by
      rw [hpending, Std.ExtTreeMap.getElem?_empty] at hp
      cases hp
  have hstart : SecondPass (secondPass g.baseOntology es).ontology es (secondPass g.baseOntology es) :=
    ⟨rfl, fun h p hp => absurd hp (hempty h p), fun h p hp => absurd hp (hempty h p)⟩
  obtain ⟨hrun, hverdict⟩ := hstart.run σ named plain (List.Subset.refl es) ha hpay
  have hfinal : (secondPass g.baseOntology es).ontology = effectiveOntology g.baseOntology es :=
    hrun.ontology.symm.trans (rebuild_schema g σ es).1
  rw [← hfinal, rebuild]
  refine hverdict.trans ?_
  rw [if_pos ⟨a, ha, rfl⟩]

/-! ### Calls in between -/

/-- A call that writes the graph. -/
inductive GraphCall where
  | apply (entry : Entry)
  | rebuild (entries : List Entry)

/-- The graph after a call. -/
def GraphCall.run (σ : HashOrder) (g : MaterializedGraph) : GraphCall → MaterializedGraph
  | .apply entry => g.apply σ entry
  | .rebuild entries => g.rebuild σ entries

/-- No call writes the base ontology. -/
theorem base_run (σ : HashOrder) (g : MaterializedGraph) (calls : List GraphCall) :
    (calls.foldl (GraphCall.run σ) g).baseOntology = g.baseOntology := by
  induction calls generalizing g with
  | nil => rfl
  | cons call calls ih =>
    rw [List.foldl_cons, ih]
    cases call with
    | apply entry => exact (applyInner_schema g σ entry .full true).2
    | rebuild entries => exact (rebuild_schema g σ entries).2

/-- **A rebuild judges by the final ontology and can be repeated.** Without checkpoints in the
list, the ontology after it is the fold of the extensions over the base; an `AddNode` of the
list is quarantined exactly if that ontology refuses it, wherever it stands; and the same
rebuild after any calls gives the same graph. -/
theorem rebuild_final (g : MaterializedGraph) (σ : HashOrder) (es : List Entry)
    (named : NamedByHash es) (plain : ∀ e ∈ es, e.payload.isCheckpoint = false) :
    let final := g.baseOntology.mergeExtensions (es.filterMap fun e => e.payload.extension?)
    (g.rebuild σ es).ontology = final ∧
    (∀ e ∈ es, ∀ id ty st lb ps, e.payload = .addNode id ty st lb ps →
      (e.hash ∈ (g.rebuild σ es).quarantined ↔ (final.validateNode ty st ps).isOk = false)) ∧
    ∀ calls : List GraphCall,
      (calls.foldl (GraphCall.run σ) (g.rebuild σ es)).rebuild σ es = g.rebuild σ es := by
  intro final
  have hfinal : effectiveOntology g.baseOntology es = final := effectiveOntology_eq_merge _ plain
  refine ⟨?_, ?_, fun calls => ?_⟩
  · rw [(rebuild_schema g σ es).1, hfinal]
  · intro e he id ty st lb ps hpay
    rw [rebuild_verdict g σ named plain he hpay, hfinal]
  · have hbase := (base_run σ (g.rebuild σ es) calls).trans (rebuild_schema g σ es).2
    rw [rebuild, hbase, ← rebuild]

end MaterializedGraph

end

open Sample MaterializedGraph in
/-- A node whose type is declared by an extension that comes after it: it is shown, and still
is after an update, another rebuild and this one again. -/
theorem rebuild_final_arrivals :
    let es := arrivals ++
      [Entry.new (.extendOntology { nodeTypes := (∅ : BTreeMap String NodeTypeDef).insert "dog" { } })
        [] [] ⟨"a", 5, 0⟩ "a"]
    let g := new guests
    let rex := Entry.new (.addNode "rex" "dog" none "Rex" ∅) [] [] ⟨"a", 3, 0⟩ "a"
    rex.hash ∉ (g.rebuild .keyOrder es).quarantined ∧
    (((g.rebuild .keyOrder es).apply .keyOrder rex).rebuild .keyOrder arrivals).rebuild .keyOrder es =
      g.rebuild .keyOrder es := by
  intro es g rex
  have hvalid : ∀ e ∈ es, e.verifyHash := by simp [es, arrivals]
  obtain ⟨-, hverdict, hagain⟩ := rebuild_final g .keyOrder es
    (.of_nodup hvalid (by decide +kernel)) (by decide +kernel)
  have hmem : rex ∈ es := List.mem_append_left _ (.tail _ (.tail _ (.head _)))
  have hknown : ((guests.mergeExtensions (es.filterMap fun e => e.payload.extension?)).validateNode
      "dog" none ∅).isOk = true := by decide +kernel
  constructor
  · intro hq
    have hrefused := (hverdict rex hmem _ _ _ _ _ rfl).mp hq
    exact Bool.false_ne_true (hrefused.symm.trans hknown)
  · have hcalls := hagain [.apply rex, .rebuild arrivals]
    simpa only [List.foldl_cons, List.foldl_nil, GraphCall.run] using hcalls

end SilkGraph
