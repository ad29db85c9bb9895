import SilkGraph.Graph.Slots

/-!
# The quarantine set after an entry

An entry is accepted or refused (`accepts`), and its hash is in the quarantine set
accordingly. Besides, an accepted `AddNode` has the held edges that are complete judged
again. `mem_quarantined_applyInner` says which hashes are quarantined after an entry, and
`getElem?_pending_applyInner` which edges are held.
-/

namespace SilkGraph

namespace MaterializedGraph

variable [Crates] {g g' : MaterializedGraph} {σ : HashOrder} {e : Entry} {h : Hash}
  {mode : ValidationMode} {adopt : Bool}

/-! ### Single changes -/

/-- A quarantined entry has a record, a released one has none. -/
theorem mem_quarantine (g : MaterializedGraph) (h : Hash) (kind reason : String) :
    h ∈ (g.quarantine h kind reason).quarantined := HashMap.mem_insert.mpr (.inl rfl)

theorem mem_quarantine_iff (g : MaterializedGraph) (h' : Hash) (kind reason : String) :
    h ∈ (g.quarantine h' kind reason).quarantined ↔ h' = h ∨ h ∈ g.quarantined := HashMap.mem_insert

omit [Crates] in
theorem mem_release_iff (g : MaterializedGraph) (h' : Hash) :
    h ∈ (g.release h').quarantined ↔ h' ≠ h ∧ h ∈ g.quarantined := by
  rw [release, Std.ExtTreeMap.mem_erase]
  simp

omit [Crates] in
theorem not_mem_release (g : MaterializedGraph) (h : Hash) : h ∉ (g.release h).quarantined :=
  fun hin => ((mem_release_iff g h).mp hin).1 rfl

omit [Crates] in
theorem quarantined_applyAddNode (g : MaterializedGraph) (id ty : String) (st : Option String)
    (lb : String) (ps : BTreeMap String Value) (c : HybridClock) :
    (g.applyAddNode id ty st lb ps c).quarantined = g.quarantined := by
  rw [applyAddNode]
  split <;> rfl

omit [Crates] in
theorem quarantined_applyAddEdge (g : MaterializedGraph) (id ty src tgt : String)
    (ps : BTreeMap String Value) (c : HybridClock) :
    (g.applyAddEdge id ty src tgt ps c).quarantined = g.quarantined := by
  rw [applyAddEdge]
  split <;> rfl

omit [Crates] in
theorem quarantined_applyUpdateProperty (g : MaterializedGraph) (id k : String) (v : Value)
    (c : HybridClock) : (g.applyUpdateProperty id k v c).quarantined = g.quarantined := by
  rw [applyUpdateProperty]
  repeat' split
  all_goals rfl

omit [Crates] in
theorem quarantined_applyRemoveNode (g : MaterializedGraph) (id : String) (c : HybridClock) :
    (g.applyRemoveNode id c).quarantined = g.quarantined := by
  rw [applyRemoveNode]
  split <;> rfl

omit [Crates] in
theorem quarantined_applyRemoveEdge (g : MaterializedGraph) (id : String) (c : HybridClock) :
    (g.applyRemoveEdge id c).quarantined = g.quarantined := by
  rw [applyRemoveEdge]
  split <;> rfl

/-! ### Edges -/

/-- An edge is in quarantine after its arm unless it is accepted. -/
theorem mem_quarantined_addEdgeArm (g : MaterializedGraph) (e : Entry) (mode : ValidationMode)
    (id ty src tgt : String) (ps : BTreeMap String Value) :
    h ∈ (g.addEdgeArm e mode id ty src tgt ps).quarantined ↔
      if e.hash = h then g.acceptsEdge mode ty src tgt ps = false else h ∈ g.quarantined := by
  obtain ⟨ha, -, heq⟩ | ⟨ha, -, r, heq⟩ | ⟨ha, -, r, heq⟩ := addEdgeArm_cases g e mode id ty src tgt ps <;>
    rw [heq, ha]
  · rw [quarantined_applyAddEdge, mem_release_iff]
    split <;> rename_i hh <;> simp [hh]
  · rw [mem_quarantine_iff]
    split <;> rename_i hh <;> simp [hh]
  · rw [mem_quarantine_iff]
    split <;> rename_i hh <;> simp [hh]

theorem edgeEvents_eq_nil_iff {id ty src tgt : String} {ps : BTreeMap String Value}
    (hp : e.payload = .addEdge id ty src tgt ps) :
    g.edgeEvents mode e = [] ↔ g.acceptsEdge mode ty src tgt ps = false := by
  simp only [edgeEvents, hp]
  cases ha : g.acceptsEdge mode ty src tgt ps <;> simp

/-- A held edge that is complete is judged: it is in quarantine afterwards unless it is
accepted. -/
theorem mem_quarantined_retryEdge {p : Entry} (hr : g.isReady p = true) :
    h ∈ (g.retryEdge p).quarantined ↔
      if p.hash = h then g.edgeEvents .full p = [] else h ∈ g.quarantined := by
  obtain ⟨id, ty, src, tgt, ps, hp, -, -⟩ := isReady_iff.mp hr
  rw [edgeEvents_eq_nil_iff hp]
  simp only [retryEdge, hp]
  rw [mem_quarantined_addEdgeArm]
  rfl

/-- Retries leave the records of other hashes. -/
theorem mem_quarantined_foldl_retryEdge_of_ne {l : List Entry}
    (hr : ∀ p ∈ l, g.isReady p = true) (hne : ∀ p ∈ l, p.hash ≠ h) :
    h ∈ (l.foldl retryEdge g).quarantined ↔ h ∈ g.quarantined := by
  induction l generalizing g with
  | nil => rfl
  | cons p l ih =>
    have hp := hr p List.mem_cons_self
    have ht : ∀ id, (g.retryEdge p).typeOf id = g.typeOf id := fun id => by
      rw [typeOf, (retryEdge_spec hp).1, typeOf]
    rw [List.foldl_cons, ih (fun q hq => by
      rw [isReady_congr ht]
      exact hr q (List.mem_cons_of_mem _ hq)) fun q hq => hne q (List.mem_cons_of_mem _ hq),
      mem_quarantined_retryEdge hp, if_neg (hne p List.mem_cons_self)]

theorem mem_quarantined_foldl_retryEdge {l : List Entry} (hr : ∀ p ∈ l, g.isReady p = true)
    (hnd : (l.map Entry.hash).Nodup) : h ∈ (l.foldl retryEdge g).quarantined ↔
      (∃ p ∈ l, p.hash = h ∧ g.edgeEvents .full p = []) ∨
        h ∈ g.quarantined ∧ ∀ p ∈ l, p.hash ≠ h := by
  induction l generalizing g with
  | nil => simp
  | cons p l ih =>
    obtain ⟨hpl, hnd⟩ := List.nodup_cons.mp hnd
    have hp := hr p List.mem_cons_self
    obtain ⟨h1, h2, -, -⟩ := retryEdge_spec hp
    -- a retry changes no type, so the others are ready and judged as before
    have ht : ∀ id, (g.retryEdge p).typeOf id = g.typeOf id := fun id => by rw [typeOf, h1, typeOf]
    have hev : ∀ q, (g.retryEdge p).edgeEvents .full q = g.edgeEvents .full q :=
      edgeEvents_congr h2 ht
    rw [List.foldl_cons, ih (fun q hq => by
      rw [isReady_congr ht]
      exact hr q (List.mem_cons_of_mem _ hq)) hnd, mem_quarantined_retryEdge hp]
    simp only [hev, List.mem_cons, forall_eq_or_imp, exists_eq_or_imp]
    by_cases hh : p.hash = h
    · have hnone : ∀ q ∈ l, q.hash ≠ h := fun q hq heq =>
        hpl (List.mem_map.mpr ⟨q, hq, heq.trans hh.symm⟩)
      have hno : ¬ ∃ q ∈ l, q.hash = h ∧ g.edgeEvents .full q = [] := by
        rintro ⟨q, hq, heq, -⟩
        exact hnone q hq heq
      simp only [hh, if_true, hno, false_or, true_and, ne_eq, not_true_eq_false, false_and,
        and_false, or_false]
      exact and_iff_left hnone
    · simp [hh]

/-- Every held edge is held under its own hash. -/
def HeldByHash (g : MaterializedGraph) : Prop :=
  ∀ (h : Hash) (p : Entry), g.pendingEdges[h]? = some p → p.hash = h

omit [Crates] in
theorem getElem?_foldl_erase (l : List Entry) (m : HashMap Hash Entry) :
    (l.foldl (fun m p => m.erase p.hash) m)[h]? = if ∃ p ∈ l, p.hash = h then none else m[h]? := by
  induction l generalizing m with
  | nil => simp
  | cons p l ih =>
    rw [List.foldl_cons, ih, HashMap.getElem?_erase]
    by_cases hl : ∃ q ∈ l, q.hash = h
    · simp [hl]
    · by_cases hp : p.hash = h <;> simp [hl, hp]

omit [Crates] in
/-- The edges that are retried are held, so no two of them have one hash. -/
theorem nodup_readyEdges (hg : g.HeldByHash) (σ : HashOrder) :
    ((g.readyEdges σ).map Entry.hash).Nodup := by
  have hkeys : (g.pendingEdges.toList.map Prod.fst).Nodup := by
    rw [Std.ExtTreeMap.map_fst_toList_eq_keys]
    exact Std.ExtTreeMap.nodup_keys
  have hmap : (g.pendingEdges.toList.map Prod.snd).map Entry.hash =
      g.pendingEdges.toList.map Prod.fst := by
    rw [List.map_map]
    refine List.map_congr_left fun kv hkv => ?_
    exact hg kv.1 kv.2 (HashMap.mem_toList.mp hkv)
  have hperm : ((σ.walk g.pendingEdges.toList).map Prod.snd).Perm
      (g.pendingEdges.toList.map Prod.snd) := (σ.perm _).map _
  have hnd : (((σ.walk g.pendingEdges.toList).map Prod.snd).map Entry.hash).Nodup := by
    rw [(hperm.map Entry.hash).nodup_iff, hmap]
    exact hkeys
  exact (List.filter_sublist.map Entry.hash).nodup hnd

/-! ### One entry -/

/-- Whether an operation is accepted by the graph it comes to. -/
def accepts (self : MaterializedGraph) (mode : ValidationMode) : GraphOp → Bool
  | .addNode _ nodeType subtype _ properties =>
    (self.ontology.validateNodeMode nodeType subtype properties mode).isOk
  | .addEdge _ edgeType sourceId targetId properties =>
    self.acceptsEdge mode edgeType sourceId targetId properties
  | .updateProperty entityId key value => (self.slot entityId).accepts self.ontology key value
  | .extendOntology extension => (self.ontology.mergeExtension extension).1.isOk
  | _ => true

/-- Definitions are not judged and never quarantined. -/
def isJudged : GraphOp → Bool
  | .defineOntology _ | .defineLens _ => false
  | _ => true

/-- The held edges that an operation has judged again, with the graph they are judged in. -/
def retried (self : MaterializedGraph) (σ : HashOrder) (mode : ValidationMode) (e : Entry) :
    List Entry :=
  match e.payload with
  | .addNode nodeId nodeType subtype label properties =>
    if (self.ontology.validateNodeMode nodeType subtype properties mode).isOk then
      (self.applyAddNode nodeId nodeType subtype label properties e.clock).readyEdges σ
    else []
  | _ => []

/-- The graph in which held edges are judged again. -/
def withNode (self : MaterializedGraph) (e : Entry) : MaterializedGraph :=
  match e.payload with
  | .addNode nodeId nodeType subtype label properties =>
    self.applyAddNode nodeId nodeType subtype label properties e.clock
  | _ => self

theorem ready_of_retried {p : Entry} (hp : p ∈ g.retried σ mode e) :
    (g.withNode e).isReady p = true ∧ ∃ h : Hash, g.pendingEdges[h]? = some p := by
  rw [retried] at hp
  split at hp
  · rename_i id ty st lb ps hpay
    have hwith : g.withNode e = g.applyAddNode id ty st lb ps e.clock := by rw [withNode, hpay]
    split at hp
    · obtain ⟨hheld, hr⟩ := mem_readyEdges.mp hp
      rw [(applyAddNode_rest g id ty st lb ps e.clock).2] at hheld
      exact ⟨hwith ▸ hr, hheld⟩
    · cases hp
  · cases hp

theorem nodup_retried (hg : g.HeldByHash) (σ : HashOrder) (mode : ValidationMode) (e : Entry) :
    ((g.retried σ mode e).map Entry.hash).Nodup := by
  rw [retried]
  split
  · rename_i id ty st lb ps _
    split
    · refine nodup_readyEdges (fun h p hp => hg h p ?_) σ
      rwa [(applyAddNode_rest g id ty st lb ps e.clock).2] at hp
    · exact List.nodup_nil
  · exact List.nodup_nil

/-- **Which hashes are quarantined** after an entry: of the edges judged again those that are
refused, the entry itself if it is, and of the rest those that were before. -/
theorem mem_quarantined_applyInner (hg : g.HeldByHash) (σ : HashOrder) (he : e.Ordinary)
    (mode : ValidationMode) (adopt : Bool) : h ∈ (g.applyInner σ e mode adopt).quarantined ↔
      (∃ p ∈ g.retried σ mode e, p.hash = h ∧ (g.withNode e).edgeEvents .full p = []) ∨
      (∀ p ∈ g.retried σ mode e, p.hash ≠ h) ∧
        if e.hash = h ∧ isJudged e.payload = true then g.accepts mode e.payload = false
        else h ∈ g.quarantined := by
  obtain ⟨hext, hchk⟩ := he
  rw [applyInner]
  -- only an added node has edges judged again
  have hplain : (∀ id ty st lb ps, e.payload ≠ .addNode id ty st lb ps) →
      g.retried σ mode e = [] := fun hne => by
    rw [retried]
    split
    · rename_i id ty st lb ps hp
      exact absurd hp (hne id ty st lb ps)
    · rfl
  cases hp : e.payload with
  | checkpoint => simp [hp, GraphOp.isCheckpoint] at hchk
  | extendOntology => simp [hp, GraphOp.isExtendOntology] at hext
  | defineOntology o =>
    rw [hplain (by simp [hp])]
    simp [applyPayload, isJudged]
  | defineLens t =>
    rw [hplain (by simp [hp])]
    simp [applyPayload, isJudged]
  | addNode id ty st lb ps =>
    simp only [applyPayload, retried, withNode, hp, accepts, isJudged, and_true]
    obtain ⟨hv, r, heq⟩ | ⟨hv, heq⟩ := addNodeArm_spec g σ e mode id ty st lb ps <;> rw [heq, hv]
    · rw [mem_quarantine_iff]
      simp only [Bool.false_eq_true, if_false, List.not_mem_nil, false_and, exists_false, false_or,
        false_implies, implies_true, true_and]
      by_cases hh : e.hash = h <;> simp [hh]
    · set g₁ := (g.release e.hash).applyAddNode id ty st lb ps e.clock with hg₁
      have htwin := (Twin.release g e.hash).applyAddNode id ty st lb ps e.clock
      have hheld : g₁.HeldByHash := fun k p hk => hg k p (by
        rwa [htwin.pending, (applyAddNode_rest g id ty st lb ps e.clock).2] at hk)
      rw [mem_quarantined_foldl_retryEdge (fun p hp => (mem_readyEdges.mp hp).2)
        (nodup_readyEdges hheld σ), hg₁, quarantined_applyAddNode, mem_release_iff,
        htwin.readyEdges, funext (edgeEvents_congr htwin.ontology htwin.types)]
      simp only [if_true, Bool.true_eq_false]
      refine or_congr_right ?_
      rw [and_comm]
      refine and_congr_right fun _ => ?_
      split <;> rename_i hh <;> simp [hh]
  | addEdge id ty src tgt ps =>
    rw [hplain (by simp [hp])]
    simp only [applyPayload, accepts, isJudged, and_true]
    rw [mem_quarantined_addEdgeArm]
    simp
  | updateProperty id k v =>
    rw [hplain (by simp [hp])]
    simp only [applyPayload, accepts, isJudged, and_true]
    have hverdict := isOk_updateVerdict g id k v
    rw [updatePropertyArm, ← hverdict]
    cases g.updateVerdict id k v with
    | error err =>
      change h ∈ (g.quarantine e.hash "update_property" err.display).quarantined ↔ _
      rw [mem_quarantine_iff]
      split <;> rename_i hh <;> simp [hh, Except.isOk, Except.toBool]
    | ok u =>
      change h ∈ ((g.release e.hash).applyUpdateProperty id k v e.clock).quarantined ↔ _
      rw [quarantined_applyUpdateProperty, mem_release_iff]
      split <;> rename_i hh <;> simp [hh, Except.isOk, Except.toBool]
  | removeNode id =>
    rw [hplain (by simp [hp])]
    simp only [applyPayload, accepts, isJudged, and_true]
    rw [quarantined_applyRemoveNode, mem_release_iff]
    split <;> rename_i hh <;> simp [hh]
  | removeEdge id =>
    rw [hplain (by simp [hp])]
    simp only [applyPayload, accepts, isJudged, and_true]
    rw [quarantined_applyRemoveEdge, mem_release_iff]
    split <;> rename_i hh <;> simp [hh]

/-- Whether an operation is an edge that has to wait for an endpoint. -/
def holds (self : MaterializedGraph) : GraphOp → Bool
  | .addEdge _ edgeType sourceId targetId _ => self.holdsEdge edgeType sourceId targetId
  | _ => false

/-- An operation that is held is not accepted. -/
theorem accepts_of_holds {op : GraphOp} (hh : g.holds op = true) : g.accepts mode op = false := by
  cases op with
  | addEdge id ty src tgt ps =>
    obtain ⟨-, hno, -⟩ | ⟨ha, -⟩ | ⟨ha, -⟩ := addEdgeArm_cases g
      (Entry.new (.addEdge id ty src tgt ps) [] [] ⟨"", 0, 0⟩ "") mode id ty src tgt ps
    · rw [holds, hno] at hh
      cases hh
    · exact ha
    · exact ha
  | _ => cases hh

/-- **Which edges are held** after an entry: those that were, less the ones judged again, and
the entry itself if it is held. -/
theorem getElem?_pending_applyInner (g : MaterializedGraph) (σ : HashOrder) (he : e.Ordinary)
    (mode : ValidationMode) (adopt : Bool) (h : Hash) :
    (g.applyInner σ e mode adopt).pendingEdges[h]? =
      if ∃ p ∈ g.retried σ mode e, p.hash = h then none
      else if e.hash = h ∧ g.holds e.payload = true then some e
      else g.pendingEdges[h]? := by
  obtain ⟨-, -, hpend⟩ := applyInner_frame g σ he mode adopt
  rw [hpend]
  cases hp : e.payload with
  | addNode id ty st lb ps =>
    simp only [retried, holds, hp, Bool.false_eq_true, and_false, if_false]
    cases (g.ontology.validateNodeMode ty st ps mode).isOk
    · simp
    · simp only [if_true]
      exact getElem?_foldl_erase _ _
  | addEdge id ty src tgt ps =>
    simp only [retried, holds, hp, List.not_mem_nil, false_and, exists_false, if_false]
    split <;> rename_i hh
    · rw [HashMap.getElem?_insert]
      simp [hh]
    · simp [hh]
  | _ => simp [retried, holds, hp]

/-! ### The events of an entry and of the edges it completes -/

/-- The event of an entry, without the edges it completes. -/
def ownEvents (self : MaterializedGraph) (mode : ValidationMode) (e : Entry) :
    List (String × Event) :=
  match e.payload with
  | .addNode nodeId nodeType subtype label properties =>
    if (self.ontology.validateNodeMode nodeType subtype properties mode).isOk then
      [(nodeId, .addNode nodeType subtype label properties e.clock)]
    else []
  | .addEdge .. => self.edgeEvents mode e
  | .updateProperty entityId key value => [(entityId, .update key value e.clock)]
  | .removeNode nodeId => [(nodeId, .removeNode e.clock)]
  | .removeEdge edgeId => [(edgeId, .removeEdge e.clock)]
  | _ => []

theorem events_eq (g : MaterializedGraph) (σ : HashOrder) (mode : ValidationMode) (e : Entry) :
    g.events σ mode e =
      g.ownEvents mode e ++ (g.retried σ mode e).flatMap ((g.withNode e).edgeEvents .full) := by
  unfold events ownEvents retried withNode
  cases e.payload with
  | addNode id ty st lb ps =>
    simp only []
    split <;> rfl
  | _ => simp

/-- The edges that are judged again are the held ones that the entry completes. -/
theorem mem_retried_iff {p : Entry} : p ∈ g.retried σ mode e ↔
    (∃ id ty st lb ps, e.payload = .addNode id ty st lb ps) ∧
      g.accepts mode e.payload = true ∧ (g.withNode e).isReady p = true ∧
      ∃ h : Hash, g.pendingEdges[h]? = some p := by
  unfold retried withNode accepts
  cases e.payload with
  | addNode id ty st lb ps =>
    simp only []
    split <;> rename_i hv
    · rw [mem_readyEdges, (applyAddNode_rest g id ty st lb ps e.clock).2]
      simp only [hv]
      grind
    · simp [hv]
  | _ => simp

/-- A refused entry leaves the slots alone. -/
theorem slot_of_refused (g : MaterializedGraph) (σ : HashOrder) (he : e.Ordinary)
    (hno : g.accepts mode e.payload = false) (adopt : Bool) (id : String) :
    (g.applyInner σ e mode adopt).slot id = g.slot id := by
  rw [slot_applyInner g σ he mode adopt, events]
  cases hp : e.payload with
  | addNode nid ty st lb ps =>
    rw [hp, accepts] at hno
    simp [hno]
  | addEdge eid ty src tgt ps =>
    rw [hp, accepts] at hno
    rw [(edgeEvents_eq_nil_iff hp).mpr hno]
    rfl
  | updateProperty eid k v =>
    rw [hp, accepts] at hno
    simp only [eventsAt_cons, eventsAt_nil]
    split <;> rename_i hid
    · subst hid
      simp [Slot.step, hno]
    · rfl
  | removeNode | removeEdge =>
    rw [hp] at hno
    cases hno
  | _ => rfl

/-! ### Extensions -/

omit [Crates] in
/-- An entry that is no checkpoint extends the ontology or is applied as it comes. -/
theorem ordinary_or_extension (hplain : e.payload.isCheckpoint = false) :
    e.Ordinary ∨ ∃ extension, e.payload = .extendOntology extension := by
  cases hp : e.payload
  case checkpoint => rw [hp] at hplain; cases hplain
  case extendOntology extension => exact .inr ⟨extension, rfl⟩
  all_goals exact .inl ⟨by rw [hp]; rfl, hplain⟩

theorem applyInner_of_extend {x : Entry} {extension : OntologyExtension}
    (hx : x.payload = .extendOntology extension) (mode : ValidationMode) (adopt : Bool) :
    g.applyInner σ x mode adopt = g.extendOntologyArm x extension := by
  rw [MaterializedGraph.applyInner, hx, applyPayload]

/-- An extension touches no node and no edge. -/
theorem slot_of_extend {x : Entry} {extension : OntologyExtension}
    (hx : x.payload = .extendOntology extension) (mode : ValidationMode) (adopt : Bool) (id : String) :
    (g.applyInner σ x mode adopt).slot id = g.slot id := by
  rw [applyInner_of_extend hx, extendOntologyArm]
  split <;> rfl

end MaterializedGraph

end SilkGraph
