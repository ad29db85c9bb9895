import SilkGraph.Engine.Traversal

/-!
# Pattern matching

`pattern_match` grows the chains of one start node after the other, type by type. Without the cap
that gives all chains whose types after the first are exactly those of the sequence (`mem_grown`).
The cap counts chains that are not finished yet, so a search may leave with some of these
(`CutShort`); where it does not, the cap only shortens the list (`matchFrom_eq_take`). The first
type is matched with the types below it and the others are not, so what is found is all that
matches only if no chain has a type further below (`pattern_match_exact_iff`).
-/

namespace SilkGraph

open MaterializedGraph

namespace Engine

variable {g : MaterializedGraph} {σ : HashOrder}

/-! ### Growth without a cap -/

/-- The chain with the target of the edge, if that is a node of the type and not on the chain. -/
def extension? (g : MaterializedGraph) (nextType : String) (step : List String × Edge) :
    Option (List String) :=
  (g.getNode step.2.targetId).bind fun node =>
    if node.nodeType == nextType && !step.1.contains step.2.targetId then
      some (step.1 ++ [step.2.targetId])
    else none

/-- The chains, each longer by a node of the type. -/
def extensions (g : MaterializedGraph) (σ : HashOrder) (nextType : String)
    (chains : List (List String)) : List (List String) :=
  (chainSteps g σ chains).filterMap (extension? g nextType)

theorem mem_extensions {nextType : String} {chains : List (List String)} {c : List String} :
    c ∈ extensions g σ nextType chains ↔ ∃ chain ∈ chains, ∃ last, chain.getLast? = some last ∧
      ∃ edge ∈ g.outgoingEdges σ last, (∃ node, g.getNode edge.targetId = some node ∧
        node.nodeType = nextType) ∧ edge.targetId ∉ chain ∧ c = chain ++ [edge.targetId] := by
  simp only [extensions, List.mem_filterMap, chainSteps, List.mem_flatMap, Option.mem_toList,
    List.mem_map, extension?, Option.bind_eq_some_iff, Option.ite_none_right_eq_some,
    Bool.and_eq_true, beq_iff_eq, Bool.not_eq_true', List.contains_eq_mem, decide_eq_false_iff_not,
    Option.some.injEq]
  constructor
  · rintro ⟨_, ⟨chain, hchain, last, hlast, edge, hedge, rfl⟩, node, hnode, ⟨hty, hnew⟩, rfl⟩
    exact ⟨chain, hchain, last, hlast, edge, hedge, ⟨node, hnode, hty⟩, hnew, rfl⟩
  · rintro ⟨chain, hchain, last, hlast, edge, hedge, ⟨node, hnode, hty⟩, hnew, rfl⟩
    exact ⟨(chain, edge), ⟨chain, hchain, last, hlast, edge, hedge, rfl⟩, node, hnode, ⟨hty, hnew⟩,
      rfl⟩

/-- The chains, longer by nodes of the types. -/
def grown (g : MaterializedGraph) (σ : HashOrder) (types : List String)
    (chains : List (List String)) : List (List String) :=
  types.foldl (fun chains nextType => extensions g σ nextType chains) chains

theorem grown_cons (nextType : String) (types : List String) (chains : List (List String)) :
    grown g σ (nextType :: types) chains = grown g σ types (extensions g σ nextType chains) := rfl

/-! ### The cap -/

section Cap

variable {nextType : String} {types : List String} {maxResults : ℕ}
  {results chains extended : List (List String)}

theorem extendChains_cons (step : List String × Edge) (steps : List (List String × Edge)) :
    extendChains g nextType maxResults results (step :: steps) extended =
      match extension? g nextType step with
      | none => extendChains g nextType maxResults results steps extended
      | some chain =>
        if maxResults ≤ results.length + (extended ++ [chain]).length then
          .inr ((results ++ (extended ++ [chain])).take maxResults)
        else extendChains g nextType maxResults results steps (extended ++ [chain]) := by
  obtain ⟨chain, edge⟩ := step
  rw [extendChains, extension?]
  dsimp only
  cases g.getNode edge.targetId with
  | none => rfl
  | some node =>
    rw [Option.bind_some]
    dsimp only
    by_cases hnext : (node.nodeType == nextType && !chain.contains edge.targetId) = true
    · rw [if_pos hnext, if_pos hnext]
    · rw [if_neg hnext, if_neg hnext]

/-- Extending under a cap that is not reached yet. -/
theorem extendChains_eq (hlt : results.length + extended.length < maxResults)
    (steps : List (List String × Edge)) :
    let all := extended ++ steps.filterMap (extension? g nextType)
    extendChains g nextType maxResults results steps extended =
      if results.length + all.length < maxResults then .inl all
      else .inr ((results ++ all).take maxResults) := by
  induction steps generalizing extended with
  | nil =>
    simp only [List.filterMap_nil, List.append_nil]
    rw [extendChains, if_pos hlt]
  | cons step steps ih =>
    rw [extendChains_cons]
    cases hstep : extension? g nextType step with
    | none =>
      rw [List.filterMap_cons_none hstep]
      exact ih hlt
    | some chain =>
      have hall : extended ++ (step :: steps).filterMap (extension? g nextType) =
          extended ++ [chain] ++ steps.filterMap (extension? g nextType) := by
        rw [List.filterMap_cons_some hstep, List.append_assoc, List.singleton_append]
      simp only [hall]
      split
      · rename_i hle
        have hlen : ¬ results.length + (extended ++ [chain] ++
            steps.filterMap (extension? g nextType)).length < maxResults := by
          rw [@List.length_append _ (extended ++ [chain])]
          omega
        have htake : (results ++ (extended ++ [chain]) ++
            steps.filterMap (extension? g nextType)).take maxResults =
              (results ++ (extended ++ [chain])).take maxResults := by
          rw [List.take_append_of_le_length]
          rw [List.length_append]
          exact hle
        rw [if_neg hlen, ← htake, List.append_assoc results]
      · rename_i hgt
        exact ih (by omega)

/-- Growing under a cap that is not reached yet: the chains of the last type, or the results and
the chains of the first type with which these reach the cap. -/
theorem growChains_cases (hlt : results.length < maxResults) (types : List String)
    (chains : List (List String)) :
    ((∀ j, 0 < j → j ≤ types.length →
        results.length + (grown g σ (types.take j) chains).length < maxResults) ∧
      growChains g σ maxResults results types chains = .inl (grown g σ types chains)) ∨
    ∃ j, 0 < j ∧ j ≤ types.length ∧
      (∀ i, 0 < i → i < j →
        results.length + (grown g σ (types.take i) chains).length < maxResults) ∧
      maxResults ≤ results.length + (grown g σ (types.take j) chains).length ∧
      growChains g σ maxResults results types chains =
        .inr ((results ++ grown g σ (types.take j) chains).take maxResults) := by
  induction types generalizing chains with
  | nil => exact .inl ⟨fun j hj hle => absurd hj (Nat.not_lt.mpr hle), rfl⟩
  | cons nextType types ih =>
    have hstep : extendChains g nextType maxResults results (chainSteps g σ chains) [] =
        if results.length + (extensions g σ nextType chains).length < maxResults then
          .inl (extensions g σ nextType chains)
        else .inr ((results ++ extensions g σ nextType chains).take maxResults) :=
      extendChains_eq hlt _
    rw [growChains, hstep]
    by_cases hone : results.length + (extensions g σ nextType chains).length < maxResults
    · rw [if_pos hone]
      -- the first type does not reach the cap, and the types after it decide
      have hshift : ∀ {n : ℕ}, (∀ i, 0 < i → i ≤ n → results.length +
            (grown g σ (types.take i) (extensions g σ nextType chains)).length < maxResults) →
          ∀ i, 0 < i → i ≤ n + 1 →
            results.length + (grown g σ ((nextType :: types).take i) chains).length <
              maxResults := by
        intro n hall i hi hle
        obtain ⟨i, rfl⟩ : ∃ k, i = k + 1 := ⟨i - 1, by omega⟩
        rw [List.take_succ_cons, grown_cons]
        obtain rfl | hpos := Nat.eq_zero_or_pos i
        · exact hone
        · exact hall i hpos (by omega)
      obtain ⟨hall, hgrow⟩ | ⟨j, hj, hle, hall, hreach, hgrow⟩ :=
        ih (extensions g σ nextType chains)
      · exact .inl ⟨fun i hi hle => hshift hall i hi hle, hgrow⟩
      · refine .inr ⟨j + 1, by omega, Nat.succ_le_succ hle, fun i hi hlt => ?_, hreach, hgrow⟩
        exact hshift (fun i hi hle => hall i hi (by omega)) i hi (n := j - 1) (by omega)
    · rw [if_neg hone]
      exact .inr ⟨1, Nat.one_pos, by simp, fun i hi hlt => by omega, Nat.not_lt.mp hone, rfl⟩

/-- All chains of a start node. -/
def chainsFrom (g : MaterializedGraph) (σ : HashOrder) (types : List String) (start : Node) :
    List (List String) :=
  grown g σ types [[start.nodeId]]

/-- With so many results the chains of one of the start nodes reach the cap before their last
type. -/
def CutShort (g : MaterializedGraph) (σ : HashOrder) (types : List String) (maxResults : ℕ) :
    ℕ → List Node → Prop
  | _, [] => False
  | n, start :: starts =>
    (∃ j, 0 < j ∧ j < types.length ∧
      maxResults ≤ n + (chainsFrom g σ (types.take j) start).length) ∨
    n + (chainsFrom g σ types start).length < maxResults ∧
      CutShort g σ types maxResults (n + (chainsFrom g σ types start).length) starts

/-- A search that is not cut short finds all chains, as far as the cap goes. -/
theorem matchFrom_eq_take (hlt : results.length < maxResults) (starts : List Node)
    (hcut : ¬ CutShort g σ types maxResults results.length starts) :
    matchFrom g σ maxResults types starts results =
      (results ++ starts.flatMap (chainsFrom g σ types)).take maxResults := by
  induction starts generalizing results with
  | nil =>
    rw [matchFrom, List.flatMap_nil, List.append_nil, List.take_of_length_le hlt.le]
  | cons start starts ih =>
    rw [CutShort, not_or] at hcut
    obtain ⟨hlevels, hrest⟩ := hcut
    have htake : maxResults ≤ (results ++ chainsFrom g σ types start).length →
        (results ++ chainsFrom g σ types start).take maxResults =
          (results ++ (start :: starts).flatMap (chainsFrom g σ types)).take maxResults := by
      intro hle
      rw [List.flatMap_cons, ← List.append_assoc, List.take_append_of_le_length hle]
    rw [matchFrom]
    obtain ⟨hall, hgrow⟩ | ⟨j, hj, hle, hall, hreach, hgrow⟩ :=
      growChains_cases hlt (σ := σ) types [[start.nodeId]]
    · rw [hgrow]
      dsimp only
      split
      · rename_i hfull
        exact htake hfull
      · rename_i hfull
        rw [List.flatMap_cons, ← List.append_assoc]
        refine ih (Nat.not_le.mp hfull) fun hcut => hrest ?_
        rw [List.length_append] at hcut hfull
        exact ⟨Nat.not_le.mp hfull, hcut⟩
    · rw [hgrow]
      -- the cap is reached at the last type, or the search were cut short
      obtain rfl : j = types.length := by
        by_contra hne
        exact hlevels ⟨j, hj, by omega, hreach⟩
      rw [List.take_length] at hreach ⊢
      refine htake ?_
      rw [List.length_append]
      exact hreach

theorem length_of_mem_grown {c : List String} (hc : c ∈ grown g σ types chains) :
    ∃ chain ∈ chains, c.length = chain.length + types.length := by
  induction types generalizing chains with
  | nil => exact ⟨c, hc, rfl⟩
  | cons nextType types ih =>
    obtain ⟨chain, hchain, hlen⟩ := ih hc
    obtain ⟨chain', hchain', -, -, edge, -, -, -, rfl⟩ := mem_extensions.mp hchain
    refine ⟨chain', hchain', ?_⟩
    rw [hlen, List.length_append, List.length_singleton, List.length_cons]
    omega

/-- A search that is cut short returns a chain that is not finished. -/
theorem exists_short_of_cutShort (hlt : results.length < maxResults) (starts : List Node)
    (hcut : CutShort g σ types maxResults results.length starts) :
    ∃ c ∈ matchFrom g σ maxResults types starts results, c.length < types.length + 1 := by
  induction starts generalizing results with
  | nil => exact hcut.elim
  | cons start starts ih =>
    rw [matchFrom]
    obtain ⟨hall, hgrow⟩ | ⟨j, hj, hle, hall, hreach, hgrow⟩ :=
      growChains_cases hlt (σ := σ) types [[start.nodeId]]
    · obtain ⟨i, hi, hilt, hreach⟩ | ⟨hfew, hcut⟩ := hcut
      · exact absurd (hall i hi hilt.le) (Nat.not_lt.mpr hreach)
      · rw [hgrow]
        dsimp only
        rw [← List.length_append] at hfew hcut
        split
        · rename_i hfull
          exact absurd hfew (Nat.not_lt.mpr hfull)
        · exact ih hfew hcut
    · rw [hgrow]
      have hshort : j < types.length := by
        by_contra hge
        obtain rfl : j = types.length := by omega
        rw [List.take_length] at hreach
        obtain ⟨i, hi, hilt, hreach'⟩ | ⟨hfew, -⟩ := hcut
        · exact absurd (hall i hi hilt) (Nat.not_lt.mpr hreach')
        · exact absurd hfew (Nat.not_lt.mpr hreach)
      -- the chain right after the results is one of the unfinished
      have hlen : results.length < ((results ++ grown g σ (types.take j) [[start.nodeId]]).take
          maxResults).length := by
        rw [List.length_take, List.length_append]
        omega
      refine ⟨_, List.getElem_mem hlen, ?_⟩
      rw [List.getElem_take, List.getElem_append_right (Nat.le_refl _)]
      obtain ⟨chain, hchain, hlen⟩ := length_of_mem_grown (List.getElem_mem _)
      rw [hlen, List.mem_singleton.mp hchain, List.length_take, List.length_singleton]
      omega

theorem length_extendChains_le {steps : List (List String × Edge)} {r : List (List String)}
    (h : extendChains g nextType maxResults results steps extended = .inr r) :
    r.length ≤ maxResults := by
  induction steps generalizing extended with
  | nil => cases h
  | cons step steps ih =>
    rw [extendChains_cons] at h
    split at h
    · exact ih h
    · split at h
      · rw [← Sum.inr.inj h]
        exact List.length_take_le _ _
      · exact ih h

theorem length_growChains_le {r : List (List String)}
    (h : growChains g σ maxResults results types chains = .inr r) : r.length ≤ maxResults := by
  induction types generalizing chains with
  | nil => cases h
  | cons nextType types ih =>
    rw [growChains] at h
    split at h
    · exact ih h
    · rename_i r' hextend
      rw [← Sum.inr.inj h]
      exact length_extendChains_le hextend

/-- No more results than the cap are returned. -/
theorem length_matchFrom_le (hle : results.length ≤ maxResults) (starts : List Node) :
    (matchFrom g σ maxResults types starts results).length ≤ maxResults := by
  induction starts generalizing results with
  | nil => exact hle
  | cons start starts ih =>
    rw [matchFrom]
    split
    · rename_i r hgrow
      exact length_growChains_le hgrow
    · dsimp only
      split
      · exact List.length_take_le _ _
      · rename_i hfull
        exact ih (by omega)

end Cap

/-! ### What the chains are -/

/-- A live node of the type. -/
def OfType (g : MaterializedGraph) (id ty : String) : Prop :=
  ∃ nd, g.getNode id = some nd ∧ nd.nodeType = ty

/-- A live node of the type or of a type below it. -/
def OfTypeBelow (g : MaterializedGraph) (id ty : String) : Prop :=
  ∃ nd, g.getNode id = some nd ∧ (nd.nodeType = ty ∨ ty ∈ g.ontology.ancestors nd.nodeType)

/-- The chain matches the sequence: live nodes of its types or of types below these, none of them
twice, and an edge from each to the next. -/
structure Matched (g : MaterializedGraph) (typeSequence chain : List String) : Prop where
  types : List.Forall₂ (OfTypeBelow g) chain typeSequence
  nodup : chain.Nodup
  links : chain.IsChain (g.Linked none)

theorem OfType.below {id ty : String} (h : OfType g id ty) : OfTypeBelow g id ty := by
  obtain ⟨nd, hnd, hty⟩ := h
  exact ⟨nd, hnd, .inl hty⟩

theorem OfTypeBelow.live {id ty : String} (h : OfTypeBelow g id ty) : g.isNodeLive id = true := by
  obtain ⟨nd, hnd, -⟩ := h
  rw [isNodeLive_iff, hnd]
  rfl

theorem live_of_ofType {rest types : List String} (h : List.Forall₂ (OfType g) rest types) :
    ∀ x ∈ rest, g.isNodeLive x = true := by
  induction h with
  | nil => exact nofun
  | cons hty _ ih => exact List.forall_mem_cons.mpr ⟨hty.below.live, ih⟩

/-- A list that goes along with one that ends in an element ends in one itself. -/
theorem forall₂_concat_iff {α β : Type} {R : α → β → Prop} {l : List α} {m : List β} {b : β} :
    List.Forall₂ R l (m ++ [b]) ↔ ∃ l' a, l = l' ++ [a] ∧ List.Forall₂ R l' m ∧ R a b := by
  rw [← List.forall₂_reverse_iff, List.reverse_append, List.reverse_singleton,
    List.singleton_append, List.forall₂_cons_right_iff]
  constructor
  · rintro ⟨a, u, hab, hu, heq⟩
    refine ⟨u.reverse, a, ?_, ?_, hab⟩
    · rw [← List.reverse_reverse l, heq, List.reverse_cons]
    · rwa [← List.forall₂_reverse_iff, List.reverse_reverse]
  · rintro ⟨l', a, rfl, hl', hab⟩
    exact ⟨a, l'.reverse, hab, List.forall₂_reverse_iff.mpr hl', by simp⟩

/-- **The chains of a start node** are those whose later types are exactly the given ones. -/
theorem mem_grown (hg : g.Coherent) {start : String} (hlive : g.isNodeLive start = true)
    {types : List String} {c : List String} :
    c ∈ grown g σ types [[start]] ↔ ∃ rest, c = start :: rest ∧ List.Forall₂ (OfType g) rest types ∧
      c.Nodup ∧ c.IsChain (g.Linked none) := by
  induction types using List.reverseRecOn generalizing c with
  | nil =>
    rw [grown, List.foldl_nil, List.mem_singleton]
    constructor
    · rintro rfl
      exact ⟨[], rfl, .nil, List.nodup_singleton _, List.isChain_singleton _⟩
    · rintro ⟨rest, rfl, hrest, -, -⟩
      rw [List.forall₂_nil_right_iff.mp hrest]
  | append_singleton types ty ih =>
    have hstep : grown g σ (types ++ [ty]) [[start]] =
        extensions g σ ty (grown g σ types [[start]]) := by
      rw [grown, List.foldl_append]
      rfl
    rw [hstep, mem_extensions]
    simp only [ih, forall₂_concat_iff]
    -- the last node of a chain is live, so its edges are the visible ones
    have hlast : ∀ {rest : List String} {last : String}, List.Forall₂ (OfType g) rest types →
        (start :: rest).getLast? = some last → g.isNodeLive last = true := by
      intro rest last hrest hlast
      obtain rfl | hmem := List.mem_cons.mp (List.mem_of_getLast? hlast)
      · exact hlive
      · exact live_of_ofType hrest last hmem
    constructor
    · rintro ⟨_, ⟨rest, rfl, hrest, hnodup, hlinks⟩, last, hend, edge, hedge, hty, hnew, rfl⟩
      obtain ⟨hvis, hsrc⟩ := (hg.mem_outgoingEdges_visible (hlast hrest hend)).mp hedge
      refine ⟨rest ++ [edge.targetId], rfl, ⟨rest, edge.targetId, rfl, hrest, hty⟩, ?_, ?_⟩
      · refine List.nodup_append.mpr ⟨hnodup, List.nodup_singleton _, fun a ha b hb => ?_⟩
        obtain rfl := List.mem_singleton.mp hb
        exact fun heq => hnew (heq ▸ ha)
      · refine List.isChain_append.mpr ⟨hlinks, List.isChain_singleton _, fun a ha b hb => ?_⟩
        obtain rfl := Option.some.inj (hend.symm.trans ha)
        obtain rfl := Option.some.inj hb
        exact ⟨edge.edgeId, edge, hvis, hsrc, rfl, nofun⟩
    · rintro ⟨_, rfl, ⟨rest, y, rfl, hrest, hty⟩, hnodup, hlinks⟩
      rw [← List.cons_append] at hnodup hlinks ⊢
      obtain ⟨hnodup', -, hne⟩ := List.nodup_append.mp hnodup
      obtain ⟨hlinks', -, hlink⟩ := List.isChain_append.mp hlinks
      obtain ⟨last, hend⟩ : ∃ last, (start :: rest).getLast? = some last :=
        ⟨_, List.getLast?_eq_getLast_of_ne_nil (List.cons_ne_nil start rest)⟩
      obtain ⟨id, edge, hvis, hsrc, rfl, -⟩ := hlink last hend y rfl
      refine ⟨start :: rest, ⟨rest, rfl, hrest, hnodup', hlinks'⟩, last, hend, edge, ?_, hty,
        fun hmem => hne _ hmem _ (List.mem_singleton.mpr rfl) rfl, rfl⟩
      rw [hg.mem_outgoingEdges_visible (hlast hrest hend)]
      exact ⟨hg.edgeId_of_visible hvis ▸ hvis, hsrc⟩

/-- All chains of all start nodes: those that match with their later types exact. -/
theorem mem_chains (hg : g.Coherent) {first : String} {types c : List String} :
    c ∈ (g.nodesByType σ first).flatMap (chainsFrom g σ types) ↔
      Matched g (first :: types) c ∧ List.Forall₂ (OfType g) c.tail types := by
  rw [List.mem_flatMap]
  constructor
  · rintro ⟨nd, hnd, hc⟩
    rw [hg.mem_nodesByType, mem_allNodes hg.sound] at hnd
    have hty : OfTypeBelow g nd.nodeId first := ⟨nd, hnd⟩
    obtain ⟨rest, rfl, hrest, hnodup, hlinks⟩ := (mem_grown hg hty.live).mp hc
    exact ⟨⟨.cons hty (hrest.imp fun _ _ h => h.below), hnodup, hlinks⟩, hrest⟩
  · rintro ⟨⟨htypes, hnodup, hlinks⟩, hrest⟩
    obtain ⟨id, rest, hid, -, rfl⟩ := List.forall₂_cons_right_iff.mp htypes
    obtain ⟨nd, hnd, hty⟩ := hid
    obtain rfl := hg.nodeId_of_getNode hnd
    have hlive : g.isNodeLive nd.nodeId = true := OfTypeBelow.live ⟨nd, hnd, hty⟩
    refine ⟨nd, ?_, (mem_grown hg hlive).mpr ⟨rest, rfl, hrest, hnodup, hlinks⟩⟩
    rw [hg.mem_nodesByType, mem_allNodes hg.sound]
    exact ⟨hnd, hty⟩

/-! ### When the matches are exact -/

/-- The chains returned match, they are no more than the cap, and if they are fewer they are all
that match. -/
structure MatchesExactly (g : MaterializedGraph) (typeSequence : List String) (maxResults : ℕ)
    (chains : List (List String)) : Prop where
  sound : ∀ c ∈ chains, Matched g typeSequence c
  atMost : chains.length ≤ maxResults
  complete : chains.length < maxResults → ∀ c, Matched g typeSequence c → c ∈ chains

/-- After its first node no chain that matches has a type below that of the sequence. -/
def NothingBelow (g : MaterializedGraph) (first : String) (types : List String) : Prop :=
  ∀ c, Matched g (first :: types) c → List.Forall₂ (OfType g) c.tail types

/-- **Pattern matching** in a graph after any calls is exact if and only if the search is not cut
short, and it fills the cap or there is nothing below the later types. A cap of zero asks for
nothing. -/
theorem pattern_match_exact_iff [Crates] (σ σ' : HashOrder) (o : Ontology) (calls : List GraphCall)
    (first : String) (types : List String) (maxResults : ℕ) :
    let g := calls.foldl (GraphCall.run σ) (new o)
    MatchesExactly g (first :: types) maxResults (patternMatch g σ' (first :: types) maxResults) ↔
      maxResults = 0 ∨ ¬ CutShort g σ' types maxResults 0 (g.nodesByType σ' first) ∧
        (maxResults ≤ ((g.nodesByType σ' first).flatMap (chainsFrom g σ' types)).length ∨
          NothingBelow g first types) := by
  intro g
  have hg : g.Coherent := coherent_run σ o calls
  rw [patternMatch]
  obtain rfl | hpos := Nat.eq_zero_or_pos maxResults
  · have hnone : matchFrom g σ' 0 types (g.nodesByType σ' first) [] = [] :=
      List.eq_nil_of_length_eq_zero (Nat.le_zero.mp (length_matchFrom_le (Nat.le_refl 0) _))
    rw [hnone]
    exact ⟨fun _ => .inl rfl, fun _ => ⟨nofun, Nat.le_refl 0, fun h => absurd h (Nat.lt_irrefl 0)⟩⟩
  have hlt : ([] : List (List String)).length < maxResults := hpos
  by_cases hcut : CutShort g σ' types maxResults 0 (g.nodesByType σ' first)
  · obtain ⟨c, hc, hlen⟩ := exists_short_of_cutShort hlt _ hcut
    constructor
    · intro h
      have hfull := (h.sound c hc).types.length_eq
      rw [List.length_cons] at hfull
      omega
    · rintro (rfl | ⟨hnot, -⟩)
      · exact absurd hpos (Nat.lt_irrefl 0)
      · exact absurd hcut hnot
  · rw [matchFrom_eq_take hlt _ hcut, List.nil_append]
    constructor
    · intro h
      refine .inr ⟨hcut, ?_⟩
      by_contra hnot
      rw [not_or, Nat.not_le] at hnot
      obtain ⟨hfew, hbelow⟩ := hnot
      have hcomplete := h.complete
      rw [List.take_of_length_le hfew.le] at hcomplete
      exact hbelow fun c hc => ((mem_chains hg).mp (hcomplete hfew c hc)).2
    · rintro (rfl | ⟨-, hor⟩)
      · exact absurd hpos (Nat.lt_irrefl 0)
      refine ⟨fun c hc => ((mem_chains hg).mp (List.mem_of_mem_take hc)).1, List.length_take_le _ _,
        fun hfew c hc => ?_⟩
      rw [List.length_take] at hfew
      obtain hfull | hbelow := hor
      · omega
      · rw [List.take_of_length_le (by omega)]
        exact (mem_chains hg).mpr ⟨hc, hbelow c hc⟩

end Engine

namespace Sample

/-- Persons, and visitors, who are persons too. Persons may know visitors. -/
def visitors : Ontology where
  nodeTypes := ((∅ : BTreeMap String NodeTypeDef).insert "person" { }).insert "visitor"
    { parentType := some "person" }
  edgeTypes := (∅ : BTreeMap String EdgeTypeDef).insert "knows"
    { sourceTypes := ["person"], targetTypes := ["person", "visitor"] }

/-- Ann knows Vic, who is a visitor. -/
def visit : List GraphCall :=
  [.apply (.new (.addNode "ann" "person" none "Ann" ∅) [] [] ⟨"a", 1, 0⟩ "a"),
    .apply (.new (.addNode "vic" "visitor" none "Vic" ∅) [] [] ⟨"a", 2, 0⟩ "a"),
    .apply (.new (.addEdge "e" "knows" "ann" "vic" ∅) [] [] ⟨"a", 3, 0⟩ "a")]

end Sample

namespace Engine

open Sample in
/-- **A chain of two nodes comes back for a sequence of three** with a cap of one, and with room
for ten results the one chain that matches is missed, for its second node is a visitor. -/
theorem pattern_match_inexact :
    let Exact (o : Ontology) (calls : List GraphCall) (typeSequence : List String) (maxResults : ℕ) :=
      ∀ σ σ', let g := calls.foldl (GraphCall.run σ) (new o)
        MatchesExactly g typeSequence maxResults (patternMatch g σ' typeSequence maxResults)
    ¬ Exact guests meeting ["person", "person", "person"] 1 ∧
      ¬ Exact visitors visit ["person", "person"] 10 := by
  constructor
  · intro h
    have hfound : patternMatch (meeting.foldl (GraphCall.run .keyOrder) (new guests)) .keyOrder
        ["person", "person", "person"] 1 = [["ann", "bob"]] := by
      decide +kernel
    have hmatched := (h .keyOrder .keyOrder).sound ["ann", "bob"] (by rw [hfound]; decide)
    exact absurd hmatched.types.length_eq (by decide)
  · intro h
    let g := visit.foldl (GraphCall.run .keyOrder) (new visitors)
    have hfound : patternMatch g .keyOrder ["person", "person"] 10 = [] := by
      decide +kernel
    have hann : (g.getNode "ann").map Node.nodeType = some "person" := by
      decide +kernel
    have hvic : (g.getNode "vic").map Node.nodeType = some "visitor" := by
      decide +kernel
    have hbelow : "person" ∈ g.ontology.ancestors "visitor" := by
      decide +kernel
    have hedge : (g.visibleEdge "e").map (fun ed => (ed.sourceId, ed.targetId)) =
        some ("ann", "vic") := by
      decide +kernel
    obtain ⟨ann, hann, hperson⟩ := Option.map_eq_some_iff.mp hann
    obtain ⟨vic, hvic, hvisitor⟩ := Option.map_eq_some_iff.mp hvic
    obtain ⟨ed, hed, hends⟩ := Option.map_eq_some_iff.mp hedge
    have hmatched : Matched g ["person", "person"] ["ann", "vic"] := by
      refine ⟨.cons ⟨ann, hann, .inl hperson⟩ (.cons ⟨vic, hvic, .inr ?_⟩ .nil), by decide, ?_⟩
      · rw [hvisitor]
        exact hbelow
      · have hlink : g.Linked none "ann" "vic" :=
          ⟨"e", ed, hed, congrArg Prod.fst hends, congrArg Prod.snd hends, nofun⟩
        exact List.isChain_pair.mpr hlink
    have hmem := (h .keyOrder .keyOrder).complete (by rw [hfound]; decide) _ hmatched
    rw [hfound] at hmem
    cases hmem

end Engine

end SilkGraph
