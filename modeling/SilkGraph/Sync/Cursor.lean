import SilkGraph.Sync.Tail

/-!
# Deltas past a cursor

A cursor is a list of hashes that a consumer has seen, their ancestors included. It need not
be a set of heads, nor an antichain. `entries_since_heads` takes the entries reachable from
the heads, drops those reachable from the cursor, and sorts the rest; `DeltaOf` says what
should come out, in terms of the causal order alone.
-/

namespace SilkGraph

section

variable [Crates] {L : OpLog} {cursor : List Hash}

omit [Crates] in
/-- What is past a cursor: the entries that are neither in it nor an ancestor of a member,
each once, after those of its parents that are past the cursor as well. -/
structure OpLog.DeltaOf (L : OpLog) (cursor : List Hash) (delta : List Entry) : Prop where
  nodup : (hashesOf delta).Nodup
  mem_iff : ∀ e : Entry, e ∈ delta ↔ L.entries[e.hash]? = some e ∧ e.hash ∉ cursor ∧
    ∀ c ∈ cursor, ¬ Dag.Ancestor L.nextOf e.hash c
  parentsFirst : ∀ pre e post, delta = pre ++ e :: post →
    ∀ p ∈ e.next, p ∈ hashesOf delta → p ∈ hashesOf pre

omit [Crates] in
theorem OpLog.not_coveredBy_iff {h : Hash} :
    ¬ L.CoveredBy cursor h ↔ h ∉ cursor ∧ ∀ c ∈ cursor, ¬ Dag.Ancestor L.nextOf h c := by
  rw [OpLog.CoveredBy]
  constructor
  · intro hno
    exact ⟨fun hh => hno ⟨h, hh, .inl rfl⟩, fun c hc ha => hno ⟨c, hc, .inr ha⟩⟩
  · rintro ⟨hh, hno⟩ ⟨c, hc, rfl | ha⟩
    · exact hh hc
    · exact hno c hc ha

/-- Without references, every link is one of the causal order. -/
theorem OpLog.tailable_of_bare (hL : L.WellFormed) (hnd : L.NextNodup)
    (bare : L.All fun _ e => e.refs = []) : L.Tailable where
  nextNodup := hnd
  refs h e he r hr := by
    rw [bare h e he] at hr
    cases hr
  wellFormed := hL

/-- **Known cursors.** The answer is what is past the cursor. -/
theorem OpLog.Tailable.entriesSinceHeads_delta (hL : L.Tailable) (hc : ∀ c ∈ cursor, c ∈ L.entries) :
    ∃ delta, L.entriesSinceHeads cursor = some (.ok delta) ∧ L.DeltaOf cursor delta := by
  obtain ⟨delta, hdelta, hnd, hmem, hfirst⟩ := hL.entriesSinceHeads_spec hc
  refine ⟨delta, hdelta, hnd, fun e => ?_, fun pre e post heq p hp hin => ?_⟩
  · rw [hmem, OpLog.not_coveredBy_iff]
  · have he := (hmem e).mp (heq ▸ List.mem_append_right pre List.mem_cons_self)
    obtain ⟨x, hx, rfl⟩ := List.mem_map.mp hin
    obtain ⟨hxL, hxc⟩ := (hmem x).mp hx
    refine hfirst (hashesOf pre) e.hash (hashesOf post) ?_ x.hash ?_
      ⟨HashMap.mem_iff_getElem?.mpr ⟨x, hxL⟩, hxc⟩
    · rw [heq]
      simp only [hashesOf, List.map_append, List.map_cons]
    · rw [nextOf_eq_of_get he.1]
      exact hp

omit [Crates] in
/-- **Unknown cursors.** The answer is an error. -/
theorem OpLog.entriesSinceHeads_of_unknown {c : Hash} (hc : c ∈ cursor) (hno : c ∉ L.entries) :
    ∃ h, L.entriesSinceHeads cursor = some (.error (.missingParent (hexEncode h))) := by
  cases hmiss : L.missingParent cursor with
  | none => exact absurd (missingParent_eq_none.mp hmiss c hc) hno
  | some h =>
    refine ⟨h, ?_⟩
    rw [OpLog.entriesSinceHeads, hmiss]

/-- **Deltas are exact.** In a log built by appends of entries without repeated parents and
without references, a cursor of stored hashes is answered with what is past it: nothing for the
heads, everything for no cursor. A cursor is refused exactly if it has a hash the log does not
hold. -/
theorem entries_since_heads_exact {g : Entry} (hg : g.verifyHash) (hroot : g.next = [])
    (es : List Entry) (hnd : ((OpLog.new g).appendAll es).NextNodup)
    (bare : ((OpLog.new g).appendAll es).All fun _ e => e.refs = []) (cursor : List Hash) :
    let L := (OpLog.new g).appendAll es
    ((∀ c ∈ cursor, c ∈ L.entries) →
      ∃ delta, L.entriesSinceHeads cursor = some (.ok delta) ∧ L.DeltaOf cursor delta) ∧
    ((∀ h, h ∈ cursor ↔ h ∈ L.heads) → L.entriesSinceHeads cursor = some (.ok [])) ∧
    (cursor = [] → ∃ delta, L.entriesSinceHeads cursor = some (.ok delta) ∧
      L.DeltaOf cursor delta ∧ ∀ e : Entry, e ∈ delta ↔ L.entries[e.hash]? = some e) ∧
    ((∃ err, L.entriesSinceHeads cursor = some (.error err)) ↔ ∃ c ∈ cursor, c ∉ L.entries) := by
  intro L
  have hL : L.Tailable :=
    OpLog.tailable_of_bare ((OpLog.WellFormed.new hg hroot).appendAll es) hnd bare
  refine ⟨hL.entriesSinceHeads_delta, fun hheads => ?_, ?_, ?_⟩
  · have hstored : ∀ c ∈ cursor, c ∈ L.entries := fun c hc =>
      ((hL.wellFormed.rep.heads c).mp ((hheads c).mp hc)).1
    obtain ⟨delta, hdelta, -, hmem, -⟩ := hL.entriesSinceHeads_delta hstored
    -- every stored hash is a head or an ancestor of one
    have hnil : delta = [] := List.eq_nil_iff_forall_not_mem.mpr fun e he => by
      obtain ⟨hget, hnot, hanc⟩ := (hmem e).mp he
      obtain ⟨t, ht, heq | hth⟩ := hL.wellFormed.exists_head (HashMap.mem_iff_getElem?.mpr ⟨e, hget⟩)
      · exact hnot (heq ▸ (hheads t).mpr ht)
      · exact hanc t ((hheads t).mpr ht) hth
    rw [hdelta, hnil]
  · rintro rfl
    obtain ⟨delta, hdelta, hd⟩ := @OpLog.Tailable.entriesSinceHeads_delta _ _ [] hL nofun
    refine ⟨delta, hdelta, hd, fun e => ?_⟩
    rw [hd.mem_iff]
    simp
  · constructor
    · rintro ⟨err, herr⟩
      by_contra hno
      push Not at hno
      obtain ⟨delta, hdelta, -⟩ := hL.entriesSinceHeads_delta hno
      rw [hdelta] at herr
      cases herr
    · rintro ⟨c, hc, hno⟩
      obtain ⟨h, hh⟩ := OpLog.entriesSinceHeads_of_unknown hc hno
      exact ⟨_, hh⟩

end

open Sample in
/-- A fork and a merge above it, the cursor at one branch: the other branch and the merge. -/
theorem entries_since_heads_exact_fork :
    let g := Entry.new (.removeNode "a") [] [] ⟨"ann", 1, 0⟩ "ann"
    let l := Entry.new (.removeNode "l") [g.hash] [] ⟨"ann", 2, 0⟩ "ann"
    let r := Entry.new (.removeNode "r") [g.hash] [] ⟨"ann", 3, 0⟩ "ann"
    let m := Entry.new (.removeNode "m") [l.hash, r.hash] [] ⟨"ann", 4, 0⟩ "ann"
    let L := (OpLog.new g).appendAll [l, r, m]
    ∃ delta, L.entriesSinceHeads [r.hash] = some (.ok delta) ∧ L.DeltaOf [r.hash] delta ∧
      hashesOf delta = [l.hash, m.hash] := by
  intro g l r m L
  have hplain : Plain L := Plain.of_toList (by decide +kernel)
  obtain ⟨hdelta, -⟩ := entries_since_heads_exact (Entry.verifyHash_new ..) rfl [l, r, m]
    hplain.nextNodup (fun h e he => hplain.noRefs h e he) [r.hash]
  have hstored : ([r.hash].all fun h => L.entries.contains h) = true := by decide +kernel
  obtain ⟨delta, hrun, hd⟩ := hdelta fun c hc =>
    Std.ExtTreeMap.contains_iff_mem.mp (List.all_eq_true.mp hstored c hc)
  refine ⟨delta, hrun, hd, ?_⟩
  have hhashes : ((L.entriesSinceHeads [r.hash]).map fun
      | .ok es => hashesOf es
      | .error _ => []) = some [l.hash, m.hash] := by decide +kernel
  rw [hrun] at hhashes
  exact Option.some.inj hhashes

end SilkGraph
