import SilkGraph.Lib.Dag
import SilkGraph.OpLog.Basic

/-!
# The representation invariant of the log

The log keeps four structures beside each other: the entry table, the heads, the reverse
index and a counter. `RepInv` says how the last three follow from the first, and that the
table is closed under parents and keyed by valid hashes. It holds of a fresh log and is kept
by `append` on its success path, its duplicate path, its rejection path and its wholesale
replacement path (`RepInv.append`), hence along every sequence of calls (`RepInv.run`).

`append_cases` says once what a call can do; everything about `append` here and later is
derived from it.
-/

namespace SilkGraph

namespace OpLog

section

variable [Crates] {L L' : OpLog} {e : Entry} {h p : Hash}

/-! ### What one append does -/

omit [Crates] in
theorem missingParent_eq_none {next : List Hash} :
    L.missingParent next = none ↔ ∀ p ∈ next, p ∈ L.entries := by
  simp [missingParent]

omit [Crates] in
theorem of_missingParent_eq_some {next : List Hash} (h : L.missingParent next = some p) :
    p ∈ next ∧ p ∉ L.entries := by
  have hp : (!L.entries.contains p) = true :=
    List.find?_some (p := fun q => !L.entries.contains q) h
  refine ⟨List.mem_of_find?_eq_some h, fun hmem => ?_⟩
  rw [Std.ExtTreeMap.contains_iff_mem.mpr hmem] at hp
  cases hp

/-- The four outcomes of `append`: the entry is refused for its hash, it is already held, it
is a parentless checkpoint that replaces the log, or it is refused for a missing parent or
inserted. A log that holds nothing is out of the picture: there is none. -/
theorem append_cases (hne : L.entries ≠ ∅) (e : Entry) :
    (¬ e.verifyHash ∧ L.append e = (.error .invalidHash, L)) ∨
    (e.verifyHash ∧ e.hash ∈ L.entries ∧ L.append e = (.ok false, L)) ∨
    (e.verifyHash ∧ e.hash ∉ L.entries ∧ e.isRootCheckpoint ∧
      L.append e = (.ok true, L.replaceWithCheckpoint e)) ∨
    (e.verifyHash ∧ e.hash ∉ L.entries ∧ ¬ e.isRootCheckpoint ∧
      ∃ p ∈ e.next, p ∉ L.entries ∧
        L.append e = (.error (.missingParent (hexEncode p)), L)) ∨
    (e.verifyHash ∧ e.hash ∉ L.entries ∧ ¬ e.isRootCheckpoint ∧
      (∀ p ∈ e.next, p ∈ L.entries) ∧ L.append e = (.ok true, L.insertEntry e)) := by
  have hemp : L.entries.isEmpty = false := Std.ExtTreeMap.isEmpty_eq_false_iff.mpr hne
  by_cases hv : e.verifyHash
  · by_cases hd : e.hash ∈ L.entries
    · exact .inr (.inl ⟨hv, hd, by simp [append, hv, hd]⟩)
    · by_cases hc : e.isRootCheckpoint
      · refine .inr (.inr (.inl ⟨hv, hd, hc, ?_⟩))
        simp only [Entry.isRootCheckpoint, Bool.and_eq_true] at hc
        simp [append, hv, hd, hemp, hc.1, hc.2]
      · have hc' : (e.next.isEmpty && e.payload.isCheckpoint) = false := by
          simpa [Entry.isRootCheckpoint] using hc
        cases hm : L.missingParent e.next with
        | none =>
          refine .inr (.inr (.inr (.inr ⟨hv, hd, hc, missingParent_eq_none.mp hm, ?_⟩)))
          simp [append, hv, hd, hemp, hc', hm]
        | some p =>
          obtain ⟨hp, hpL⟩ := of_missingParent_eq_some hm
          refine .inr (.inr (.inr (.inl ⟨hv, hd, hc, p, hp, hpL, ?_⟩)))
          simp [append, hv, hd, hemp, hc', hm]
  · exact .inl ⟨hv, by simp [append, hv]⟩

/-- The success path: a new hash, valid, under parents that are held, and no parentless
checkpoint. -/
theorem append_eq_insertEntry (hne : L.entries ≠ ∅) (hv : e.verifyHash) (hd : e.hash ∉ L.entries)
    (hc : ¬ e.isRootCheckpoint) (hp : ∀ p ∈ e.next, p ∈ L.entries) :
    L.append e = (.ok true, L.insertEntry e) := by
  rcases append_cases hne e with ⟨hv', -⟩ | ⟨-, hd', -⟩ | ⟨-, -, hc', -⟩ | ⟨-, -, -, p, hpe, hpL, -⟩ |
    ⟨-, -, -, -, h⟩
  · exact absurd hv hv'
  · exact absurd hd' hd
  · exact absurd hc' hc
  · exact absurd (hp p hpe) hpL
  · exact h

/-- The replacement path: a new parentless checkpoint. -/
theorem append_eq_replace (hne : L.entries ≠ ∅) (hv : e.verifyHash) (hd : e.hash ∉ L.entries)
    (hc : e.isRootCheckpoint) : L.append e = (.ok true, L.replaceWithCheckpoint e) := by
  rcases append_cases hne e with ⟨hv', -⟩ | ⟨-, hd', -⟩ | ⟨-, -, -, h⟩ | ⟨-, -, hc', -⟩ |
    ⟨-, -, hc', -⟩
  · exact absurd hv hv'
  · exact absurd hd' hd
  · exact h
  · exact absurd hc hc'
  · exact absurd hc hc'

/-- Only hash-valid entries are inserted. -/
theorem verifyHash_of_append {b : Bool} (h : (L.append e).1 = .ok b) : e.verifyHash := by
  by_contra hv
  have hc : (!e.verifyHash) = true := by simpa using hv
  rw [append, if_pos hc] at h
  cases h

/-- A call that does not insert leaves every field of the log alone, whatever the log. -/
theorem append_unchanged (L : OpLog) (e : Entry) (h : (L.append e).1 ≠ .ok true) :
    (L.append e).2 = L := by
  unfold append at h ⊢
  split
  · rfl
  · split
    · rfl
    · split
      · simp_all
      · cases hm : L.missingParent e.next <;> simp_all

/-! ### The entry table of the updated logs -/

omit [Crates] in
theorem getElem?_new (g : Entry) (h : Hash) :
    (new g).entries[h]? = if g.hash = h then some g else none := by
  simp [new, HashMap.getElem?_insert]

omit [Crates] in
theorem replaceWithCheckpoint_eq_new (L : OpLog) (c : Entry) :
    L.replaceWithCheckpoint c = new c := rfl

omit [Crates] in
theorem getElem?_insertEntry (L : OpLog) (e : Entry) (h : Hash) :
    (L.insertEntry e).entries[h]? = if e.hash = h then some e else L.entries[h]? := by
  simp [insertEntry, HashMap.getElem?_insert]

/-- Every entry of the log has a property, which may look at the hash it is stored under. -/
def All (self : OpLog) (P : Hash → Entry → Prop) : Prop :=
  ∀ (h : Hash) (e : Entry), self.entries[h]? = some e → P h e

omit [Crates] in
theorem All.mono {P Q : Hash → Entry → Prop} (hL : L.All P) (hPQ : ∀ h e, P h e → Q h e) :
    L.All Q := fun h e he => hPQ h e (hL h e he)

omit [Crates] in
theorem All.new {P : Hash → Entry → Prop} (he : P e.hash e) : (new e).All P := by
  intro h x hx
  rw [getElem?_new] at hx
  split at hx
  · rename_i heq
    obtain rfl := Option.some.inj hx
    exact heq ▸ he
  · cases hx

/-- An append brings in nothing but its entry. -/
theorem All.append {P : Hash → Entry → Prop} (hL : L.All P) (he : P e.hash e) :
    (L.append e).2.All P := by
  rw [OpLog.append]
  split
  · exact hL
  · split
    · exact hL
    · split
      · exact All.new he
      · split
        · exact hL
        · intro h x hx
          rw [getElem?_insertEntry] at hx
          split at hx
          · rename_i heq
            obtain rfl := Option.some.inj hx
            exact heq ▸ he
          · exact hL h x hx

theorem All.appendAll {P : Hash → Entry → Prop} (hL : L.All P) {es : List Entry}
    (hes : ∀ e ∈ es, P e.hash e) : (L.appendAll es).All P := by
  induction es generalizing L with
  | nil => exact hL
  | cons e es ih =>
    rw [List.forall_mem_cons] at hes
    exact ih (hL.append hes.1) hes.2

omit [Crates] in
theorem mem_foldl_erase (next : List Hash) (hs : HashSet Hash) :
    h ∈ next.foldl (fun hs p => hs.erase p) hs ↔ h ∈ hs ∧ h ∉ next := by
  induction next generalizing hs with
  | nil => simp
  | cons p next ih =>
    rw [List.foldl_cons, ih, HashSet.mem_erase, List.mem_cons]
    grind

/-- The successors the reverse index lists for a hash. -/
def childrenOf (self : OpLog) (p : Hash) : HashSet Hash := self.children[p]?.getD ∅

omit [Crates] in
theorem getElem?_foldl_addChild (next : List Hash) (ch : HashMap Hash (HashSet Hash))
    (h p : Hash) :
    (next.foldl (fun ch p => addChild ch p h) ch)[p]? =
      if p ∈ next then some ((ch[p]?.getD ∅).insert h) else ch[p]? := by
  induction next generalizing ch with
  | nil => simp
  | cons q next ih =>
    rw [List.foldl_cons, ih]
    by_cases hq : q = p
    · subst hq
      have hself : (addChild ch q h)[q]? = some ((ch[q]?.getD ∅).insert h) := by
        simp [addChild]
      rw [hself]
      by_cases hn : q ∈ next
      · have hidem : ((ch[q]?.getD ∅).insert h).insert h = (ch[q]?.getD ∅).insert h := by
          ext a
          simp
        simp [hn, hidem]
      · simp [hn]
    · have hother : (addChild ch q h)[p]? = ch[p]? := by
        simp [addChild, HashMap.getElem?_insert, hq]
      have hpq : p ≠ q := fun h => hq h.symm
      simp [hother, hpq]

/-! ### The invariant -/

/-- How the redundant structures of a log follow from its entry table. -/
structure RepInv (L : OpLog) : Prop where
  /-- Every stored entry is keyed by its own hash (I-01). -/
  keyed : ∀ (h : Hash) (e : Entry), L.entries[h]? = some e → e.hash = h ∧ e.verifyHash
  /-- Every parent of a stored entry is stored (I-02). -/
  parents : ∀ (h : Hash) (e : Entry), L.entries[h]? = some e → ∀ p ∈ e.next, p ∈ L.entries
  /-- The heads are the stored entries no stored entry lists as a parent (I-04). -/
  heads : ∀ h, h ∈ L.heads ↔
    h ∈ L.entries ∧ ∀ (h' : Hash) (e : Entry), L.entries[h']? = some e → h ∉ e.next
  /-- The reverse index is the inverse of `next`. -/
  children : ∀ p h, h ∈ L.childrenOf p ↔ ∃ e : Entry, L.entries[h]? = some e ∧ p ∈ e.next
  /-- The reverse index has no empty rows. -/
  rows : ∀ (p : Hash) (s : HashSet Hash), L.children[p]? = some s → s ≠ ∅
  /-- The counter counts the stored entries. -/
  len : L.len = L.entries.size

theorem RepInv.new {g : Entry} (hg : g.verifyHash) (hroot : g.next = []) :
    (OpLog.new g).RepInv := by
  refine ⟨fun h e he => ?_, fun h e he => ?_, fun h => ?_, fun p h => ?_, ?_, ?_⟩
  · rw [getElem?_new] at he
    split at he <;> simp_all
  · rw [getElem?_new] at he
    split at he <;> simp_all
  · simp only [getElem?_new]
    rw [OpLog.new, HashSet.mem_insert, HashMap.mem_insert]
    constructor
    · rintro (rfl | hh)
      · refine ⟨.inl rfl, fun h' e he => ?_⟩
        split at he <;> simp_all
      · exact absurd hh Std.ExtTreeSet.not_mem_empty
    · rintro ⟨rfl | hh, -⟩
      · exact .inl rfl
      · exact absurd hh Std.ExtTreeMap.not_mem_empty
  · constructor
    · intro hh
      simp [childrenOf, OpLog.new] at hh
    · rintro ⟨e, he, hp⟩
      rw [getElem?_new] at he
      split at he <;> simp_all
  · intro p s hs
    simp [OpLog.new] at hs
  · simp [OpLog.new, Std.ExtTreeMap.size_insert]

/-- Inserting an entry whose parents are held and whose hash is new keeps the invariant. -/
theorem RepInv.insertEntry (hL : L.RepInv) (hv : e.verifyHash) (hd : e.hash ∉ L.entries)
    (hp : ∀ p ∈ e.next, p ∈ L.entries) : (L.insertEntry e).RepInv := by
  have hget := getElem?_insertEntry L e
  have hmem : ∀ h, h ∈ (L.insertEntry e).entries ↔ e.hash = h ∨ h ∈ L.entries := fun h =>
    HashMap.mem_insert
  -- no entry names the new hash as a parent: parents are stored and the hash is not
  have hfresh : ∀ (h' : Hash) (e' : Entry), L.entries[h']? = some e' → e.hash ∉ e'.next := fun h' e' he' hc =>
    hd (hL.parents h' e' he' _ hc)
  have hself : e.hash ∉ e.next := fun hc => hd (hp _ hc)
  refine ⟨fun h e' he' => ?_, fun h e' he' p hp' => ?_, fun h => ?_, fun p h => ?_, ?_, ?_⟩
  · rw [hget] at he'
    split at he'
    · obtain rfl : e = e' := by simpa using he'
      exact ⟨by assumption, hv⟩
    · exact hL.keyed h e' he'
  · rw [hget] at he'
    rw [hmem]
    split at he'
    · obtain rfl : e = e' := by simpa using he'
      exact .inr (hp p hp')
    · exact .inr (hL.parents h e' he' p hp')
  · have hheads : h ∈ (L.insertEntry e).heads ↔ e.hash = h ∨ (h ∈ L.heads ∧ h ∉ e.next) := by
      rw [OpLog.insertEntry, HashSet.mem_insert, mem_foldl_erase]
    rw [hheads, hmem]
    constructor
    · rintro (rfl | ⟨hh, hn⟩)
      · refine ⟨.inl rfl, fun h' e' he' => ?_⟩
        rw [hget] at he'
        split at he'
        · obtain rfl : e = e' := by simpa using he'
          exact hself
        · exact hfresh h' e' he'
      · refine ⟨.inr ((hL.heads h).mp hh).1, fun h' e' he' => ?_⟩
        rw [hget] at he'
        split at he'
        · obtain rfl : e = e' := by simpa using he'
          exact hn
        · exact ((hL.heads h).mp hh).2 h' e' he'
    · rintro ⟨rfl | hh, hno⟩
      · exact .inl rfl
      · refine .inr ⟨(hL.heads h).mpr ⟨hh, fun h' e' he' => ?_⟩, hno e.hash e (by simp [hget])⟩
        refine hno h' e' ?_
        rw [hget, if_neg]
        · exact he'
        · rintro rfl
          exact hd (HashMap.mem_iff_getElem?.mpr ⟨e', he'⟩)
  · have hch : h ∈ (L.insertEntry e).childrenOf p ↔
        h ∈ L.childrenOf p ∨ (p ∈ e.next ∧ e.hash = h) := by
      rw [childrenOf, OpLog.insertEntry, getElem?_foldl_addChild]
      split
      · rw [Option.getD_some, HashSet.mem_insert, childrenOf]
        tauto
      · rw [childrenOf]
        tauto
    rw [hch, hL.children, hget]
    constructor
    · rintro (⟨e', he', hp'⟩ | ⟨hp', rfl⟩)
      · refine ⟨e', ?_, hp'⟩
        rw [if_neg]
        · exact he'
        · rintro rfl
          exact hd (HashMap.mem_iff_getElem?.mpr ⟨e', he'⟩)
      · exact ⟨e, by simp, hp'⟩
    · rintro ⟨e', he', hp'⟩
      split at he'
      · obtain rfl : e = e' := by simpa using he'
        exact .inr ⟨hp', by assumption⟩
      · exact .inl ⟨e', he', hp'⟩
  · intro p s hs
    rw [OpLog.insertEntry, getElem?_foldl_addChild] at hs
    split at hs
    · obtain rfl := Option.some.inj hs
      exact Std.ExtTreeSet.insert_ne_empty
    · exact hL.rows p s hs
  · have hc : ¬ L.entries.contains e.hash = true := fun hc =>
      hd (Std.ExtTreeMap.contains_iff_mem.mp hc)
    rw [OpLog.insertEntry, Std.ExtTreeMap.size_insert, if_neg hc, ← hL.len]

omit [Crates] in
theorem entries_new_ne_empty (g : Entry) : (OpLog.new g).entries ≠ ∅ :=
  Std.ExtTreeMap.insert_ne_empty

omit [Crates] in
theorem entries_insertEntry_ne_empty (L : OpLog) (e : Entry) : (L.insertEntry e).entries ≠ ∅ :=
  Std.ExtTreeMap.insert_ne_empty

/-- A log that has been built holds something: `append` and replacement both insert. -/
theorem entries_append_ne_empty (hne : L.entries ≠ ∅) (e : Entry) :
    (L.append e).2.entries ≠ ∅ := by
  rcases append_cases hne e with ⟨-, h⟩ | ⟨-, -, h⟩ | ⟨-, -, -, h⟩ | ⟨-, -, -, p, -, -, h⟩ |
    ⟨-, -, -, -, h⟩ <;> rw [h]
  · exact hne
  · exact hne
  · exact entries_new_ne_empty e
  · exact hne
  · exact entries_insertEntry_ne_empty L e

/-- An append adds nothing but its entry. -/
theorem mem_append (hne : L.entries ≠ ∅) (hh : h ∈ (L.append e).2.entries) :
    h ∈ L.entries ∨ h = e.hash := by
  rcases append_cases hne e with ⟨-, happ⟩ | ⟨-, -, happ⟩ | ⟨-, -, -, happ⟩ |
    ⟨-, -, -, p, -, -, happ⟩ | ⟨-, -, -, -, happ⟩ <;> rw [happ] at hh
  · exact .inl hh
  · exact .inl hh
  · rcases HashMap.mem_insert.mp hh with rfl | hh
    · exact .inr rfl
    · exact absurd hh Std.ExtTreeMap.not_mem_empty
  · exact .inl hh
  · rcases HashMap.mem_insert.mp hh with rfl | hh
    · exact .inr rfl
    · exact .inl hh

theorem entries_appendAll_ne_empty (hne : L.entries ≠ ∅) (es : List Entry) :
    (L.appendAll es).entries ≠ ∅ := by
  induction es generalizing L with
  | nil => exact hne
  | cons e es ih => exact ih (entries_append_ne_empty hne e)

theorem mem_appendAll (hne : L.entries ≠ ∅) {es : List Entry}
    (hh : h ∈ (L.appendAll es).entries) : h ∈ L.entries ∨ h ∈ es.map Entry.hash := by
  induction es generalizing L with
  | nil => exact .inl hh
  | cons e es ih =>
    rcases ih (entries_append_ne_empty hne e) hh with hh | hh
    · rcases mem_append hne hh with hh | hh
      · exact .inl hh
      · exact .inr (by rw [hh]; exact List.mem_cons_self)
    · exact .inr (List.mem_cons_of_mem _ hh)

/-- **Step.** Every append keeps the invariant, whichever path it takes. -/
theorem RepInv.append (hL : L.RepInv) (hne : L.entries ≠ ∅) (e : Entry) :
    (L.append e).2.RepInv := by
  rcases append_cases hne e with ⟨-, h⟩ | ⟨-, -, h⟩ | ⟨hv, -, hc, h⟩ | ⟨-, -, -, p, -, -, h⟩ |
    ⟨hv, hd, -, hp, h⟩ <;> rw [h]
  · exact hL
  · exact hL
  · simp only [Entry.isRootCheckpoint, Bool.and_eq_true, List.isEmpty_iff] at hc
    exact RepInv.new hv hc.1
  · exact hL
  · exact hL.insertEntry hv hd hp

/-- A log that satisfies the invariant passes its own integrity check. -/
theorem RepInv.verifyIntegrity (hL : L.RepInv) : L.verifyIntegrity = [] := by
  have hhash : (L.entries.toList.filter fun kv => !kv.2.verifyHash) = [] := by
    refine List.filter_eq_nil_iff.mpr fun kv hkv => ?_
    simp [(hL.keyed kv.1 kv.2 (HashMap.mem_toList.mp hkv)).2]
  have hparents : ∀ kv ∈ L.entries.toList,
      (kv.2.next.filter fun p => !L.entries.contains p) = [] := by
    refine fun kv hkv => List.filter_eq_nil_iff.mpr fun p hp => ?_
    simpa using hL.parents kv.1 kv.2 (HashMap.mem_toList.mp hkv) p hp
  have hsucc : ∀ h, h ∈ L.hasSuccessor ↔
      ∃ (h' : Hash) (e : Entry), L.entries[h']? = some e ∧ h ∈ e.next := by
    intro h
    rw [hasSuccessor, HashSet.mem_ofList, List.mem_flatMap]
    constructor
    · rintro ⟨⟨h', e⟩, hkv, hh⟩
      exact ⟨h', e, HashMap.mem_toList.mp hkv, hh⟩
    · rintro ⟨h', e, he, hh⟩
      exact ⟨(h', e), HashMap.mem_toList.mpr he, hh⟩
  have hheads : L.computedHeads = L.heads := by
    ext h
    rw [computedHeads, HashSet.mem_ofList, List.mem_filter, Std.ExtTreeMap.mem_keys, hL.heads]
    refine and_congr_right fun _ => ?_
    simp only [Bool.not_eq_true', ← Bool.not_eq_true, Std.ExtTreeSet.contains_iff_mem, hsucc]
    grind
  have hflat : (L.entries.toList.flatMap fun kv =>
      (kv.2.next.filter fun p => !L.entries.contains p).map fun p =>
        s!"I-02 violated: entry {hexEncode kv.1} references missing parent {hexEncode p}") = [] :=
    List.flatMap_eq_nil_iff.mpr fun kv hkv => by rw [hparents kv hkv, List.map_nil]
  rw [OpLog.verifyIntegrity, hhash, hflat, if_pos hheads]
  rfl

/-! ### Sequences of calls -/

/-- The calls that change a log. -/
inductive Call where
  | append (entry : Entry)
  | replaceWithCheckpoint (checkpoint : Entry)

/-- The log a call leaves behind. -/
def Call.exec (L : OpLog) : Call → OpLog
  | .append e => (L.append e).2
  | .replaceWithCheckpoint c => L.replaceWithCheckpoint c

/-- A checkpoint that replaces the log is hash-valid and parentless, as `compact` makes it;
what is appended is arbitrary. -/
def Call.Allowed : Call → Prop
  | .append _ => True
  | .replaceWithCheckpoint c => c.verifyHash ∧ c.next = []

/-- The log after a sequence of calls. -/
def run (L : OpLog) (calls : List Call) : OpLog := calls.foldl Call.exec L

/-- **Run.** The invariant holds after every sequence of calls. -/
theorem RepInv.run (hL : L.RepInv) (hne : L.entries ≠ ∅) (calls : List Call)
    (hcalls : ∀ c ∈ calls, c.Allowed) : (L.run calls).RepInv ∧ (L.run calls).entries ≠ ∅ := by
  induction calls generalizing L with
  | nil => exact ⟨hL, hne⟩
  | cons c calls ih =>
    have hrest : ∀ c' ∈ calls, c'.Allowed := fun c' hc' => hcalls c' (List.mem_cons_of_mem _ hc')
    have hc : c.Allowed := hcalls c List.mem_cons_self
    cases c with
    | append e => exact ih (hL.append hne e) (entries_append_ne_empty hne e) hrest
    | replaceWithCheckpoint c => exact ih (RepInv.new hc.1 hc.2) (entries_new_ne_empty c) hrest

/-- **The log's structures never drift apart.** After any sequence of appends of arbitrary
entries and replacements by hash-valid parentless checkpoints, starting from a hash-valid
parentless genesis, the invariant holds and the integrity check finds nothing; and on any log
a call that returns an error or `false` changes no field. -/
theorem repInv_of_calls {g : Entry} (hg : g.verifyHash) (hroot : g.next = [])
    (calls : List Call) (hcalls : ∀ c ∈ calls, c.Allowed) :
    ((new g).run calls).RepInv ∧ ((new g).run calls).verifyIntegrity = [] ∧
      ∀ e, (((new g).run calls).append e).1 ≠ .ok true →
        (((new g).run calls).append e).2 = (new g).run calls := by
  have h := ((RepInv.new hg hroot).run (entries_new_ne_empty g) calls hcalls).1
  exact ⟨h, h.verifyIntegrity, append_unchanged _⟩

end

open Sample in
/-- A genesis, a child of it, the same child again, and a compaction. -/
theorem repInv_of_calls_compacted :
    let g := Entry.new (.removeNode "a") [] [] ⟨"ann", 1, 0⟩ "ann"
    let e := Entry.new (.removeNode "b") [g.hash] [] ⟨"ann", 2, 0⟩ "ann"
    let c := Entry.new (.checkpoint [] [] 3 0) [] [] ⟨"ann", 3, 0⟩ "ann"
    ((new g).run [.append e, .append e, .replaceWithCheckpoint c]).verifyIntegrity = [] := by
  intro g e c
  refine (repInv_of_calls (Entry.verifyHash_new ..) rfl _ fun call hcall => ?_).2.1
  simp only [List.mem_cons, List.not_mem_nil, or_false] at hcall
  rcases hcall with rfl | rfl | rfl
  · trivial
  · trivial
  · exact ⟨Entry.verifyHash_new .., rfl⟩

end OpLog

end SilkGraph
