import SilkGraph.OpLog.Enumeration
import SilkGraph.Sync.Delivery

/-!
# Offers from a peer that is ahead

`entries_missing` sends nothing if the sender's heads are heads of the offer. A recipient
that holds everything and has written on top of it no longer offers these heads, and the
filter is not asked about them: they are forced into the send set, and the ancestor closure,
which stops only at the recipient's heads, walks from there down to the roots.
-/

namespace SilkGraph

open OpLog

section

variable [Crates] {A B : OpLog} {h : Hash} {e : Entry}

/-- Every entry of `A` is in `B`. -/
def Included (A B : OpLog) : Prop :=
  ∀ (h : Hash) (e : Entry), A.entries[h]? = some e →
    ∃ e', B.entries[h]? = some e' ∧ e'.content = e.content

/-- Below a set that is closed under parents there is a stored entry without parents. -/
theorem exists_root (hA : A.WellFormed) {S : Hash → Prop} (hstored : ∀ x, S x → x ∈ A.entries)
    (hclosed : ∀ x, S x → ∀ p ∈ A.nextOf x, S p) (hh : S h) :
    ∃ e : Entry, A.entries[e.hash]? = some e ∧ e.next = [] ∧ S e.hash := by
  obtain ⟨rank, hrank⟩ := hA.causal
  -- by induction on the rank: an entry with parents has one of lower rank
  induction hn : rank h using Nat.strong_induction_on generalizing h with
  | _ n ih =>
    subst hn
    obtain ⟨e, he⟩ := HashMap.mem_iff_getElem?.mp (hstored h hh)
    obtain ⟨rfl, -⟩ := hA.rep.keyed h e he
    cases hnext : e.next with
    | nil => exact ⟨e, he, hnext, hh⟩
    | cons p ps =>
      have hp : p ∈ A.nextOf e.hash := by simp [nextOf_eq_of_get he, hnext]
      exact ih (rank p) (hrank _ p hp) (hclosed _ hh p hp) rfl

/-- Appending an entry under stored parents keeps what is there. -/
theorem Included.append (hA : A.WellFormed) (hv : e.verifyHash) (hnew : e.hash ∉ A.entries)
    (hparents : ∀ p ∈ e.next, p ∈ A.entries) (hc : e.isRootCheckpoint = false) :
    Included A (A.append e).2 := by
  intro h a ha
  refine ⟨a, ?_, rfl⟩
  rw [append_eq_insertEntry hA.nonempty hv hnew (by simp [hc]) hparents, getElem?_insertEntry]
  split
  · rename_i heq
    exact absurd (HashMap.mem_iff_getElem?.mpr ⟨a, heq ▸ ha⟩) hnew
  · exact ha

end

end SilkGraph
