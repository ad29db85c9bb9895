import Mathlib.Data.Fintype.EquivFin
import SilkGraph.GraphStore.Gossip
import SilkGraph.Lib.Congruential
import SilkGraph.Lib.Loop

/-!
# The peers of a gossip round

`PeerRegistry::select_sync_targets` in `gossip.rs`: it draws indices from a linear
congruential generator on `u64`s until it has as many different peers as the fan-out asks for.
The loop has no counter. It ends because the generator has full period, so that the upper 31
bits of its state, reduced modulo the number of peers, come to every index within `2 ^ 64`
draws (`exists_indexOf`).

The fan-out is `ceil(ln n + 1)`, computed in floating point; here it is an argument, as are the
two readings that the seed is made of.
-/

namespace SilkGraph

namespace PeerRegistry

/-- The generator: simple, fast, deterministic. A `u64` wraps. -/
def nextState (state : UInt64) : UInt64 := state * 6364136223846793005 + 1442695040888963407

/-- The index that a state stands for among `n`. -/
def indexOf (n : ℕ) (state : UInt64) : ℕ := (state >>> 33).toNat % n

/-- One turn of the loop over the generator's state and the peers selected so far. An index out
of bounds panics, which is `none`. -/
def selectTurn (peerIds : List String) (n fanOut : ℕ) (s : UInt64 × List String) :
    (UInt64 × List String) ⊕ Option (List String) :=
  let (state, selected) := s
  if selected.length < fanOut then
    let state := nextState state
    match peerIds[indexOf n state]? with
    | none => .inr none
    | some candidate =>
      .inl (state, if candidate ∈ selected then selected else selected ++ [candidate])
  else .inr (some selected)

/-- Select sync targets for this round. The outer `none` says that `fuel` turns of the loop
were not enough. -/
def selectSyncTargets (self : PeerRegistry) (fanOut : ℕ) (nowMs instanceSeed : UInt64)
    (fuel : ℕ) : Option (Option (List String)) :=
  let n := self.peers.size
  if n = 0 then some (some [])
  else if n ≤ 2 then some (some self.peers.keys)
  else Loop.run (selectTurn self.peers.keys n (min fanOut n)) fuel (nowMs ^^^ instanceSeed, [])

/-! ### The generator comes to every index -/

/-- The generator in the integers modulo `2 ^ 64`. -/
theorem natCast_nextState (state : UInt64) :
    ((nextState state).toNat : ZMod (2 ^ 64)) = Congruential.step
      ((6364136223846793005 : ℤ) : ZMod (2 ^ 64)) ((1442695040888963407 : ℤ) : ZMod (2 ^ 64))
      state.toNat := by
  rw [nextState, UInt64.toNat_add, UInt64.toNat_mul, ZMod.natCast_mod, Nat.cast_add,
    ZMod.natCast_mod, Nat.cast_mul, Congruential.step, mul_comm]
  rfl

theorem natCast_iterate_nextState (i : ℕ) (state : UInt64) :
    ((nextState^[i] state).toNat : ZMod (2 ^ 64)) = (Congruential.step
      ((6364136223846793005 : ℤ) : ZMod (2 ^ 64))
      ((1442695040888963407 : ℤ) : ZMod (2 ^ 64)))^[i] state.toNat := by
  induction i with
  | zero => rfl
  | succ i ih =>
    rw [Function.iterate_succ_apply', Function.iterate_succ_apply', natCast_nextState, ih]

/-- From every seed the generator comes to every state. -/
theorem exists_iterate_nextState (seed state : UInt64) :
    ∃ i < 2 ^ 64, nextState^[i] seed = state := by
  obtain ⟨i, hi, h⟩ := Congruential.exists_iterate_eq (k := 64)
    (a := 6364136223846793005) (c := 1442695040888963407) (by decide) (by decide)
    (seed.toNat : ZMod (2 ^ 64)) (state.toNat : ZMod (2 ^ 64))
  refine ⟨i, hi, ?_⟩
  rw [← natCast_iterate_nextState, ZMod.natCast_eq_natCast_iff'] at h
  rw [Nat.mod_eq_of_lt (nextState^[i] seed).toNat_lt, Nat.mod_eq_of_lt state.toNat_lt] at h
  exact UInt64.toNat_inj.mp h

/-- Every index is drawn, from every seed. -/
theorem exists_indexOf {n j : ℕ} (hn : n ≤ 2 ^ 31) (hj : j < n) (seed : UInt64) :
    ∃ i < 2 ^ 64, indexOf n (nextState^[i + 1] seed) = j := by
  -- a state with the upper bits `j`
  obtain ⟨i, hi, h⟩ := exists_iterate_nextState (nextState seed) (UInt64.ofNat (j * 2 ^ 33))
  refine ⟨i, hi, ?_⟩
  rw [Function.iterate_succ_apply, h, indexOf, UInt64.toNat_shiftRight,
    UInt64.toNat_ofNat_of_lt' (by simp only [UInt64.size]; omega)]
  change (j * 2 ^ 33) >>> 33 % n = j
  rw [Nat.shiftRight_eq_div_pow, Nat.mul_div_cancel _ (by decide), Nat.mod_eq_of_lt hj]

/-! ### The loop -/

variable {ids : List String} {fanOut : ℕ} {seed : UInt64}

/-- The loop after `k` draws: the peers drawn so far are selected, each once. -/
structure Selecting (ids : List String) (fanOut : ℕ) (seed : UInt64) (k : ℕ)
    (s : UInt64 × List String) : Prop where
  state : s.1 = nextState^[k] seed
  nodup : s.2.Nodup
  subset : s.2 ⊆ ids
  length : s.2.length ≤ fanOut
  drawn : ∀ i < k, ∀ p, ids[indexOf ids.length (nextState^[i + 1] seed)]? = some p → p ∈ s.2
  bound : k ≤ 2 ^ 64

/-- Nothing is drawn yet. -/
theorem Selecting.start (ids : List String) (fanOut : ℕ) (seed : UInt64) :
    Selecting ids fanOut seed 0 (seed, []) where
  state := rfl
  nodup := List.nodup_nil
  subset := List.nil_subset ids
  length := Nat.zero_le fanOut
  drawn := fun _ h => absurd h (Nat.not_lt_zero _)
  bound := Nat.zero_le _

/-- After `2 ^ 64` draws every peer is selected. -/
theorem Selecting.all_drawn {s : UInt64 × List String} (h : Selecting ids fanOut seed (2 ^ 64) s)
    (hn : ids.length ≤ 2 ^ 31) : ids ⊆ s.2 := by
  intro p hp
  obtain ⟨j, hj, rfl⟩ := List.mem_iff_getElem.mp hp
  obtain ⟨i, hi, hidx⟩ := exists_indexOf hn hj seed
  exact h.drawn i hi _ (by rw [hidx, List.getElem?_eq_getElem hj])

/-- As long as peers are missing, fewer than `2 ^ 64` draws have been made. -/
theorem Selecting.lt_of_length_lt {k : ℕ} {s : UInt64 × List String}
    (h : Selecting ids fanOut seed k s) (hids : ids.Nodup) (hn : ids.length ≤ 2 ^ 31)
    (hfan : fanOut ≤ ids.length) (hlt : s.2.length < fanOut) : k < 2 ^ 64 := by
  refine Nat.lt_of_le_of_ne h.bound fun hk => ?_
  subst hk
  have hle : ids.length ≤ s.2.length := (hids.subperm (h.all_drawn hn)).length_le
  omega

/-- A turn that goes on has drawn one more peer. -/
theorem Selecting.turn {k : ℕ} {s s' : UInt64 × List String} (h : Selecting ids fanOut seed k s)
    (hids : ids.Nodup) (hn : ids.length ≤ 2 ^ 31) (hfan : fanOut ≤ ids.length)
    (hturn : selectTurn ids ids.length fanOut s = .inl s') :
    Selecting ids fanOut seed (k + 1) s' := by
  have hk : s.2.length < fanOut → k < 2 ^ 64 := h.lt_of_length_lt hids hn hfan
  obtain ⟨state, selected⟩ := s
  obtain ⟨rfl, hnodup, hsub, hlen, hdrawn, -⟩ := h
  simp only [selectTurn] at hturn
  split at hturn
  · rename_i hlt
    split at hturn
    · cases hturn
    · rename_i candidate hcand
      injection hturn with hs'
      subst hs'
      rw [← Function.iterate_succ_apply' nextState] at hcand
      refine ⟨(Function.iterate_succ_apply' nextState k seed).symm, ?_, ?_, ?_, ?_, ?_⟩
      · dsimp only
        split
        · exact hnodup
        · rename_i hnew
          exact List.nodup_append.mpr ⟨hnodup, List.nodup_singleton candidate,
            fun a ha b hb => by rintro rfl; exact hnew (List.mem_singleton.mp hb ▸ ha)⟩
      · dsimp only
        split
        · exact hsub
        · exact List.append_subset.mpr
            ⟨hsub, List.cons_subset.mpr ⟨List.mem_of_getElem? hcand, List.nil_subset ids⟩⟩
      · dsimp only
        split
        · exact hlen
        · rw [List.length_append, List.length_singleton]
          exact hlt
      · intro i hi p hp
        dsimp only
        rcases Nat.lt_succ_iff_lt_or_eq.mp hi with hi | rfl
        · have hmem : p ∈ selected := hdrawn i hi p hp
          split
          · exact hmem
          · exact List.mem_append_left _ hmem
        · obtain rfl : candidate = p := Option.some.inj (hcand.symm.trans hp)
          split
          · assumption
          · exact List.mem_append_right _ (List.mem_singleton.mpr rfl)
      · exact hk hlt
  · cases hturn

/-- A turn that leaves has selected as many peers as the fan-out says. -/
theorem Selecting.leave {k : ℕ} {s : UInt64 × List String} {r : Option (List String)}
    (h : Selecting ids fanOut seed k s) (hpos : 0 < ids.length)
    (hturn : selectTurn ids ids.length fanOut s = .inr r) :
    ∃ selected, r = some selected ∧ selected.length = fanOut ∧ selected.Nodup ∧
      selected ⊆ ids := by
  obtain ⟨state, selected⟩ := s
  simp only [selectTurn] at hturn
  split at hturn
  · split at hturn
    · rename_i hnone
      have hlt : indexOf ids.length (nextState state) < ids.length := Nat.mod_lt _ hpos
      rw [List.getElem?_eq_getElem hlt] at hnone
      cases hnone
    · cases hturn
  · rename_i hge
    injection hturn with hr
    have hlen := h.length
    exact ⟨selected, hr.symm, Nat.le_antisymm hlen (Nat.le_of_not_lt hge), h.nodup, h.subset⟩

/-- The loop ends with as many different peers as the fan-out says. -/
theorem exists_run_selectTurn (hids : ids.Nodup) (hpos : 0 < ids.length)
    (hn : ids.length ≤ 2 ^ 31) (hfan : fanOut ≤ ids.length) (seed : UInt64) :
    ∃ selected : List String,
      Loop.run (selectTurn ids ids.length fanOut) (2 ^ 64 + 1) (seed, []) = some (some selected) ∧
        selected.length = fanOut ∧ selected.Nodup ∧ selected ⊆ ids := by
  obtain ⟨r, hrun, selected, rfl, hselected⟩ := Loop.exists_run_of_le
    (I := fun k s => Selecting ids fanOut seed k s) (Selecting.start ids fanOut seed)
    (fun k s s' h hturn => h.turn hids hn hfan hturn)
    (fun k s r h hturn => h.leave hpos hturn) (fun k s h => h.bound)
  exact ⟨selected, hrun, hselected⟩

/-- **Peer selection always ends.** Whatever the seed, the loop leaves after at most `2 ^ 64`
draws, with exactly `fanOut` registered peers, no two of them the same. -/
theorem selectSyncTargets_total (self : PeerRegistry) (fanOut : ℕ) (nowMs instanceSeed : UInt64)
    (h3 : 3 ≤ self.peers.size) (hn : self.peers.size ≤ 2 ^ 31) (hfan : fanOut ≤ self.peers.size) :
    ∃ selected : List String,
      (∀ fuel > 2 ^ 64,
        self.selectSyncTargets fanOut nowMs instanceSeed fuel = some (some selected)) ∧
      selected.length = fanOut ∧ selected.Nodup ∧ ∀ p ∈ selected, p ∈ self.peers := by
  have hlen : self.peers.keys.length = self.peers.size := Std.ExtTreeMap.length_keys
  rw [← hlen] at hn hfan
  obtain ⟨selected, hrun, hcount, hnodup, hsub⟩ := exists_run_selectTurn
    Std.ExtTreeMap.nodup_keys (by omega) hn hfan (nowMs ^^^ instanceSeed)
  refine ⟨selected, fun fuel hfuel => ?_, hcount, hnodup, fun p hp => ?_⟩
  · rw [selectSyncTargets, if_neg (by omega), if_neg (by omega), ← hlen, min_eq_left hfan]
    exact Loop.run_mono hrun hfuel
  · exact Std.ExtTreeMap.mem_keys.mp (hsub hp)

end PeerRegistry

/-! ### An example -/

namespace Sample

/-- A registry of three peers. -/
def neighbours : PeerRegistry :=
  ((PeerRegistry.new.register "ana" "10.0.0.1").register "bo" "10.0.0.2").register "cy" "10.0.0.3"

end Sample

namespace PeerRegistry

open Sample in
/-- Three peers are asked for three: `ceil(ln 3 + 1) = 3`. -/
theorem selectSyncTargets_total_neighbours :
    ∃ selected : List String,
      (∀ fuel > 2 ^ 64, neighbours.selectSyncTargets 3 1700000000000 0 fuel =
        some (some selected)) ∧
      selected.length = 3 ∧ selected.Nodup ∧ ∀ p ∈ selected, p ∈ neighbours.peers :=
  selectSyncTargets_total neighbours 3 1700000000000 0 (by decide) (by decide) (by decide)

open Sample in
/-- The tenth draw is the first to come to the third of them. -/
example : neighbours.selectSyncTargets 3 1700000000000 0 11 =
    some (some ["bo", "cy", "ana"]) := by
  decide +kernel

end PeerRegistry

end SilkGraph
