import SilkGraph.ObsLog.Basic

/-!
# What the observation log keeps

A row is kept under the source and the millisecond of its observation. The log therefore keeps
all that was appended exactly as long as no two observations of one source fall on the same
millisecond.
-/

namespace SilkGraph

namespace Observation

/-- The key of the observation's row, whether or not it fits. -/
def key (self : Observation) : List UInt8 :=
  Bytes.toBe 2 (Bytes.ofString self.source).length ++ Bytes.ofString self.source ++
    Bytes.toBe 8 self.timestampMs.toNat

/-- The row of an observation. -/
def row (self : Observation) : List UInt8 × ObsValue := (self.key, ⟨self.value, self.metadata⟩)

/-- What tells the observations of a log apart: the source and the millisecond. -/
def slot (self : Observation) : String × UInt64 := (self.source, self.timestampMs)

end Observation

/-- The source fits a key. -/
def FitsKey (source : String) : Prop := source.utf8ByteSize ≤ 65535

instance : DecidablePred FitsKey := fun _ => inferInstanceAs (Decidable (_ ≤ _))

theorem encodeKey_eq_ok_iff {source : String} {ts : UInt64} {bytes : List UInt8} :
    encodeKey source ts = .ok bytes ↔
      FitsKey source ∧ bytes = Observation.key ⟨ts, source, ⟨0⟩, ∅⟩ := by
  have hlen : (Bytes.ofString source).length = source.utf8ByteSize := Bytes.length_ofString source
  rw [encodeKey]
  split
  · rename_i hlong
    constructor
    · intro h
      cases h
    · rintro ⟨hfit, -⟩
      rw [FitsKey] at hfit
      omega
  · rename_i hshort
    have hfit : FitsKey source := by
      rw [FitsKey]
      omega
    constructor
    · intro h
      exact ⟨hfit, (Except.ok.inj h).symm⟩
    · rintro ⟨-, rfl⟩
      rfl

/-- A key reads back as the source and the millisecond it was made of. -/
theorem decodeKey_key {o : Observation} (h : FitsKey o.source) : decodeKey o.key = some o.slot := by
  have hsrc : (Bytes.ofString o.source).length = o.source.utf8ByteSize :=
    Bytes.length_ofString o.source
  have hfit : (Bytes.ofString o.source).length < 256 ^ 2 := by
    rw [hsrc]
    exact Nat.lt_of_le_of_lt h (by decide)
  have hlen : o.key.length = 2 + (Bytes.ofString o.source).length + 8 := by
    rw [Observation.key, List.length_append, List.length_append, Bytes.length_toBe,
      Bytes.length_toBe]
  have htake : o.key.take 2 = Bytes.toBe 2 (Bytes.ofString o.source).length := by
    rw [Observation.key, List.append_assoc]
    exact List.take_left' (Bytes.length_toBe 2 _)
  have hdrop : o.key.drop 2 = Bytes.ofString o.source ++ Bytes.toBe 8 o.timestampMs.toNat := by
    rw [Observation.key, List.append_assoc]
    exact List.drop_left' (Bytes.length_toBe 2 _)
  have hts : Bytes.ofBe (Bytes.toBe 8 o.timestampMs.toNat) = o.timestampMs.toNat :=
    Bytes.ofBe_toBe o.timestampMs.toNat_lt
  rw [decodeKey, htake, Bytes.ofBe_toBe hfit, if_neg (by omega), if_neg (by omega), ← List.drop_drop, hdrop,
    List.take_left' rfl, List.drop_left' rfl, List.take_of_length_le (by simp), hts,
    Bytes.toStringLossy_ofString, UInt64.ofNat_toNat]
  rfl

theorem key_injective {o o' : Observation} (h : FitsKey o.source) (h' : FitsKey o'.source)
    (heq : o.key = o'.key) : o.slot = o'.slot := by
  have hdec := decodeKey_key h
  rw [heq, decodeKey_key h'] at hdec
  exact (Option.some.inj hdec).symm

/-! ### Rows written one after another -/

section Rows

variable {K V : Type} [Ord K] [Std.TransOrd K] [Std.LawfulEqOrd K]

/-- Every row that is written counts, if and only if no key comes twice. -/
theorem size_insertMany_iff (m : BTreeMap K V) (rows : List (K × V)) :
    (m.insertMany rows).size = m.size + rows.length ↔
      (rows.map Prod.fst).Nodup ∧ ∀ row ∈ rows, row.1 ∉ m := by
  induction rows generalizing m with
  | nil => simp
  | cons row rows ih =>
    have hle : ((m.insert row.1 row.2).insertMany rows).size ≤
        (m.insert row.1 row.2).size + rows.length := Std.ExtTreeMap.size_insertMany_list_le
    rw [Std.ExtTreeMap.insertMany_cons, List.length_cons, List.map_cons, List.nodup_cons,
      List.forall_mem_cons]
    by_cases hrow : row.1 ∈ m
    · have hsize : (m.insert row.1 row.2).size = m.size := by
        rw [Std.ExtTreeMap.size_insert, if_pos (Std.ExtTreeMap.contains_iff_mem.mpr hrow)]
      constructor
      · omega
      · rintro ⟨-, hnot, -⟩
        exact absurd hrow hnot
    · have hsize : (m.insert row.1 row.2).size = m.size + 1 := by
        rw [Std.ExtTreeMap.size_insert,
          if_neg (fun h => hrow (Std.ExtTreeMap.contains_iff_mem.mp h))]
      have hfresh : (∀ r ∈ rows, r.1 ∉ m.insert row.1 row.2) ↔
          row.1 ∉ rows.map Prod.fst ∧ ∀ r ∈ rows, r.1 ∉ m := by
        simp only [HashMap.mem_insert, not_or, List.mem_map, not_exists, not_and]
        constructor
        · intro h
          exact ⟨fun r hr heq => (h r hr).1 heq.symm, fun r hr => (h r hr).2⟩
        · rintro ⟨h₁, h₂⟩ r hr
          exact ⟨fun heq => h₁ r hr heq.symm, h₂ r hr⟩
      rw [show m.size + (rows.length + 1) = (m.insert row.1 row.2).size + rows.length by omega,
        ih, hfresh]
      tauto

/-- Rows under different keys are all in the table. -/
theorem toList_insertMany [DecidableEq K] {rows : List (K × V)}
    (h : (rows.map Prod.fst).Nodup) :
    ((∅ : BTreeMap K V).insertMany rows).toList.Perm rows := by
  have hdistinct : rows.Pairwise fun a b => ¬ compare a.1 b.1 = .eq := by
    refine (List.pairwise_map.mp h).imp fun hne heq => hne (Std.compare_eq_iff_eq.mp heq)
  have hnodup : ((∅ : BTreeMap K V).insertMany rows).toList.Nodup :=
    Std.ExtTreeMap.distinct_keys_toList.imp fun hne heq =>
      hne (by rw [heq]; exact Std.ReflCmp.compare_self)
  rw [List.perm_ext_iff_of_nodup hnodup h.of_map]
  rintro ⟨k, v⟩
  rw [HashMap.mem_toList]
  constructor
  · intro hget
    have hmem : k ∈ (∅ : BTreeMap K V).insertMany rows := HashMap.mem_iff_getElem?.mpr ⟨v, hget⟩
    rw [Std.ExtTreeMap.mem_insertMany_list, List.contains_iff_mem, List.mem_map] at hmem
    rcases hmem with hmem | ⟨⟨_, v'⟩, hrow, rfl⟩
    · exact absurd hmem Std.ExtTreeMap.not_mem_empty
    · rw [Std.ExtTreeMap.getElem?_insertMany_list_of_mem Std.ReflCmp.compare_self hdistinct hrow]
        at hget
      rw [← Option.some.inj hget]
      exact hrow
  · exact Std.ExtTreeMap.getElem?_insertMany_list_of_mem Std.ReflCmp.compare_self hdistinct

end Rows

namespace ObservationLog

/-! ### What a call writes -/

/-- The observations of a batch from a position on, each one millisecond past the one before
it. -/
def batch (now : UInt64) : ℕ → List (String × F64 × BTreeMap String String) → List Observation
  | _, [] => []
  | i, (source, value, metadata) :: observations =>
    ⟨now + UInt64.ofNat i, source, value, metadata⟩ :: batch now (i + 1) observations

namespace Call

/-- The observations that a call appends. -/
def observations : Call → List Observation
  | append _ now source value metadata => [⟨now, source, value, metadata⟩]
  | appendBatch _ now obs => batch now 0 obs

/-- The transaction of a call. -/
def txn : Call → ObsTxn
  | append txn .. => txn
  | appendBatch txn .. => txn

/-- A call that goes through: every step of its transaction succeeds and every source fits. -/
def Accepted (call : Call) : Prop :=
  call.txn.opened = .ok () ∧ (∀ i < call.observations.length, call.txn.inserted i = .ok ()) ∧
    call.txn.committed = .ok () ∧ ∀ o ∈ call.observations, FitsKey o.source

instance : DecidablePred Accepted := fun _ => inferInstanceAs (Decidable (_ ∧ _))

end Call

theorem bind_eq_ok_iff {ε α β : Type} {x : Except ε α} {f : α → Except ε β} {b : β} :
    (x >>= f) = .ok b ↔ ∃ a, x = .ok a ∧ f a = .ok b := by
  cases x with
  | error err => exact ⟨nofun, nofun⟩
  | ok a => exact ⟨fun h => ⟨a, rfl, h⟩, fun ⟨_, h, hf⟩ => Except.ok.inj h ▸ hf⟩

theorem obsIo_eq_ok_iff {result : TxnResult} {u : Unit} : obsIo result = .ok u ↔ result = .ok () := by
  cases result <;> simp [obsIo, Except.mapError]

@[simp]
theorem length_batch (now : UInt64) (i : ℕ) (obs : List (String × F64 × BTreeMap String String)) :
    (batch now i obs).length = obs.length := by
  induction obs generalizing i with
  | nil => rfl
  | cons o obs ih => rw [batch, List.length_cons, ih, List.length_cons]

theorem insertRows_eq_ok_iff {txn : ObsTxn} {now : UInt64}
    {obs : List (String × F64 × BTreeMap String String)} {i : ℕ} {table table' : ObsTable} :
    insertRows txn now i obs table = .ok table' ↔
      ((∀ j < obs.length, txn.inserted (i + j) = .ok ()) ∧
          ∀ o ∈ batch now i obs, FitsKey o.source) ∧
        table' = table.insertMany ((batch now i obs).map Observation.row) := by
  induction obs generalizing i table with
  | nil => simp [insertRows, batch, eq_comm]
  | cons o obs ih =>
    obtain ⟨source, value, metadata⟩ := o
    have hins : (∀ j < obs.length + 1, txn.inserted (i + j) = .ok ()) ↔
        txn.inserted i = .ok () ∧ ∀ j < obs.length, txn.inserted (i + 1 + j) = .ok () := by
      rw [Nat.forall_lt_succ_left]
      simp only [Nat.add_zero, Nat.add_comm, Nat.add_left_comm]
    simp only [insertRows, bind_eq_ok_iff, encodeKey_eq_ok_iff, obsIo_eq_ok_iff, ih]
    rw [batch, List.forall_mem_cons, List.map_cons, List.length_cons, hins]
    constructor
    · rintro ⟨_, ⟨hfit, rfl⟩, _, hi, ⟨hrest, hfits⟩, rfl⟩
      exact ⟨⟨⟨hi, hrest⟩, hfit, hfits⟩, (Std.ExtTreeMap.insertMany_cons).symm⟩
    · rintro ⟨⟨⟨hi, hrest⟩, hfit, hfits⟩, rfl⟩
      exact ⟨_, ⟨hfit, rfl⟩, (), hi, ⟨hrest, hfits⟩, Std.ExtTreeMap.insertMany_cons⟩

theorem finish_of_iff (log : ObservationLog) {table : Except ObsLogError ObsTable} {P : Prop}
    [Decidable P] {table' : ObsTable} (h : ∀ u, table = .ok u ↔ P ∧ u = table') :
    ((log.finish table).1 = .ok () ↔ P) ∧
      (log.finish table).2.table = if P then table' else log.table := by
  cases table with
  | error err =>
    have hP : ¬ P := fun hP => nomatch (h table').mpr ⟨hP, rfl⟩
    rw [if_neg hP]
    exact ⟨⟨nofun, fun hP' => absurd hP' hP⟩, rfl⟩
  | ok u =>
    obtain ⟨hP, rfl⟩ := (h u).mp rfl
    rw [if_pos hP]
    exact ⟨⟨fun _ => hP, fun _ => rfl⟩, rfl⟩

/-- **What one call does.** It succeeds exactly when it is accepted, and then its rows are in the
table; otherwise the table stays as it was. -/
theorem exec_spec (log : ObservationLog) (call : Call) :
    ((log.exec call).1 = .ok () ↔ call.Accepted) ∧
      (log.exec call).2.table =
        if call.Accepted then log.table.insertMany (call.observations.map Observation.row)
        else log.table := by
  cases call with
  | append txn now source value metadata =>
    apply finish_of_iff
    intro u
    simp only [bind_eq_ok_iff, encodeKey_eq_ok_iff, obsIo_eq_ok_iff, Call.Accepted, Call.txn,
      Call.observations, List.length_singleton, Nat.lt_one_iff, forall_eq, List.forall_mem_singleton]
    constructor
    · rintro ⟨_, ⟨hfit, rfl⟩, _, hopened, _, hins, _, hcommit, hu⟩
      exact ⟨⟨hopened, hins, hcommit, hfit⟩, (Except.ok.inj hu).symm⟩
    · rintro ⟨⟨hopened, hins, hcommit, hfit⟩, rfl⟩
      exact ⟨_, ⟨hfit, rfl⟩, (), hopened, (), hins, (), hcommit, rfl⟩
  | appendBatch txn now obs =>
    apply finish_of_iff
    intro u
    simp only [bind_eq_ok_iff, obsIo_eq_ok_iff, insertRows_eq_ok_iff, Call.Accepted, Call.txn,
      Call.observations, length_batch, Nat.zero_add]
    constructor
    · rintro ⟨_, hopened, _, ⟨⟨hins, hfits⟩, rfl⟩, _, hcommit, hu⟩
      exact ⟨⟨hopened, hins, hcommit, hfits⟩, (Except.ok.inj hu).symm⟩
    · rintro ⟨⟨hopened, hins, hcommit, hfits⟩, rfl⟩
      exact ⟨(), hopened, _, ⟨⟨hins, hfits⟩, rfl⟩, (), hcommit, rfl⟩

/-! ### What a run keeps -/

/-- The observations that a run appends: those of the calls that go through. -/
def appended (calls : List Call) : List Observation :=
  (calls.filter fun call => call.Accepted).flatMap Call.observations

theorem fitsKey_of_mem_appended {calls : List Call} {o : Observation} (h : o ∈ appended calls) :
    FitsKey o.source := by
  rw [appended, List.mem_flatMap] at h
  obtain ⟨call, hcall, ho⟩ := h
  have hacc : call.Accepted := of_decide_eq_true (List.mem_filter.mp hcall).2
  exact hacc.2.2.2 o ho

theorem appended_cons (call : Call) (calls : List Call) :
    appended (call :: calls) =
      (if call.Accepted then call.observations else []) ++ appended calls := by
  by_cases hacc : call.Accepted <;> simp [appended, hacc]

/-- The table of a run is what the appended observations were written into, one by one. -/
theorem run_table (log : ObservationLog) (calls : List Call) :
    (log.run calls).table = log.table.insertMany ((appended calls).map Observation.row) := by
  induction calls generalizing log with
  | nil => rfl
  | cons call calls ih =>
    have hcall := (exec_spec log call).2
    rw [run, List.foldl_cons, ← run, ih, hcall, appended_cons, List.map_append,
      Std.ExtTreeMap.insertMany_append]
    by_cases hacc : call.Accepted
    · rw [if_pos hacc, if_pos hacc]
    · rw [if_neg hacc, if_neg hacc]
      rfl

/-- The log keeps observations: a query from the start of time returns those of its source, each
once, and the count is their number. -/
def Keeps (self : ObservationLog) (observations : List Observation) : Prop :=
  (∀ source, FitsKey source →
    ∃ found, self.query (.ok ()) source 0 = .ok found ∧
      found.Perm (observations.filter fun o => o.source = source)) ∧
  self.count (.ok ()) = .ok observations.length

/-- The rows of a source lie between its first and its last millisecond. -/
theorem inRange_key (o : Observation) :
    (compare (Observation.key ⟨0, o.source, ⟨0⟩, ∅⟩) o.key).isLE = true ∧
      (compare o.key (Observation.key ⟨UInt64.ofNat (2 ^ 64 - 1), o.source, ⟨0⟩, ∅⟩)).isLE
        = true := by
  have hfirst : Bytes.toBe 8 (0 : UInt64).toNat = List.replicate 8 0 := by decide
  have hlast : Bytes.toBe 8 (UInt64.ofNat (2 ^ 64 - 1)).toNat = List.replicate 8 255 := by decide
  have hlen : (Bytes.toBe 8 o.timestampMs.toNat).length = 8 := Bytes.length_toBe 8 _
  simp only [Observation.key, Bytes.compare_append_left, hfirst, hlast]
  constructor
  · have h := Bytes.isLE_zeros (Bytes.toBe 8 o.timestampMs.toNat)
    rwa [hlen] at h
  · have h := Bytes.isLE_ones (Bytes.toBe 8 o.timestampMs.toNat)
    rwa [hlen] at h

theorem observation?_row {o : Observation} (h : FitsKey o.source) (source : String) :
    observation? source o.row = if o.source = source then some o else none := by
  rw [observation?, Observation.row, decodeKey_key h]
  rfl

/-- A query finds the rows of its source, wherever the table is what observations under different
keys were written into. -/
theorem query_perm {log : ObservationLog} {observations : List Observation}
    (hfits : ∀ o ∈ observations, FitsKey o.source)
    (hrows : log.table.toList.Perm (observations.map Observation.row)) {source : String}
    (h : FitsKey source) :
    ∃ found, log.query (.ok ()) source 0 = .ok found ∧
      found.Perm (observations.filter fun o => o.source = source) := by
  let start := Observation.key ⟨0, source, ⟨0⟩, ∅⟩
  let stop := Observation.key ⟨UInt64.ofNat (2 ^ 64 - 1), source, ⟨0⟩, ∅⟩
  refine ⟨(log.range start stop).filterMap (observation? source), ?_, ?_⟩
  · rw [query, encodeKey_eq_ok_iff.mpr ⟨h, rfl⟩, encodeKey_eq_ok_iff.mpr ⟨h, rfl⟩]
    rfl
  · refine ((hrows.filter _).filterMap _).trans (List.Perm.of_eq ?_)
    rw [List.filterMap_filter, List.filterMap_map, ← List.filterMap_eq_filter]
    apply List.filterMap_congr
    intro o ho
    rw [Function.comp_apply, observation?_row (hfits o ho) source, Option.guard]
    by_cases heq : o.source = source
    · have hrange := inRange_key o
      rw [heq] at hrange
      simp only [Observation.row, start, stop, heq, hrange, Bool.and_true, if_true, decide_true]
    · simp [heq]

theorem count_eq (log : ObservationLog) : log.count (.ok ()) = .ok log.table.size := rfl

theorem nodup_keys_iff {observations : List Observation}
    (hfits : ∀ o ∈ observations, FitsKey o.source) :
    ((observations.map Observation.row).map Prod.fst).Nodup ↔
      (observations.map Observation.slot).Nodup := by
  have hinj : ∀ o ∈ observations, ∀ o' ∈ observations, o.key = o'.key → o.slot = o'.slot :=
    fun o ho o' ho' => key_injective (hfits o ho) (hfits o' ho')
  rw [List.map_map, List.Nodup, List.Nodup, List.pairwise_map, List.pairwise_map]
  constructor
  · intro h
    refine h.imp fun hne heq => hne ?_
    obtain ⟨hsource, hts⟩ := Prod.mk.inj heq
    rw [Function.comp_apply, Function.comp_apply, Observation.row, Observation.row,
      Observation.key, Observation.key, hsource, hts]
  · intro h
    exact h.imp_of_mem fun ho ho' hne heq => hne (hinj _ ho _ ho' heq)

/-- **The log keeps every observation that was appended, exactly when no two of one source fall
on the same millisecond.** -/
theorem observations_kept_iff (calls : List Call) :
    (ObservationLog.empty.run calls).Keeps (appended calls) ↔
      ((appended calls).map Observation.slot).Nodup := by
  have htable := run_table ObservationLog.empty calls
  have hfits : ∀ o ∈ appended calls, FitsKey o.source := fun _ => fitsKey_of_mem_appended
  have hsize := size_insertMany_iff (∅ : ObsTable) ((appended calls).map Observation.row)
  rw [← nodup_keys_iff hfits]
  constructor
  · rintro ⟨-, hcount⟩
    rw [count_eq, htable] at hcount
    refine (hsize.mp ?_).1
    rw [Std.ExtTreeMap.size_empty, Nat.zero_add, List.length_map]
    exact Except.ok.inj hcount
  · intro hnodup
    refine ⟨fun source hsource => query_perm hfits ?_ hsource, ?_⟩
    · rw [htable]
      exact toList_insertMany hnodup
    · rw [count_eq, htable]
      have h := hsize.mpr ⟨hnodup, fun _ _ => Std.ExtTreeMap.not_mem_empty⟩
      rw [Std.ExtTreeMap.size_empty, Nat.zero_add, List.length_map] at h
      exact congrArg Except.ok h

/-! ### Two readings of one millisecond -/

end ObservationLog

namespace Sample

open ObservationLog

/-- A transaction that commits. -/
def commits : ObsTxn := ⟨.ok (), fun _ => .ok (), .ok ()⟩

/-- Two measurements of one source within a millisecond. -/
def hurried : List Call :=
  [.append commits 1000 "cpu" ⟨1⟩ ∅, .append commits 1000 "cpu" ⟨2⟩ ∅]

end Sample

namespace ObservationLog

open Sample in
/-- **The second of two observations on one millisecond takes the place of the first.** -/
theorem hurried_overwrites :
    ¬ ∀ calls : List Call, (ObservationLog.empty.run calls).Keeps (appended calls) := by
  intro h
  have hcount := Except.ok.inj (h hurried).2
  exact absurd hcount (by decide +kernel)

end ObservationLog

end SilkGraph
