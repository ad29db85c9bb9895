import Mathlib.Logic.Function.Basic
import SilkGraph.ObsLog.Ordered

/-!
# The observation log as a timeline

What an observation log is for: at each source and millisecond there is one observation or none,
a later one takes the place of an earlier one, and pruning forgets what is older. A log behaves
so over every history of appends, batches and prunings, whatever becomes of their transactions
(`observation_log_refines_timeline`).
-/

namespace SilkGraph

/-- What is known at each source and millisecond. -/
abbrev Timeline := String × UInt64 → Option ObsValue

namespace Timeline

/-- Nothing is known. -/
def blank : Timeline := fun _ => none

/-- An observation takes its place. -/
def put (self : Timeline) (o : Observation) : Timeline :=
  Function.update self o.slot (some ⟨o.value, o.metadata⟩)

/-- What is older is forgotten. -/
def forget (self : Timeline) (beforeTsMs : UInt64) : Timeline := fun slot =>
  if slot.2 < beforeTsMs then none else self slot

end Timeline

namespace ObservationLog

/-- A step of a history: a call that writes, or a pruning. -/
inductive Op where
  | write (call : Call)
  | truncate (txn : TxnResult) (beforeTsMs : UInt64)

/-- The log after a step. -/
def step (self : ObservationLog) : Op → ObservationLog
  | .write call => (self.exec call).2
  | .truncate txn beforeTsMs => (self.truncate txn beforeTsMs).2

/-- What a step means: a call that does not go through means nothing. -/
def Op.meaning (line : Timeline) : Op → Timeline
  | .write call => if call.Accepted then call.observations.foldl Timeline.put line else line
  | .truncate txn beforeTsMs => if txn = .ok () then line.forget beforeTsMs else line

/-- The key of a source and a millisecond. -/
def keyOf (slot : String × UInt64) : List UInt8 := Observation.key ⟨slot.2, slot.1, ⟨0⟩, ∅⟩

/-- The log holds what the timeline says. -/
structure Refines (log : ObservationLog) (line : Timeline) : Prop where
  encoded : log.Encoded
  stores : ∀ slot, FitsKey slot.1 → log.table[keyOf slot]? = line slot
  fits : ∀ slot, (line slot).isSome = true → FitsKey slot.1

variable {log : ObservationLog} {line : Timeline} {o : Observation} {slot : String × UInt64}

theorem decodeKey_keyOf (h : FitsKey slot.1) : decodeKey (keyOf slot) = some slot := decodeKey_key h

theorem keyOf_injective {slot' : String × UInt64} (h : FitsKey slot.1) (h' : FitsKey slot'.1)
    (heq : keyOf slot = keyOf slot') : slot = slot' := key_injective h h' heq

/-! ### Steps -/

theorem refines_empty : Refines .empty .blank where
  encoded := Reachable.empty.encoded
  stores _ _ := Std.ExtTreeMap.getElem?_empty
  fits _ h := by cases h

theorem Refines.put (h : Refines log line) (hfit : FitsKey o.source) :
    Refines ⟨log.table.insert o.key ⟨o.value, o.metadata⟩⟩ (line.put o) where
  encoded key hkey := by
    obtain rfl | hkey := HashMap.mem_insert.mp hkey
    · exact ⟨o, hfit, rfl⟩
    · exact h.encoded key hkey
  stores slot hslot := by
    rw [HashMap.getElem?_insert, Timeline.put, Function.update_apply]
    by_cases heq : slot = o.slot
    · subst heq
      rw [if_pos rfl, if_pos (show o.key = keyOf o.slot from rfl)]
    · have hne : o.key ≠ keyOf slot := fun hkey => heq (keyOf_injective hslot hfit hkey.symm)
      rw [if_neg hne, if_neg heq]
      exact h.stores slot hslot
  fits slot hsome := by
    rw [Timeline.put, Function.update_apply] at hsome
    by_cases heq : slot = o.slot
    · exact heq ▸ hfit
    · rw [if_neg heq] at hsome
      exact h.fits slot hsome

theorem Refines.putAll {observations : List Observation} (h : Refines log line)
    (hfit : ∀ o ∈ observations, FitsKey o.source) :
    Refines ⟨log.table.insertMany (observations.map Observation.row)⟩ (observations.foldl Timeline.put line) := by
  induction observations generalizing log line with
  | nil => exact h
  | cons o observations ih =>
    rw [List.map_cons, Std.ExtTreeMap.insertMany_cons]
    exact ih (h.put (hfit o List.mem_cons_self)) fun x hx => hfit x (List.mem_cons_of_mem o hx)

/-- Rows that are erased one by one. -/
theorem getElem?_foldl_erase {K V : Type} [Ord K] [Std.TransOrd K] [Std.LawfulEqOrd K] [DecidableEq K]
    (keys : List K) (m : BTreeMap K V) (k : K) :
    (keys.foldl (fun m k => m.erase k) m)[k]? = if k ∈ keys then none else m[k]? := by
  induction keys generalizing m with
  | nil => simp
  | cons a keys ih =>
    rw [List.foldl_cons, ih, HashMap.getElem?_erase]
    by_cases hk : k ∈ keys
    · simp [hk]
    · by_cases ha : a = k
      · simp [ha]
      · simp [hk, ha, Ne.symm ha]

/-- The keys that a pruning deletes. -/
def doomed (self : ObservationLog) (beforeTsMs : UInt64) : List (List UInt8) :=
  (self.table.toList.map Prod.fst).filter fun key =>
    match decodeKey key with
    | some (_, ts) => ts < beforeTsMs
    | none => false

theorem truncate_ok (log : ObservationLog) (beforeTsMs : UInt64) :
    log.truncate (.ok ()) beforeTsMs = (.ok (log.doomed beforeTsMs).length,
      ⟨(log.doomed beforeTsMs).foldl (fun table key => table.erase key) log.table⟩) := rfl

theorem truncate_error (log : ObservationLog) (msg : String) (beforeTsMs : UInt64) :
    log.truncate (.error msg) beforeTsMs = (.error (.io msg), log) := rfl

theorem mem_doomed (hfit : FitsKey slot.1) (beforeTsMs : UInt64) :
    keyOf slot ∈ log.doomed beforeTsMs ↔ keyOf slot ∈ log.table ∧ slot.2 < beforeTsMs := by
  rw [doomed, List.mem_filter, decodeKey_keyOf hfit, decide_eq_true_eq, List.mem_map]
  refine and_congr_left fun _ => ⟨?_, fun h => ?_⟩
  · rintro ⟨row, hrow, heq⟩
    exact HashMap.mem_iff_getElem?.mpr ⟨row.2, heq ▸ HashMap.mem_toList.mp hrow⟩
  · obtain ⟨v, hv⟩ := HashMap.mem_iff_getElem?.mp h
    exact ⟨(keyOf slot, v), HashMap.mem_toList.mpr hv, rfl⟩

theorem Refines.forget (h : Refines log line) (beforeTsMs : UInt64) :
    Refines (log.truncate (.ok ()) beforeTsMs).2 (line.forget beforeTsMs) where
  encoded := h.encoded.truncate (.ok ()) beforeTsMs
  stores slot hfit := by
    rw [truncate_ok, getElem?_foldl_erase, Timeline.forget]
    by_cases hold : slot.2 < beforeTsMs
    · rw [if_pos hold]
      by_cases hin : keyOf slot ∈ log.table
      · rw [if_pos ((mem_doomed hfit beforeTsMs).mpr ⟨hin, hold⟩)]
      · rw [Std.ExtTreeMap.getElem?_eq_none hin, ite_self]
    · rw [if_neg hold, if_neg fun hin => hold ((mem_doomed hfit beforeTsMs).mp hin).2]
      exact h.stores slot hfit
  fits slot hsome := by
    rw [Timeline.forget] at hsome
    split at hsome
    · cases hsome
    · exact h.fits slot hsome

/-- **Step.** -/
theorem Refines.step (h : Refines log line) (op : Op) : Refines (log.step op) (op.meaning line) := by
  cases op with
  | write call =>
    have htable := (exec_spec log call).2
    have hlog : log.step (.write call) = ⟨(log.exec call).2.table⟩ := rfl
    rw [hlog, htable, Op.meaning]
    split
    · rename_i hacc
      exact h.putAll hacc.2.2.2
    · exact h
  | truncate txn beforeTsMs =>
    cases txn with
    | ok => exact h.forget beforeTsMs
    | error msg => exact h

/-- **Run.** -/
theorem Refines.run (h : Refines log line) (ops : List Op) :
    Refines (ops.foldl ObservationLog.step log) (ops.foldl Op.meaning line) := by
  induction ops generalizing log line with
  | nil => exact h
  | cons op ops ih => exact ih (h.step op)

/-! ### What the calls return -/

theorem Refines.stores_iff (h : Refines log line) (hfit : FitsKey o.source) :
    log.Stores o ↔ line o.slot = some ⟨o.value, o.metadata⟩ := by
  rw [← h.stores o.slot hfit]
  rfl

/-- The sources and milliseconds that the table has rows for. -/
def slots (self : ObservationLog) : List (String × UInt64) :=
  (self.table.toList.map Prod.fst).filterMap decodeKey

theorem Refines.mem_slots (h : Refines log line) : slot ∈ log.slots ↔ (line slot).isSome = true := by
  rw [slots, List.mem_filterMap]
  constructor
  · rintro ⟨key, hkey, hdec⟩
    obtain ⟨row, hrow, rfl⟩ := List.mem_map.mp hkey
    have hget := HashMap.mem_toList.mp hrow
    obtain ⟨o, hfit, hkey⟩ := h.encoded row.1 (HashMap.mem_iff_getElem?.mpr ⟨_, hget⟩)
    rw [← hkey, decodeKey_key hfit] at hdec
    obtain rfl := Option.some.inj hdec
    rw [← h.stores o.slot hfit, show keyOf o.slot = row.1 from hkey, hget]
    rfl
  · intro hsome
    have hfit := h.fits slot hsome
    obtain ⟨v, hv⟩ := Option.isSome_iff_exists.mp hsome
    rw [← h.stores slot hfit] at hv
    exact ⟨keyOf slot, List.mem_map.mpr ⟨(keyOf slot, v), HashMap.mem_toList.mpr hv, rfl⟩, decodeKey_keyOf hfit⟩

/-- Keys that were made of a source and a millisecond are made of what they read as. -/
theorem map_keyOf_filterMap {keys : List (List UInt8)}
    (h : ∀ key ∈ keys, ∃ o : Observation, FitsKey o.source ∧ o.key = key) :
    (keys.filterMap decodeKey).map keyOf = keys := by
  induction keys with
  | nil => rfl
  | cons key keys ih =>
    obtain ⟨o, hfit, rfl⟩ := h key List.mem_cons_self
    rw [List.filterMap_cons_some (decodeKey_key hfit), List.map_cons,
      ih fun k hk => h k (List.mem_cons_of_mem _ hk)]
    rfl

theorem Encoded.keys_eq (h : log.Encoded) : log.table.toList.map Prod.fst = log.slots.map keyOf := by
  refine (map_keyOf_filterMap fun key hkey => h key ?_).symm
  obtain ⟨row, hrow, rfl⟩ := List.mem_map.mp hkey
  exact HashMap.mem_iff_getElem?.mpr ⟨_, HashMap.mem_toList.mp hrow⟩

theorem Encoded.nodup_slots (h : log.Encoded) : log.slots.Nodup := by
  have hkeys : (log.table.toList.map Prod.fst).Nodup :=
    List.pairwise_map.mpr (Std.ExtTreeMap.distinct_keys_toList.imp fun hne heq =>
      hne (Std.compare_eq_iff_eq.mpr heq))
  rw [h.keys_eq] at hkeys
  exact hkeys.of_map

theorem Refines.count (h : Refines log line) : log.count (.ok ()) = .ok log.slots.length := by
  have hlen := congrArg List.length h.encoded.keys_eq
  rw [List.length_map, List.length_map, Std.ExtTreeMap.length_toList] at hlen
  rw [count_eq, hlen]

theorem Refines.truncate (h : Refines log line) (beforeTsMs : UInt64) :
    (log.truncate (.ok ()) beforeTsMs).1 =
      .ok (log.slots.filter fun slot => slot.2 < beforeTsMs).length := by
  have hdoomed : (log.doomed beforeTsMs).length =
      (log.slots.filter fun slot => slot.2 < beforeTsMs).length := by
    rw [doomed, h.encoded.keys_eq, List.filter_map, List.length_map]
    refine congrArg List.length (List.filter_congr fun slot hslot => ?_)
    rw [Function.comp_apply, decodeKey_keyOf (h.fits slot (h.mem_slots.mp hslot))]
  rw [truncate_ok, hdoomed]

theorem Refines.sources (h : Refines log line) : ∃ names, log.sources (.ok ()) = .ok names ∧
    names.Pairwise (fun a b => compare a b = .lt) ∧
    ∀ source, source ∈ names ↔ ∃ ts, (line (source, ts)).isSome = true := by
  refine ⟨_, rfl, Std.ExtTreeSet.ordered_toList, fun source => ?_⟩
  have hseen : (log.table.toList.filterMap fun row => (decodeKey row.1).map Prod.fst) =
      log.slots.map Prod.fst := by
    rw [slots, List.filterMap_map, List.map_filterMap]
    rfl
  rw [Std.ExtTreeSet.mem_toList, HashSet.mem_ofList, hseen, List.mem_map]
  constructor
  · rintro ⟨slot, hslot, rfl⟩
    exact ⟨slot.2, h.mem_slots.mp hslot⟩
  · rintro ⟨ts, hts⟩
    exact ⟨(source, ts), h.mem_slots.mpr hts, rfl⟩

/-- **The log is a timeline.** After any history, queries return what the timeline says about
their source, the later after the earlier; the latest observation is the one that nothing is
later than; the sources are those that something is known of; the count is how much is known; and
a pruning returns how much of that it forgets. -/
theorem observation_log_refines_timeline (ops : List Op) :
    let log := ops.foldl ObservationLog.step .empty
    let line := ops.foldl Op.meaning .blank
    (∀ source since, FitsKey source → ∃ found, log.query (.ok ()) source since = .ok found ∧
      found.Pairwise (fun o o' => o.timestampMs < o'.timestampMs) ∧
      ∀ o, o ∈ found ↔ o.source = source ∧ since ≤ o.timestampMs ∧
        line o.slot = some ⟨o.value, o.metadata⟩) ∧
    (∀ source, FitsKey source → ∃ latest, log.queryLatest (.ok ()) source = .ok latest ∧
      ∀ o, latest = some o ↔ o.source = source ∧ line o.slot = some ⟨o.value, o.metadata⟩ ∧
        ∀ ts, (line (source, ts)).isSome = true → ts ≤ o.timestampMs) ∧
    (∃ names, log.sources (.ok ()) = .ok names ∧ names.Pairwise (fun a b => compare a b = .lt) ∧
      ∀ source, source ∈ names ↔ ∃ ts, (line (source, ts)).isSome = true) ∧
    ∃ slots : List (String × UInt64), slots.Nodup ∧
      (∀ slot, slot ∈ slots ↔ (line slot).isSome = true) ∧
      log.count (.ok ()) = .ok slots.length ∧
      ∀ beforeTsMs, (log.truncate (.ok ()) beforeTsMs).1 =
        .ok (slots.filter fun slot => slot.2 < beforeTsMs).length := by
  intro log line
  have h : Refines log line := refines_empty.run ops
  refine ⟨fun source since hfit => ?_, fun source hfit => ?_, h.sources, log.slots,
    h.encoded.nodup_slots, fun slot => h.mem_slots, h.count, h.truncate⟩
  · obtain ⟨found, hrun, hsorted, hmem⟩ := h.encoded.query hfit since
    refine ⟨found, hrun, hsorted, fun o => (hmem o).trans (and_congr_right fun hsource => ?_)⟩
    rw [h.stores_iff (hsource.symm ▸ hfit)]
  · obtain ⟨latest, hrun, hlatest⟩ := h.encoded.queryLatest hfit
    refine ⟨latest, hrun, fun o => (hlatest o).trans (and_congr_right fun hsource => ?_)⟩
    rw [h.stores_iff (hsource.symm ▸ hfit)]
    refine and_congr_right fun _ => ⟨fun hall ts hts => ?_, fun hall o' hsource' hstored => ?_⟩
    · obtain ⟨v, hv⟩ := Option.isSome_iff_exists.mp hts
      exact hall ⟨ts, source, v.value, v.metadata⟩ rfl ((h.stores_iff hfit).mpr hv)
    · rw [h.stores_iff (hsource'.symm ▸ hfit), Observation.slot, hsource'] at hstored
      exact hall _ (by rw [hstored]; rfl)

open Sample in
/-- Three measurements, and a pruning. -/
theorem observation_log_refines_timeline_gauges :
    let log := (gauges.map Op.write ++ [Op.truncate (.ok ()) 1001]).foldl ObservationLog.step .empty
    ∃ found, log.query (.ok ()) "cpu" 0 = .ok found ∧ ∀ o ∈ found, 1001 ≤ o.timestampMs := by
  intro log
  obtain ⟨hquery, -⟩ := observation_log_refines_timeline (gauges.map Op.write ++ [Op.truncate (.ok ()) 1001])
  obtain ⟨found, hrun, -, hmem⟩ := hquery "cpu" 0 (by decide)
  refine ⟨found, hrun, fun o ho => UInt64.not_lt.mp fun hold => ?_⟩
  obtain ⟨-, -, hline⟩ := (hmem o).mp ho
  rw [List.foldl_append, List.foldl_cons, List.foldl_nil, Op.meaning, if_pos rfl, Timeline.forget,
    if_pos (show o.slot.2 < 1001 from hold)] at hline
  cases hline

end ObservationLog

end SilkGraph
