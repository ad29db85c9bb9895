import SilkGraph.ObsLog.Kept

/-!
# Observations in order

Keys are ordered by the length of the source, then by its bytes and then by time
(`compare_key`). Between the key of a source at some time and the one of its last millisecond lie
therefore only keys of that source, whatever other sources there are, and in the order of time.
In every log that was written by this code (`Reachable`) the queries return what they ask for
in that order.
-/

namespace SilkGraph

/-! ### The order of keys -/

theorem compare_timestamp (t t' : UInt64) : compare t t' = compare t.toNat t'.toNat := by
  change compareOfLessAndEq t t' = compareOfLessAndEq t.toNat t'.toNat
  simp only [compareOfLessAndEq, UInt64.lt_iff_toNat_lt, ← UInt64.toNat_inj]

theorem timestamp_le_max (t : UInt64) : t ≤ UInt64.ofNat (2 ^ 64 - 1) := by
  have hlt := t.toNat_lt
  rw [UInt64.le_iff_toNat_le]
  exact Nat.le_of_lt_succ hlt

/-- The length of the source decides first, then the source, then the time. -/
theorem compare_key {o o' : Observation} (h : FitsKey o.source) (h' : FitsKey o'.source) :
    compare o.key o'.key =
      (compare o.source.utf8ByteSize o'.source.utf8ByteSize).then
        ((compare (Bytes.ofString o.source) (Bytes.ofString o'.source)).then
          (compare o.timestampMs o'.timestampMs)) := by
  have hlt : o.source.utf8ByteSize < 256 ^ 2 := Nat.lt_of_le_of_lt h (by decide)
  have hlt' : o'.source.utf8ByteSize < 256 ^ 2 := Nat.lt_of_le_of_lt h' (by decide)
  rw [Observation.key, Observation.key, List.append_assoc, List.append_assoc,
    Bytes.compare_append (by rw [Bytes.length_toBe, Bytes.length_toBe]), Bytes.length_ofString,
    Bytes.length_ofString, Bytes.compare_toBe hlt hlt']
  cases hlen : compare o.source.utf8ByteSize o'.source.utf8ByteSize with
  | lt => rfl
  | gt => rfl
  | eq =>
    have heq : (Bytes.ofString o.source).length = (Bytes.ofString o'.source).length := by
      rw [Bytes.length_ofString, Bytes.length_ofString]
      exact Nat.compare_eq_eq.mp hlen
    rw [Ordering.eq_then, Ordering.eq_then, Bytes.compare_append heq,
      Bytes.compare_toBe o.timestampMs.toNat_lt o'.timestampMs.toNat_lt, compare_timestamp]

/-- The keys of one source are in the order of time. -/
theorem compare_key_of_source_eq {o o' : Observation} (h : FitsKey o.source)
    (hsource : o'.source = o.source) :
    compare o.key o'.key = compare o.timestampMs o'.timestampMs := by
  have hlen : compare o.source.utf8ByteSize o.source.utf8ByteSize = .eq :=
    Std.ReflCmp.compare_self
  have hsrc : compare (Bytes.ofString o.source) (Bytes.ofString o.source) = .eq :=
    Std.ReflCmp.compare_self
  rw [compare_key h (hsource ▸ h), hsource, hlen, hsrc, Ordering.eq_then, Ordering.eq_then]

/-- Between a key of a source and the key of its last millisecond lie the later keys of this
source, and no key of another. -/
theorem inRange_key_iff {o : Observation} (first last : Observation) (h : FitsKey o.source)
    (hfirst : FitsKey first.source) (hlast : last.source = first.source)
    (hmax : ∀ t : UInt64, t ≤ last.timestampMs) :
    (compare first.key o.key).isLE = true ∧ (compare o.key last.key).isLE = true ↔
      o.source = first.source ∧ first.timestampMs ≤ o.timestampMs := by
  constructor
  · rintro ⟨hle, hge⟩
    have hsource : o.source = first.source := by
      rw [compare_key hfirst h] at hle
      have hlen' : compare o.source.utf8ByteSize first.source.utf8ByteSize =
          (compare first.source.utf8ByteSize o.source.utf8ByteSize).swap :=
        Std.OrientedOrd.eq_swap
      have hsrc' : compare (Bytes.ofString o.source) (Bytes.ofString first.source) =
          (compare (Bytes.ofString first.source) (Bytes.ofString o.source)).swap :=
        Std.OrientedOrd.eq_swap
      rw [compare_key h (hlast ▸ hfirst), hlast, hlen', hsrc'] at hge
      -- a comparison that is not equal points one way in `hle` and the other way in `hge`
      cases hlen : compare first.source.utf8ByteSize o.source.utf8ByteSize with
      | lt => simp [hlen] at hge
      | gt => simp [hlen] at hle
      | eq =>
        cases hsrc : compare (Bytes.ofString first.source) (Bytes.ofString o.source) with
        | lt => simp [hlen, hsrc] at hge
        | gt => simp [hlen, hsrc] at hle
        | eq => exact (Bytes.ofString_injective (Std.LawfulEqCmp.eq_of_compare hsrc)).symm
    rw [compare_key_of_source_eq hfirst hsource] at hle
    exact ⟨hsource, Std.isLE_compare.mp hle⟩
  · rintro ⟨hsource, hle⟩
    rw [compare_key_of_source_eq hfirst hsource,
      compare_key_of_source_eq h (hlast.trans hsource.symm)]
    exact ⟨Std.isLE_compare.mpr hle, Std.isLE_compare.mpr (hmax _)⟩

/-- A row is the row of one observation. -/
theorem row_injective {o o' : Observation} (h : FitsKey o.source) (h' : FitsKey o'.source)
    (heq : o.row = o'.row) : o = o' := by
  obtain ⟨hkey, hvalue⟩ := Prod.mk.inj heq
  obtain ⟨hsource, hts⟩ := Prod.mk.inj (key_injective h h' hkey)
  cases o
  cases o'
  simp_all

namespace ObservationLog

/-! ### Logs that were written by this code -/

/-- The row of the observation is in the table. -/
def Stores (self : ObservationLog) (o : Observation) : Prop :=
  self.table[o.key]? = some ⟨o.value, o.metadata⟩

/-- Every key of the table is the key of some observation. -/
def Encoded (self : ObservationLog) : Prop :=
  ∀ key ∈ self.table, ∃ o : Observation, FitsKey o.source ∧ o.key = key

/-- A log after any course of calls that write to it or prune it. -/
inductive Reachable : ObservationLog → Prop
  | empty : Reachable empty
  | exec {log : ObservationLog} (h : Reachable log) (call : Call) : Reachable (log.exec call).2
  | truncate {log : ObservationLog} (h : Reachable log) (txn : TxnResult) (beforeTsMs : UInt64) :
    Reachable (log.truncate txn beforeTsMs).2

theorem Reachable.run {log : ObservationLog} (h : Reachable log) (calls : List Call) :
    Reachable (log.run calls) := by
  induction calls generalizing log with
  | nil => exact h
  | cons call calls ih => exact ih (h.exec call)

/-- A call writes rows of observations only. -/
theorem Encoded.exec {log : ObservationLog} (h : log.Encoded) (call : Call) :
    (log.exec call).2.Encoded := by
  intro key hkey
  rw [(exec_spec log call).2] at hkey
  split at hkey
  · rename_i hacc
    rcases Std.ExtTreeMap.mem_insertMany_list.mp hkey with hkey | hkey
    · exact h key hkey
    · rw [List.contains_iff_mem, List.map_map, List.mem_map] at hkey
      obtain ⟨o, ho, rfl⟩ := hkey
      exact ⟨o, hacc.2.2.2 o ho, rfl⟩
  · exact h key hkey

/-- Pruning only takes rows away. -/
theorem Encoded.truncate {log : ObservationLog} (h : log.Encoded) (txn : TxnResult)
    (beforeTsMs : UInt64) : (log.truncate txn beforeTsMs).2.Encoded := by
  have herase : ∀ (keys : List (List UInt8)) (table : ObsTable) (key : List UInt8),
      key ∈ keys.foldl (fun table key => table.erase key) table → key ∈ table := by
    intro keys
    induction keys with
    | nil => exact fun _ _ hkey => hkey
    | cons k keys ih => exact fun table key hkey => Std.ExtTreeMap.mem_of_mem_erase (ih _ _ hkey)
  unfold ObservationLog.truncate
  dsimp only
  split
  · exact h
  · exact fun key hkey => h key (herase _ _ key hkey)

theorem Reachable.encoded {log : ObservationLog} (h : Reachable log) : log.Encoded := by
  induction h with
  | empty => exact fun key hkey => absurd hkey Std.ExtTreeMap.not_mem_empty
  | exec _ call ih => exact ih.exec call
  | truncate _ txn beforeTsMs ih => exact ih.truncate txn beforeTsMs

/-! ### Queries -/

variable {log : ObservationLog} {source : String} {o : Observation}

/-- A row of the table reads as the observation that it stores. -/
theorem Encoded.observation?_eq_some_iff (h : log.Encoded) {row : List UInt8 × ObsValue}
    (hrow : row ∈ log.table.toList) :
    observation? source row = some o ↔ o.source = source ∧ FitsKey o.source ∧ o.row = row := by
  obtain ⟨key, value⟩ := row
  have hkey : key ∈ log.table :=
    HashMap.mem_iff_getElem?.mpr ⟨value, HashMap.mem_toList.mp hrow⟩
  obtain ⟨o₁, hfit, rfl⟩ := h key hkey
  -- the observation of the row, with the value that is stored there
  obtain ⟨o₂, hfit₂, hrow₂⟩ : ∃ o₂ : Observation, FitsKey o₂.source ∧ o₂.row = (o₁.key, value) :=
    ⟨⟨o₁.timestampMs, o₁.source, value.value, value.metadata⟩, hfit, rfl⟩
  rw [← hrow₂, observation?_row hfit₂ source]
  constructor
  · intro hsome
    split at hsome
    · rename_i hsource
      obtain rfl := Option.some.inj hsome
      exact ⟨hsource, hfit₂, rfl⟩
    · cases hsome
  · rintro ⟨hsource, hfit', heq⟩
    obtain rfl : o = o₂ := row_injective hfit' hfit₂ heq
    rw [if_pos hsource]

/-- The observations of a source between its key at some time and its last key: those that are
stored and are not earlier, in the order of time. -/
theorem Encoded.range_spec (h : log.Encoded) (hfit : FitsKey source) (since : UInt64) :
    let found := (log.range (Observation.key ⟨since, source, ⟨0⟩, ∅⟩)
      (Observation.key ⟨UInt64.ofNat (2 ^ 64 - 1), source, ⟨0⟩, ∅⟩)).filterMap (observation? source)
    found.Pairwise (fun o o' => o.timestampMs < o'.timestampMs) ∧
      ∀ o, o ∈ found ↔ o.source = source ∧ since ≤ o.timestampMs ∧ log.Stores o := by
  intro found
  let first : Observation := ⟨since, source, ⟨0⟩, ∅⟩
  let last : Observation := ⟨UInt64.ofNat (2 ^ 64 - 1), source, ⟨0⟩, ∅⟩
  constructor
  · have hsorted : log.table.toList.Pairwise fun a b => compare a.1 b.1 = .lt :=
      Std.ExtTreeMap.ordered_keys_toList
    rw [List.pairwise_filterMap]
    refine (hsorted.filter _).imp_of_mem fun hrow hrow' hlt o ho o' ho' => ?_
    obtain ⟨hsource, hfit, rfl⟩ :=
      (h.observation?_eq_some_iff (List.mem_filter.mp hrow).1).mp ho
    obtain ⟨hsource', -, rfl⟩ :=
      (h.observation?_eq_some_iff (List.mem_filter.mp hrow').1).mp ho'
    have hkeys : compare o.key o'.key = compare o.timestampMs o'.timestampMs :=
      compare_key_of_source_eq hfit (hsource'.trans hsource.symm)
    exact Std.compare_eq_lt.mp (hkeys.symm.trans hlt)
  · intro o
    rw [List.mem_filterMap]
    constructor
    · rintro ⟨row, hrow, ho⟩
      obtain ⟨hmem, hrange⟩ := List.mem_filter.mp hrow
      obtain ⟨hsource, hfit', rfl⟩ := (h.observation?_eq_some_iff hmem).mp ho
      have hbetween := (inRange_key_iff first last hfit' hfit rfl timestamp_le_max).mp
        (Bool.and_eq_true_iff.mp hrange)
      exact ⟨hsource, hbetween.2, HashMap.mem_toList.mp hmem⟩
    · rintro ⟨hsource, hsince, hstored⟩
      have hmem : o.row ∈ log.table.toList := HashMap.mem_toList.mpr hstored
      have hfit' : FitsKey o.source := hsource ▸ hfit
      have hbetween := (inRange_key_iff first last hfit' hfit rfl timestamp_le_max).mpr ⟨hsource, hsince⟩
      exact ⟨o.row, List.mem_filter.mpr ⟨hmem, Bool.and_eq_true_iff.mpr hbetween⟩,
        (h.observation?_eq_some_iff hmem).mpr ⟨hsource, hfit', rfl⟩⟩

/-- A query returns the observations that it asks for, in the order of time. -/
theorem Encoded.query (h : log.Encoded) (hfit : FitsKey source) (since : UInt64) :
    ∃ found, log.query (.ok ()) source since = .ok found ∧
      found.Pairwise (fun o o' => o.timestampMs < o'.timestampMs) ∧
      ∀ o, o ∈ found ↔ o.source = source ∧ since ≤ o.timestampMs ∧ log.Stores o := by
  refine ⟨_, ?_, h.range_spec hfit since⟩
  rw [ObservationLog.query, encodeKey_eq_ok_iff.mpr ⟨hfit, rfl⟩,
    encodeKey_eq_ok_iff.mpr ⟨hfit, rfl⟩]
  rfl

/-- The latest observation is the one that no other of its source is later than. -/
theorem Encoded.queryLatest (h : log.Encoded) (hfit : FitsKey source) :
    ∃ latest, log.queryLatest (.ok ()) source = .ok latest ∧
      ∀ o, latest = some o ↔ o.source = source ∧ log.Stores o ∧
        ∀ o', o'.source = source → log.Stores o' → o'.timestampMs ≤ o.timestampMs := by
  obtain ⟨hsorted, hmem⟩ := h.range_spec hfit 0
  refine ⟨_, by
    rw [ObservationLog.queryLatest, encodeKey_eq_ok_iff.mpr ⟨hfit, rfl⟩,
      encodeKey_eq_ok_iff.mpr ⟨hfit, rfl⟩]
    rfl, fun o => ?_⟩
  generalize (log.range _ _).filterMap (observation? source) = found at hsorted hmem
  simp only [UInt64.zero_le, true_and] at hmem
  constructor
  · intro hlast
    obtain ⟨init, rfl⟩ := List.getLast?_eq_some_iff.mp hlast
    obtain ⟨hsource, hstored⟩ := (hmem o).mp (by simp)
    refine ⟨hsource, hstored, fun o' hsource' hstored' => ?_⟩
    rcases List.mem_append.mp ((hmem o').mpr ⟨hsource', hstored'⟩) with hinit | hlast'
    · have hlt := (List.pairwise_append.mp hsorted).2.2 o' hinit o (List.mem_singleton.mpr rfl)
      exact UInt64.le_of_lt hlt
    · rw [List.mem_singleton.mp hlast']
      exact UInt64.le_refl _
  · rintro ⟨hsource, hstored, hnewest⟩
    have ho : o ∈ found := (hmem o).mpr ⟨hsource, hstored⟩
    obtain ⟨o', hlast⟩ : ∃ o', found.getLast? = some o' :=
      ⟨_, List.getLast?_eq_some_getLast (List.ne_nil_of_mem ho)⟩
    obtain ⟨init, rfl⟩ := List.getLast?_eq_some_iff.mp hlast
    rw [hlast]
    rcases List.mem_append.mp ho with hinit | hlast'
    · have hlt := (List.pairwise_append.mp hsorted).2.2 o hinit o' (List.mem_singleton.mpr rfl)
      obtain ⟨hsource', hstored'⟩ := (hmem o').mp (by simp)
      exact absurd (hnewest o' hsource' hstored') (UInt64.not_le.mpr hlt)
    · rw [List.mem_singleton.mp hlast']

/-- **Keys are a faithful ordered encoding.** A key reads back as its source and its time and
belongs to no other; between the key of a source at some time and the one of its last
millisecond lie, of all keys, exactly those of this source that are not earlier, in the order of
time. In every log that this code has written, a query therefore returns exactly the stored
observations of the source that are not earlier, in the order of time, and the latest one is
the newest. -/
theorem keys_ordered {log : ObservationLog} (hlog : Reachable log) {source : String}
    (hfit : FitsKey source) (ts : UInt64) :
    ∃ start stop : List UInt8, encodeKey source ts = .ok start ∧
      encodeKey source (UInt64.ofNat (2 ^ 64 - 1)) = .ok stop ∧
      decodeKey start = some (source, ts) ∧
      (∀ (source' : String) (ts' : UInt64) (key : List UInt8), encodeKey source' ts' = .ok key →
        (key = start → source' = source ∧ ts' = ts) ∧
        ((compare start key).isLE = true ∧ (compare key stop).isLE = true ↔
          source' = source ∧ ts ≤ ts') ∧
        (source' = source → compare start key = compare ts ts')) ∧
      (∃ found, log.query (.ok ()) source ts = .ok found ∧
        found.Pairwise (fun o o' => o.timestampMs < o'.timestampMs) ∧
        ∀ o, o ∈ found ↔ o.source = source ∧ ts ≤ o.timestampMs ∧ log.Stores o) ∧
      ∃ latest, log.queryLatest (.ok ()) source = .ok latest ∧
        ∀ o, latest = some o ↔ o.source = source ∧ log.Stores o ∧
          ∀ o', o'.source = source → log.Stores o' → o'.timestampMs ≤ o.timestampMs := by
  let first : Observation := ⟨ts, source, ⟨0⟩, ∅⟩
  let last : Observation := ⟨UInt64.ofNat (2 ^ 64 - 1), source, ⟨0⟩, ∅⟩
  refine ⟨first.key, last.key, encodeKey_eq_ok_iff.mpr ⟨hfit, rfl⟩,
    encodeKey_eq_ok_iff.mpr ⟨hfit, rfl⟩, decodeKey_key hfit, ?_, hlog.encoded.query hfit ts,
    hlog.encoded.queryLatest hfit⟩
  intro source' ts' key hkey
  obtain ⟨hfit', rfl⟩ := encodeKey_eq_ok_iff.mp hkey
  refine ⟨fun heq => ?_, inRange_key_iff first last hfit' hfit rfl timestamp_le_max,
    fun hsource => compare_key_of_source_eq hfit hsource⟩
  have hslot : (source', ts') = first.slot := key_injective hfit' hfit heq
  exact Prod.mk.inj hslot

end ObservationLog

namespace Sample

open ObservationLog

/-- A log with one source whose name begins the name of the other. -/
def gauges : List Call :=
  [.append commits 1000 "cpu" ⟨1⟩ ∅, .append commits 1001 "cpu0" ⟨2⟩ ∅,
    .append commits 1002 "cpu" ⟨3⟩ ∅]

end Sample

namespace ObservationLog

open Sample in
/-- The two measurements of `"cpu"`, not those of `"cpu0"`. -/
theorem keys_ordered_gauges :
    ∃ start stop : List UInt8, encodeKey "cpu" 1001 = .ok start ∧
      encodeKey "cpu" (UInt64.ofNat (2 ^ 64 - 1)) = .ok stop ∧
      decodeKey start = some ("cpu", 1001) ∧
      (∀ (source' : String) (ts' : UInt64) (key : List UInt8), encodeKey source' ts' = .ok key →
        (key = start → source' = "cpu" ∧ ts' = 1001) ∧
        ((compare start key).isLE = true ∧ (compare key stop).isLE = true ↔
          source' = "cpu" ∧ 1001 ≤ ts') ∧
        (source' = "cpu" → compare start key = compare 1001 ts')) ∧
      (∃ found, (ObservationLog.empty.run gauges).query (.ok ()) "cpu" 1001 = .ok found ∧
        found.Pairwise (fun o o' => o.timestampMs < o'.timestampMs) ∧
        ∀ o, o ∈ found ↔ o.source = "cpu" ∧ 1001 ≤ o.timestampMs ∧
          (ObservationLog.empty.run gauges).Stores o) ∧
      ∃ latest, (ObservationLog.empty.run gauges).queryLatest (.ok ()) "cpu" = .ok latest ∧
        ∀ o, latest = some o ↔ o.source = "cpu" ∧ (ObservationLog.empty.run gauges).Stores o ∧
          ∀ o', o'.source = "cpu" → (ObservationLog.empty.run gauges).Stores o' →
            o'.timestampMs ≤ o.timestampMs :=
  keys_ordered (Reachable.empty.run gauges) (by decide) 1001

end ObservationLog

end SilkGraph
