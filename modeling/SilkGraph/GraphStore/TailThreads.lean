import SilkGraph.GraphStore.Calls
import SilkGraph.GraphStore.MergeLog
import SilkGraph.Lib.Runs
import SilkGraph.Sync.Tail

/-!
# Threads that tail a store

Any number of threads call `next_batch` on subscriptions of a store, some of them on the same
one, while calls to the store go on. A thread that finds nothing goes to sleep with the count of
the store's bell that it read before it looked, and wakes up when the count is another one or its
time is up. All else happens under the lock of the interpreter, one step at a time.

* `asleep_has_all`: whatever the order of the steps, a subscription hands out no entry twice, and
  a thread that is asleep and has no reason to wake up has missed nothing.
* `failed_merge_wakes_nobody`: a merge that fails may leave entries in the log without a ring.
-/

namespace SilkGraph

open OpLog

/-- What a thread is doing: nothing; asleep in a call, with the count of the bell it read; or
awake again, about to look a second time. -/
inductive ThreadState (I : Type) where
  | idle
  | asleep (sub : I) (lastSeen : BitVec 64) (maxCount : ℕ)
  | awake (sub : I) (maxCount : ℕ)
  deriving DecidableEq

/-- A store with its bell, its subscriptions and what they have handed out, and the threads. -/
structure TailHub (T I : Type) where
  store : PyGraphStore
  bell : BitVec 64
  subs : I → TailSubscription
  threads : T → ThreadState I
  delivered : I → List Entry

namespace PyGraphStore

variable [Crates]

/-- Whether a call rings the bell: an append rings when it returns, and a merge when it has
brought something. -/
def rings (self : PyGraphStore) (env : Env) (c : Call) : Bool :=
  match c with
  | .addNode .. | .addEdge .. | .updateProperty .. | .removeNode _ | .removeEdge _ | .drain _ =>
    (self.exec env c).1.isOk
  | .extendOntology extension =>
    match self.ontology.mergeExtension extension with
    | (.ok (), testOntology) => testOntology.validateSelf.isOk &&
        (self.append env (.extendOntology extension)).1.isOk
    | _ => false
  | .merge entries =>
    match (self.mergeEntriesVec env entries).1 with
    | .ok inserted => inserted != 0
    | .error _ => false
  | _ => false

end PyGraphStore

namespace TailHub

variable {T I : Type} [DecidableEq T] [DecidableEq I]

/-- What happens next: a call to the store; a call of `next_batch` by a thread; the end of its
sleep; its second look at the log; or a subscription is closed. -/
inductive Event (T I : Type) where
  | call (env : Env) (call : PyGraphStore.Call)
  | nextBatch (thread : T) (sub : I) (σ : HashOrder) (timeoutMs maxCount : ℕ)
  | wake (thread : T) (timedOut : Bool)
  | resume (thread : T) (σ : HashOrder)
  | close (sub : I)

/-- The thread of an event. -/
def Event.thread? : Event T I → Option T
  | .nextBatch t .. | .wake t _ | .resume t _ => some t
  | .call .. | .close _ => none

/-- Look at the log for a subscription. Whether there was something, or an error. -/
def fetch (self : TailHub T I) (σ : HashOrder) (i : I) (maxCount : ℕ) : Option (Bool × TailHub T I) :=
  ((self.subs i).tryFetch σ self.store.oplog maxCount).map fun r =>
    match r with
    | (.ok none, _) => (false, self)
    | (.ok (some entries), sub) => (true, { self with
        subs := Function.update self.subs i sub
        delivered := Function.update self.delivered i (self.delivered i ++ entries) })
    | (.error _, _) => (true, self)

variable [Crates]

/-- One event; `none` if the code panics. A thread does one thing at a time. -/
def step (self : TailHub T I) : Event T I → Option (TailHub T I)
  | .call env call => some { self with
      store := (self.store.exec env call).2
      bell := if self.store.rings env call then self.bell + 1 else self.bell }
  | .nextBatch t i σ timeoutMs maxCount =>
    match self.threads t with
    | .idle =>
      if (self.subs i).closed then some self
      else
        let lastSeen := self.bell
        (self.fetch σ i maxCount).map fun (found, self) =>
          if found || timeoutMs = 0 then self
          else { self with threads := Function.update self.threads t (.asleep i lastSeen maxCount) }
    | _ => some self
  | .wake t timedOut =>
    match self.threads t with
    | .asleep i lastSeen maxCount => some
        (if timedOut || self.bell != lastSeen then
          { self with threads := Function.update self.threads t (.awake i maxCount) }
        else self)
    | _ => some self
  | .resume t σ =>
    match self.threads t with
    | .awake i maxCount =>
      let self := { self with threads := Function.update self.threads t .idle }
      if (self.subs i).closed then some self else (self.fetch σ i maxCount).map Prod.snd
    | _ => some self
  | .close i => some { self with
      subs := Function.update self.subs i { self.subs i with closed := true }
      bell := self.bell + 1 }

/-- The events one after another. -/
def run (self : TailHub T I) (events : List (Event T I)) : Option (TailHub T I) :=
  Runs.run step self events

/-- What may happen. The log is not compacted, a merge keeps its links as they should be, a
thread makes one call at a time, and batches are cut well. -/
def Allowed (self : TailHub T I) : Event T I → Prop
  | .call _ call => call ≠ .compact ∧ ∀ es, call = .merge es →
      Tail.WriteAllowed self.store.oplog (.merge (es.filter self.store.admits))
  | .nextBatch t i _ _ maxCount => self.threads t = .idle ∧
      self.store.oplog.CutsWell (self.subs i).cursor maxCount
  | .resume t _ => ∀ i maxCount, self.threads t = .awake i maxCount →
      self.store.oplog.CutsWell (self.subs i).cursor maxCount
  | .wake .. | .close _ => True

/-- Every event of the run is allowed when it happens. -/
def AllowedRun (self : TailHub T I) (events : List (Event T I)) : Prop :=
  Runs.AllowedRun step Allowed self events

end TailHub

/-! ### The calls to the store -/

namespace PyGraphStore

variable [Crates] {s : PyGraphStore} {env : Env} {c : Call} {op : GraphOp} {L L' : OpLog}
  {new : List Entry}

/-- Entries with a parent named once and no references keep the links as they should be. -/
theorem linksSound_grown (hL : L.Tailable) (hi : Inserts L new L')
    (hnew : ∀ e ∈ new, e.next.Nodup ∧ e.refs = []) : L'.LinksSound := by
  refine ⟨fun h e he => ?_, fun h e he r hr => ?_⟩
  · obtain hold | ⟨hin, -⟩ := hi.source he
    · exact hL.nextNodup h e hold
    · exact (hnew e hin).1
  · obtain hold | ⟨hin, -⟩ := hi.source he
    · have hnext : ∀ x ∈ L.entries, L'.nextOf x = L.nextOf x := fun x hx => by
        obtain ⟨a, ha⟩ := HashMap.mem_iff_getElem?.mp hx
        rw [nextOf_eq_of_get ha, nextOf_eq_of_get (hi.grows ha)]
      have hparents : Dag.ParentClosed L.nextOf (· ∈ L.entries) := hL.wellFormed.rep.parentClosed
      exact (hparents.ancestor_congr hnext (HashMap.mem_iff_getElem?.mpr ⟨e, hold⟩)).mpr
        (hL.refs h e hold r hr)
    · rw [(hnew e hin).2] at hr
      cases hr

/-- A local write is a write to the log that a subscription can follow. -/
theorem writeAllowed_append (hL : s.oplog.Tailable) (hop : op.isCheckpoint = false) :
    Tail.WriteAllowed s.oplog (.append (s.writtenEntry env op)) := by
  have hroot : ¬ (s.writtenEntry env op).isRootCheckpoint := by
    rw [Entry.isRootCheckpoint, writtenEntry_payload, hop]
    simp
  refine ⟨fun e he _ hc => ?_, ?_⟩
  · rw [List.mem_singleton.mp he] at hc
    exact absurd hc hroot
  · have hnext : (s.writtenEntry env op).next.Nodup ∧ (s.writtenEntry env op).refs = [] := by
      rw [writtenEntry, createEntry_next, createEntry_refs, (env.order.perm _).nodup_iff]
      exact ⟨HashSet.nodup_toList, rfl⟩
    change ((s.oplog.append (s.writtenEntry env op)).2).LinksSound
    obtain ⟨-, h⟩ | ⟨-, -, h⟩ | ⟨-, -, hc, -⟩ | ⟨-, -, -, p, -, -, h⟩ | ⟨hv, hd, -, hp, h⟩ :=
      OpLog.append_cases hL.wellFormed.nonempty (s.writtenEntry env op)
    · rw [h]
      exact hL.toLinksSound
    · rw [h]
      exact hL.toLinksSound
    · exact absurd hc hroot
    · rw [h]
      exact hL.toLinksSound
    · rw [h]
      refine linksSound_grown hL (.single hv hd hp) fun e he => ?_
      rw [List.mem_singleton.mp he]
      exact hnext

/-- The log has grown into one that a subscription can follow. -/
def TailsOn (L L' : OpLog) : Prop := L'.Tailable ∧ ∃ new, Inserts L new L'

theorem TailsOn.of_write {write : Write} (hL : L.Tailable) (hw : Tail.WriteAllowed L write) :
    TailsOn L (write.exec L) := ⟨hw.tailable hL, hw.inserts hL⟩

/-- **Calls.** Whatever a call returns, the log has grown at most. -/
theorem tailsOn_exec (hL : s.oplog.Tailable) (hc : c ≠ .compact)
    (hm : ∀ es, c = .merge es → Tail.WriteAllowed s.oplog (.merge (es.filter s.admits))) :
    TailsOn s.oplog (s.exec env c).2.oplog := by
  have hrefl : TailsOn s.oplog s.oplog := ⟨hL, [], .nil _⟩
  refine s.exec_rule env (I := fun t => TailsOn s.oplog t.oplog) hrefl (fun op _ hop => ?_)
    (fun t nodeTypes ht => ht) (fun t ontology ht => ?_) (fun b hb => ?_) (fun es hes => ?_)
    (fun h => absurd h hc) fun hconf => ?_
  · have happ := TailsOn.of_write hL (@writeAllowed_append _ s env op hL hop)
    rw [Write.exec, oplog, ← Backend.append_oplog _ env.order (env.txn 0)] at happ
    obtain ⟨_, -, h⟩ | ⟨-, _, -, h⟩ | ⟨-, _, -, h⟩ := s.append_cases env op <;> rw [h]
    · exact hrefl
    · exact happ
    · exact happ
  · rw [revalidate_log]
    exact ht
  · exact hb.symm ▸ hrefl
  · rw [mergeEntriesVec_log]
    exact .of_write hL (hm es hes)
  · cases c <;> first | exact hrefl | cases hconf

end PyGraphStore

namespace TailHub

variable {T I : Type} [DecidableEq T] [DecidableEq I] [Crates] {hub hub' : TailHub T I}
  {event : Event T I} {events : List (Event T I)} {i : I} {t : T}

/-! ### The bell -/

/-- Whether an event rings. -/
def rings (self : TailHub T I) : Event T I → Bool
  | .call env c => self.store.rings env c
  | .close _ => true
  | .nextBatch .. | .wake .. | .resume .. => false

/-- What an event does to a thread alone: to fall asleep is to have read the bell and found
nothing. -/
def Turns (self : TailHub T I) (t : T) (state : ThreadState I) : Prop :=
  ∀ i c m, state = .asleep i c m → self.threads t = state ∨
    c = self.bell ∧ (self.subs i).closed = false ∧
      ∃ σ sub, (self.subs i).tryFetch σ self.store.oplog m = some (.ok none, sub)

omit [DecidableEq T] [Crates] in
theorem fetch_cases {σ : HashOrder} {maxCount : ℕ} {found : Bool}
    (h : hub.fetch σ i maxCount = some (found, hub')) :
    (hub' = hub ∧ (found = false → ∃ sub,
      (hub.subs i).tryFetch σ hub.store.oplog maxCount = some (.ok none, sub))) ∨
      ∃ sub entries, (hub.subs i).tryFetch σ hub.store.oplog maxCount = some (.ok (some entries), sub) ∧
        found = true ∧ hub' = { hub with
          subs := Function.update hub.subs i sub
          delivered := Function.update hub.delivered i (hub.delivered i ++ entries) } := by
  obtain ⟨⟨r, sub⟩, hrun, heq⟩ := Option.map_eq_some_iff.mp h
  rcases r with err | (_ | entries)
  · obtain ⟨rfl, rfl⟩ := Prod.mk.inj heq
    exact .inl ⟨rfl, fun h => by cases h⟩
  · obtain ⟨rfl, rfl⟩ := Prod.mk.inj heq
    exact .inl ⟨rfl, fun _ => ⟨sub, hrun⟩⟩
  · obtain ⟨rfl, rfl⟩ := Prod.mk.inj heq
    exact .inr ⟨sub, entries, hrun, rfl, rfl⟩

/-- What an event does: a call to the store; a subscription is closed; a thread goes on; or a
thread hands out a batch of an open subscription. -/
theorem step_cases (h : hub.step event = some hub') :
    (∃ env c, event = .call env c ∧ hub' = { hub with
      store := (hub.store.exec env c).2
      bell := if hub.store.rings env c then hub.bell + 1 else hub.bell }) ∨
    (∃ i, event = .close i ∧ hub' = { hub with
      subs := Function.update hub.subs i { hub.subs i with closed := true }, bell := hub.bell + 1 }) ∨
    ∃ t, event.thread? = some t ∧
      ((∃ state, hub.Turns t state ∧ hub' = { hub with threads := Function.update hub.threads t state }) ∨
      ∃ i σ m sub entries, (hub.subs i).tryFetch σ hub.store.oplog m = some (.ok (some entries), sub) ∧
        (hub.Allowed event → hub.store.oplog.CutsWell (hub.subs i).cursor m) ∧ hub' = { hub with
          threads := Function.update hub.threads t .idle
          subs := Function.update hub.subs i sub
          delivered := Function.update hub.delivered i (hub.delivered i ++ entries) }) := by
  have hstays : ∀ t, hub.Turns t (hub.threads t) := fun t i c m _ => .inl rfl
  have hidle : ∀ t, hub.Turns t .idle := fun t i c m h => by cases h
  cases event with
  | call env c => exact .inl ⟨env, c, rfl, (Option.some.inj h).symm⟩
  | close i => exact .inr (.inl ⟨i, rfl, (Option.some.inj h).symm⟩)
  | nextBatch t i σ timeoutMs maxCount =>
    refine .inr (.inr ⟨t, rfl, ?_⟩)
    rw [step] at h
    split at h
    · rename_i ht
      split at h
      · obtain rfl := Option.some.inj h
        exact .inl ⟨_, hstays t, by rw [Function.update_eq_self]⟩
      · rename_i hopen
        obtain ⟨⟨found, hub₁⟩, hfetch, heq⟩ := Option.map_eq_some_iff.mp h
        obtain ⟨rfl, hnone⟩ | ⟨sub, entries, hrun, rfl, rfl⟩ := fetch_cases hfetch
        · dsimp only at heq
          split at heq
          · subst heq
            exact .inl ⟨_, hstays t, by rw [Function.update_eq_self]⟩
          · rename_i hfound
            rw [Bool.or_eq_true, not_or, Bool.not_eq_true] at hfound
            subst heq
            refine .inl ⟨_, fun j c m hsame => .inr ?_, rfl⟩
            cases hsame
            exact ⟨rfl, by simpa using hopen, σ, hnone hfound.1⟩
        · simp only [Bool.true_or, if_true] at heq
          subst heq
          refine .inr ⟨i, σ, maxCount, sub, entries, hrun, And.right, ?_⟩
          rw [← ht, Function.update_eq_self]
    · obtain rfl := Option.some.inj h
      exact .inl ⟨_, hstays t, by rw [Function.update_eq_self]⟩
  | wake t timedOut =>
    refine .inr (.inr ⟨t, rfl, .inl ?_⟩)
    rw [step] at h
    split at h
    · obtain rfl := Option.some.inj h
      split
      · exact ⟨.awake _ _, (fun j c m hsame => by cases hsame), rfl⟩
      · exact ⟨_, hstays t, by rw [Function.update_eq_self]⟩
    · obtain rfl := Option.some.inj h
      exact ⟨_, hstays t, by rw [Function.update_eq_self]⟩
  | resume t σ =>
    refine .inr (.inr ⟨t, rfl, ?_⟩)
    rw [step] at h
    split at h
    · rename_i i maxCount ht
      dsimp only at h
      split at h
      · obtain rfl := Option.some.inj h
        exact .inl ⟨.idle, hidle t, rfl⟩
      · obtain ⟨⟨found, hub₁⟩, hfetch, rfl⟩ := Option.map_eq_some_iff.mp h
        obtain ⟨rfl, -⟩ | ⟨sub, entries, hrun, -, rfl⟩ := fetch_cases hfetch
        · exact .inl ⟨.idle, hidle t, rfl⟩
        · exact .inr ⟨i, σ, maxCount, sub, entries, hrun, fun ha => ha i maxCount ht, rfl⟩
    · obtain rfl := Option.some.inj h
      exact .inl ⟨_, hstays t, by rw [Function.update_eq_self]⟩

/-- Nothing is past the cursor of the subscription. -/
def UpToDate (self : TailHub T I) (i : I) : Prop :=
  self.store.oplog.entriesSinceHeads (self.subs i).cursor = some (.ok [])

omit [DecidableEq I] [Crates] [DecidableEq T] in
theorem UpToDate.tryFetch (hu : hub.UpToDate i) (σ : HashOrder) (m : ℕ) :
    (hub.subs i).tryFetch σ hub.store.oplog m = some (.ok none, hub.subs i) := by
  simp [TailSubscription.tryFetch, show _ = _ from hu]

/-- The subscription, as one that nobody closes. -/
def tailOf (self : TailHub T I) (i : I) : Tail :=
  ⟨self.store.oplog, .new (self.subs i).cursor, self.delivered i⟩

/-- All subscriptions can be followed. -/
structure Sound (hub : TailHub T I) : Prop where
  tailable : hub.store.oplog.Tailable
  known : ∀ j, ∀ c ∈ (hub.subs j).cursor, c ∈ hub.store.oplog.entries

omit [DecidableEq T] [DecidableEq I] in
/-- If nothing is past the cursor of a subscription, all of the log is covered. -/
theorem Sound.covered (h : hub.Sound) (hu : hub.UpToDate i) :
    ∀ x ∈ hub.store.oplog.entries, hub.store.oplog.CoveredBy (hub.subs i).cursor x := by
  obtain ⟨es, hes, -, hmem, -⟩ := h.tailable.entriesSinceHeads_spec (h.known i)
  obtain rfl : [] = es := Except.ok.inj (Option.some.inj ((show _ = _ from hu).symm.trans hes))
  intro x hx
  by_contra hcov
  obtain ⟨e, he⟩ := HashMap.mem_iff_getElem?.mp hx
  obtain ⟨rfl, -⟩ := h.tailable.wellFormed.rep.keyed x e he
  exact List.not_mem_nil ((hmem e).mpr ⟨he, hcov⟩)

omit [DecidableEq T] in
/-- A look at the log for a subscription does not fail. -/
theorem Sound.fetch (h : hub.Sound) (σ : HashOrder) {m : ℕ}
    (hcut : hub.store.oplog.CutsWell (hub.subs i).cursor m) : ∃ r, hub.fetch σ i m = some r := by
  obtain ⟨hnone, -⟩ | ⟨es, cursor, hrun, -⟩ :=
    @tryFetch_spec _ _ (hub.subs i) σ m h.tailable (h.known i) hcut
  · exact ⟨_, by rw [TailHub.fetch, hnone, Option.map_some]⟩
  · exact ⟨_, by rw [TailHub.fetch, hrun, Option.map_some]⟩

/-- What is allowed does not fail. -/
theorem Sound.step_isSome (h : hub.Sound) (ha : hub.Allowed event) :
    ∃ hub', hub.step event = some hub' := by
  cases event with
  | call env c => exact ⟨_, rfl⟩
  | close i => exact ⟨_, rfl⟩
  | nextBatch t i σ timeoutMs maxCount =>
    rw [TailHub.step, ha.1]
    dsimp only
    split
    · exact ⟨_, rfl⟩
    · obtain ⟨r, hr⟩ := h.fetch σ ha.2
      exact ⟨_, by rw [hr, Option.map_some]⟩
  | wake t timedOut =>
    rw [TailHub.step]
    split <;> exact ⟨_, rfl⟩
  | resume t σ =>
    rw [TailHub.step]
    split
    · rename_i i maxCount ht
      dsimp only
      split
      · exact ⟨_, rfl⟩
      · have hsound : Sound { hub with threads := Function.update hub.threads t .idle } :=
          ⟨h.tailable, h.known⟩
        obtain ⟨r, hr⟩ := hsound.fetch σ (ha i maxCount ht)
        exact ⟨_, by rw [hr, Option.map_some]⟩
    · exact ⟨_, rfl⟩

/-- **Step.** All subscriptions go on, and none hands out anything twice. -/
theorem Sound.step (h : hub.Sound) (ha : hub.Allowed event) : ∃ hub', hub.step event = some hub' ∧
    hub'.Sound ∧ ∀ L₀ cursor₀ i, Tail.Inv L₀ cursor₀ (hub.tailOf i) →
      Tail.Inv L₀ cursor₀ (hub'.tailOf i) := by
  obtain ⟨hub', hstep⟩ := h.step_isSome ha
  refine ⟨hub', hstep, ?_⟩
  obtain ⟨env, c, rfl, rfl⟩ | ⟨j, rfl, rfl⟩ | ⟨t, -, ⟨_, -, rfl⟩ | ⟨j, σ, m, sub, entries, hrun, hcut, rfl⟩⟩ :=
    step_cases hstep
  · obtain ⟨htail, new, hi⟩ : PyGraphStore.TailsOn hub.store.oplog (hub.store.exec env c).2.oplog :=
      PyGraphStore.tailsOn_exec h.tailable ha.1 ha.2
    exact ⟨⟨htail, fun j c hc => hi.mem_mono (h.known j c hc)⟩, fun L₀ cursor₀ i hI => hI.grow htail hi⟩
  · have hcursor : ∀ i, (Function.update hub.subs j { hub.subs j with closed := true } i).cursor =
        (hub.subs i).cursor := fun i => by
      by_cases hij : i = j
      · subst hij
        rw [Function.update_self]
      · rw [Function.update_of_ne hij]
    refine ⟨⟨h.tailable, fun i => (hcursor i).symm ▸ h.known i⟩, fun L₀ cursor₀ i hI => ?_⟩
    rw [tailOf, hcursor]
    exact hI
  · exact ⟨⟨h.tailable, h.known⟩, fun _ _ _ hI => hI⟩
  · obtain ⟨hnone, -⟩ | ⟨es, cursor, hsome, -, hnd, hes, hknown, hcov⟩ :=
      @tryFetch_spec _ _ (hub.subs j) σ m h.tailable (h.known j) (hcut ha)
    · rw [hnone] at hrun
      cases hrun
    rw [hsome] at hrun
    cases hrun
    refine ⟨⟨h.tailable, fun i => ?_⟩, fun L₀ cursor₀ i hI => ?_⟩
    · by_cases hij : i = j
      · subst hij
        simpa using hknown
      · simpa [Function.update_of_ne hij] using h.known i
    · by_cases hij : i = j
      · subst hij
        have := hI.deliver hnd hes hknown hcov
        simpa [tailOf, TailSubscription.new] using this
      · simpa [tailOf, Function.update_of_ne hij] using hI

/-- **Run.** -/
theorem Sound.run (h : hub.Sound) (ha : hub.AllowedRun events) : ∃ hub', hub.run events = some hub' ∧
    hub'.Sound ∧ ∀ L₀ cursor₀ i, Tail.Inv L₀ cursor₀ (hub.tailOf i) →
      Tail.Inv L₀ cursor₀ (hub'.tailOf i) :=
  Runs.exists_run_of_inv (R := fun hub₁ : TailHub T I => hub₁.Sound ∧ ∀ L₀ cursor₀ i,
      Tail.Inv L₀ cursor₀ (hub.tailOf i) → Tail.Inv L₀ cursor₀ (hub₁.tailOf i))
    (fun hub₁ event h₁ ha₁ => by
      obtain ⟨hub₂, hstep, h₂, hI⟩ := h₁.1.step ha₁
      exact ⟨hub₂, hstep, h₂, fun L₀ cursor₀ i hi => hI L₀ cursor₀ i (h₁.2 L₀ cursor₀ i hi)⟩)
    ⟨h, fun _ _ _ hI => hI⟩ ha

end TailHub

namespace Sample

/-- A new store with a subscription that starts from the beginning. -/
def tailed : TailHub Bool Unit where
  store := freshStore "ann" ⟨∅, ∅⟩
  bell := 0
  subs _ := .new []
  threads _ := .idle
  delivered _ := []

end Sample

namespace TailHub

open Sample

/-- The merge of an entry that is in order, before one that is not, leaves the first in the log and
the thread asleep. -/
theorem failed_merge_wakes_nobody :
    let a := Entry.new (.removeNode "x") [(PyGraphStore.genesis env "ann" ⟨∅, ∅⟩).hash] [] ⟨"bob", 2, 0⟩ "bob"
    let bad : Entry := { a with hash := 0 }
    (tailed.run [.nextBatch true () .keyOrder 0 10, .nextBatch false () .keyOrder 5000 10,
      .call env (.merge [a, bad])]).map (fun hub => (hub.threads false, hub.bell, hub.store.oplog.len,
        (hub.delivered ()).length)) = some (.asleep () 0 10, 0, 2, 1) := by
  decide +kernel

end TailHub

end SilkGraph
