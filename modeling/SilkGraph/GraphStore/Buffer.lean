import SilkGraph.Data.JsonText
import SilkGraph.GraphStore.Doors
import SilkGraph.GraphStore.Resolved
import SilkGraph.Lib.TextLines

/-!
# The buffer and its file

`buffer.rs` and `PyOperationBuffer` in `python/mod.rs`: operations are appended to a file, one
JSON object a line, read back from it, and drained into a store; when the store refuses one, the
file is rewritten with what is left. What the operating system is asked to do with the file
succeeds.

The file holds the lines of the operations that were appended and not drained (`Holds`), and it
reads as these operations exactly if they survive the way into JSON and back (`readAll_iff`).
`lossless_iff` says in which runs of appends and drains nothing is lost, changed or applied twice.
-/

namespace SilkGraph

/-- The file of a buffer, by its characters; there is none before the first operation. -/
structure BufferFile where
  content : Option (List Char)

/-! ### The file -/

namespace BufferFile

section

variable [SerdeJson]

/-- A buffer on a path where there is no file. -/
def new : BufferFile := ⟨none⟩

/-- The characters in the file. -/
def text (self : BufferFile) : List Char := self.content.getD []

/-- Append a graph operation to the buffer. -/
def append (self : BufferFile) (op : GraphOp) : BufferFile :=
  ⟨some (self.text ++ TextLines.record (SerdeJson.toString op.toJson).toList)⟩

/-- `serde_json::from_str` of an operation. -/
def parseOp (line : List Char) : Except String GraphOp := do
  GraphOp.ofJson (← SerdeJson.fromStr (String.ofList line))

/-- Read the operations in lines, before which there are `i`. -/
def readLines : ℕ → List (List Char) → Except String (List GraphOp)
  | _, [] => .ok []
  | i, line :: lines =>
    let trimmed := TextLines.trim line
    if trimmed.isEmpty then readLines (i + 1) lines
    else match parseOp trimmed with
      | .error e => .error s!"parse line {i + 1}: {e}"
      | .ok op => (readLines (i + 1) lines).map (op :: ·)

/-- Read all buffered operations in order. -/
def readAll (self : BufferFile) : Except String (List GraphOp) :=
  match self.content with
  | none => .ok []
  | some text => readLines 0 (TextLines.lines text)

/-- Number of buffered operations: the lines that are not empty. -/
def len (self : BufferFile) : ℕ :=
  ((TextLines.lines self.text).filter fun line => !(TextLines.trim line).isEmpty).length

/-- Clear the buffer (truncate file). -/
def clear (self : BufferFile) : BufferFile := ⟨self.content.map fun _ => []⟩

/-- Rewrite the buffer file with only the remaining operations. -/
def rewriteRemaining (self : BufferFile) (remaining : List GraphOp) : BufferFile :=
  remaining.foldl append self.clear

/-- Drain all buffered operations into a live store. If all succeed, the buffer is cleared;
otherwise the remaining ones stay. -/
def drain [Crates] (self : BufferFile) (env : ℕ → Env) (store : PyGraphStore) :
    Except PyErr ℕ × BufferFile × PyGraphStore :=
  match self.readAll with
  | .error msg => (.error (.ioError msg), self, store)
  | .ok ops =>
    match store.drain env ⟨ops⟩ with
    | (.ok applied, _, store) => (.ok applied, self.clear, store)
    | (.error e, left, store) => (.error e, self.rewriteRemaining left.ops, store)

/-- The line of an operation. -/
def line (op : GraphOp) : List Char := (SerdeJson.toString op.toJson).toList

/-- The file holds the lines of these operations. -/
def Holds (self : BufferFile) (ops : List GraphOp) : Prop :=
  self.text = (ops.map line).flatMap TextLines.record

end

end BufferFile

/-- An operation that a method of the buffer makes, and whose object `serde_json` treats as
documented. -/
structure GraphOp.Buffered [SerdeJson] (op : GraphOp) : Prop where
  bufferable : op.isBufferable = true
  typed : op.Typed
  documented : Json.AsDocumented op.fields

namespace BufferFile

section

variable [SerdeJson] {file : BufferFile} {op : GraphOp} {ops : List GraphOp}

/-- The line of an operation stands between braces, without line breaks. -/
theorem line_eq (h : op.Buffered) : ∃ body, line op = '{' :: (body ++ ['}']) ∧ '\n' ∉ body :=
  h.documented.compact

theorem isLine_line (h : op.Buffered) : TextLines.IsLine (line op) := by
  obtain ⟨body, hline, hbody⟩ := line_eq h
  rw [hline]
  constructor
  · simp [hbody]
  · rw [← List.cons_append, List.getLast?_concat]
    decide

theorem trim_line (h : op.Buffered) : TextLines.trim (line op) = line op := by
  obtain ⟨body, hline, -⟩ := line_eq h
  rw [hline]
  exact TextLines.trim_of_ends (by decide) (by decide) body

theorem line_ne_nil (h : op.Buffered) : (line op).isEmpty = false := by
  obtain ⟨body, hline, -⟩ := line_eq h
  rw [hline]
  rfl

theorem toOption_parseOp (h : op.Buffered) : (parseOp (line op)).toOption = op.reread := by
  have hdoc := h.documented.fromStr
  rw [parseOp, line, String.ofList_toList, GraphOp.reread, GraphOp.toJson, ← hdoc]
  cases SerdeJson.fromStr (SerdeJson.toString (.object op.fields)) <;> rfl

/-- The lines of operations are read one by one. -/
theorem toOption_readLines (h : ∀ op ∈ ops, op.Buffered) (i : ℕ) :
    (readLines i (ops.map line)).toOption = ops.mapM GraphOp.reread := by
  induction ops generalizing i with
  | nil => rfl
  | cons op ops ih =>
    have hop := h op List.mem_cons_self
    have hread := ih (fun o ho => h o (List.mem_cons_of_mem op ho)) (i + 1)
    rw [List.map_cons, readLines, trim_line hop, if_neg (by rw [line_ne_nil hop]; decide),
      List.mapM_cons, ← toOption_parseOp hop, ← hread]
    cases parseOp (line op) with
    | error e => rfl
    | ok o => cases readLines (i + 1) (ops.map line) <;> rfl

theorem Holds.lines (hfile : file.Holds ops) (h : ∀ op ∈ ops, op.Buffered) :
    TextLines.lines file.text = ops.map line := by
  rw [hfile]
  exact TextLines.lines_flatMap_record
    (List.forall_mem_map.mpr fun op hop => isLine_line (h op hop))

/-- The file reads as what the parser makes of the operations whose lines it holds. -/
theorem Holds.toOption_readAll (hfile : file.Holds ops) (h : ∀ op ∈ ops, op.Buffered) :
    file.readAll.toOption = ops.mapM GraphOp.reread := by
  rw [← toOption_readLines h 0, ← hfile.lines h, readAll, text]
  cases file.content <;> rfl

/-- **What the file reads as.** It reads as the operations whose lines it holds exactly if all of
them survive. -/
theorem readAll_iff (hfile : file.Holds ops) (h : ∀ op ∈ ops, op.Buffered) :
    file.readAll = .ok ops ↔ ∀ op ∈ ops, op.Survives := by
  have hmember : ∀ op ∈ ops, ((op.reread).map id = some op ↔ op.Survives) := fun op hop => by
    rw [Option.map_id_fun, id_eq, GraphOp.reread_iff (h op hop).bufferable (h op hop).typed]
  rw [← except_toOption_eq_some, hfile.toOption_readAll h, ← mapM_map_eq_some_iff hmember,
    List.map_id_fun, Option.map_id_fun, id_eq]

theorem holds_new : new.Holds [] := rfl

theorem Holds.append (hfile : file.Holds ops) (op : GraphOp) :
    (file.append op).Holds (ops ++ [op]) := by
  rw [Holds, BufferFile.append, text, Option.getD_some, hfile, List.map_append,
    List.flatMap_append, List.map_singleton, List.flatMap_singleton, line]

theorem holds_clear (file : BufferFile) : file.clear.Holds [] := by
  rw [Holds, clear, text]
  cases file.content <;> rfl

theorem holds_rewriteRemaining (file : BufferFile) (remaining : List GraphOp) :
    (file.rewriteRemaining remaining).Holds remaining := by
  have hrun : ∀ (ops : List GraphOp) (f : BufferFile), f.Holds ops →
      (remaining.foldl BufferFile.append f).Holds (ops ++ remaining) := by
    induction remaining with
    | nil => exact fun ops f hf => by rwa [List.foldl_nil, List.append_nil]
    | cons op remaining ih =>
      intro ops f hf
      have hnext := ih (ops ++ [op]) (f.append op) (hf.append op)
      rwa [List.append_assoc, List.singleton_append] at hnext
  exact hrun [] file.clear (holds_clear file)

/-- The number of operations is known without reading them. -/
theorem len_eq (hfile : file.Holds ops) (h : ∀ op ∈ ops, op.Buffered) : file.len = ops.length := by
  have hall : ∀ l ∈ ops.map line, (!(TextLines.trim l).isEmpty) = true :=
    List.forall_mem_map.mpr fun op hop => by rw [trim_line (h op hop), line_ne_nil (h op hop)]; rfl
  rw [len, hfile.lines h, List.filter_eq_self.mpr hall, List.length_map]

end

end BufferFile

/-! ### Draining -/

namespace PyGraphStore

section

variable [Crates] {s t u : PyGraphStore} {env : ℕ → Env} {i : ℕ} {op : GraphOp}
  {ops done rest : List GraphOp}

/-- The store takes the operations one after the other, the first of them in its `i`-th
surroundings. -/
inductive Applies (env : ℕ → Env) : ℕ → PyGraphStore → List GraphOp → PyGraphStore → Prop
  | nil {i : ℕ} {s : PyGraphStore} : Applies env i s [] s
  | cons {i : ℕ} {s t u : PyGraphStore} {op : GraphOp} {ops : List GraphOp} {hex : String} :
      s.drainOp (env i) op = (.ok hex, t) → Applies env (i + 1) t ops u →
      Applies env i s (op :: ops) u

/-- Of the operations the store takes `done`, after which it is `t`, and refuses the first of
`rest`, if there is one. -/
structure Stops (env : ℕ → Env) (i : ℕ) (s : PyGraphStore) (ops done rest : List GraphOp)
    (t : PyGraphStore) : Prop where
  split : ops = done ++ rest
  applied : Applies env i s done t
  refused : ∀ op, rest.head? = some op → ∃ e, (t.drainOp (env (i + done.length)) op).1 = .error e

/-- No transaction fails under an operation that the store would take otherwise. -/
def Undisturbed (env : ℕ → Env) (s : PyGraphStore) (ops : List GraphOp) : Prop :=
  ∀ done op rest t, ops = done ++ op :: rest → Applies env 0 s done t →
    t.validateEntryPayload (t.writtenEntry (env done.length) op) = .ok () →
    t.Commits (env done.length) op

/-- Nothing disturbs a drain all of whose transactions commit. -/
theorem undisturbed_of_commits (h : ∀ i, (env i).txn 0 = .ok ()) : s.Undisturbed env ops := by
  intro done op rest t _ _ _
  rw [Commits]
  split
  · trivial
  · exact .inr (.inl (h done.length))

theorem Applies.reachable (h : Applies env i s ops t) (hs : Reachable s) : Reachable t := by
  induction h with
  | nil => exact hs
  | @cons i s t u op ops hex hop _ ih =>
    have hcall : Reachable (s.drainOp (env i) op).2 := hs.call (env i) (.drain op)
    rw [hop] at hcall
    exact ih hcall

/-- Where a drain stops is determined. -/
theorem Stops.unique {done' rest' : List GraphOp} {t' : PyGraphStore}
    (h : Stops env i s ops done rest t) (h' : Stops env i s ops done' rest' t') :
    done = done' ∧ rest = rest' ∧ t = t' := by
  obtain ⟨hsplit, happ, hrefused⟩ := h
  obtain ⟨hsplit', happ', hrefused'⟩ := h'
  induction happ generalizing ops done' with
  | nil =>
    rw [hsplit] at hsplit'
    cases happ' with
    | nil => exact ⟨rfl, hsplit', rfl⟩
    | cons hop _ =>
      obtain ⟨e, he⟩ := hrefused _ (by rw [List.nil_append] at hsplit'; rw [hsplit']; rfl)
      rw [List.length_nil, Nat.add_zero, hop] at he
      cases he
  | @cons i s t u op l hex hop _ ih =>
    rw [hsplit] at hsplit'
    cases happ' with
    | nil =>
      obtain ⟨e, he⟩ := hrefused' op (by rw [List.nil_append] at hsplit'; rw [← hsplit']; rfl)
      rw [List.length_nil, Nat.add_zero, hop] at he
      cases he
    | cons hop' happ' =>
      obtain ⟨rfl, htail⟩ := List.cons.inj hsplit'
      rw [hop] at hop'
      obtain rfl := congrArg Prod.snd hop'
      have hshift : ∀ l : List GraphOp, i + (op :: l).length = i + 1 + l.length := fun l => by
        rw [List.length_cons]
        omega
      obtain ⟨rfl, hrest⟩ := ih rfl (fun o ho => by rw [← hshift]; exact hrefused o ho) htail happ'
        fun o ho => by rw [← hshift]; exact hrefused' o ho
      exact ⟨rfl, hrest⟩

/-- **Run.** The store takes operations until it refuses one, and these are left. -/
theorem drainLoop_stops (env : ℕ → Env) (i : ℕ) (s : PyGraphStore)
    (hops : ∀ op ∈ ops, op.isBufferable = true) (total : ℕ) :
    ∃ done t, Stops env i s ops done (drainLoop env total i ops s).2.1.ops t ∧
      ((drainLoop env total i ops s).2.1.ops = [] ∧
          (drainLoop env total i ops s).1 = .ok (i + done.length) ∧
          (drainLoop env total i ops s).2.2 = t ∨
        ∃ op rest e, (drainLoop env total i ops s).2.1.ops = op :: rest ∧
          (drainLoop env total i ops s).1 = .error e ∧
          t.drainOp (env (i + done.length)) op = (.error e, (drainLoop env total i ops s).2.2)) := by
  induction ops generalizing i s with
  | nil =>
    exact ⟨[], s, ⟨rfl, .nil, fun _ h => by cases h⟩, .inl ⟨rfl, rfl, rfl⟩⟩
  | cons op ops ih =>
    rw [drainLoop, GraphOp.drainable_of_isBufferable (hops op List.mem_cons_self),
      if_neg Bool.false_ne_true]
    cases hrun : s.drainOp (env i) op with
    | mk r t =>
      cases r with
      | error e =>
        refine ⟨[], s, ⟨rfl, .nil, fun o ho => ?_⟩, .inr ⟨op, ops, e, rfl, rfl, hrun⟩⟩
        obtain rfl := Option.some.inj ho
        exact ⟨e, by rw [List.length_nil, Nat.add_zero, hrun]⟩
      | ok hex =>
        obtain ⟨done, u, hstops, hout⟩ := ih (i + 1) t
          fun o ho => hops o (List.mem_cons_of_mem op ho)
        have hshift : i + (op :: done).length = i + 1 + done.length := by
          rw [List.length_cons]
          omega
        refine ⟨op :: done, u, ⟨?_, .cons hrun hstops.applied, ?_⟩, ?_⟩
        · rw [List.cons_append, ← hstops.split]
        · rw [hshift]
          exact hstops.refused
        · rw [hshift]
          exact hout

/-- A buffered operation is refused exactly if the append refuses it. -/
theorem drainOp_of_bufferable (t : PyGraphStore) (env : Env) (hop : op.isBufferable = true) :
    (∃ e, (t.append env op).1 = .error e ∧ t.drainOp env op = (.error e, (t.append env op).2)) ∨
      ∃ hex, (t.append env op).1 = .ok hex ∧ (t.drainOp env op).1 = .ok hex := by
  rw [drainOp, GraphOp.drainable_of_isBufferable hop, if_neg Bool.false_ne_true]
  obtain ⟨e | hex, u⟩ := t.append env op
  · exact .inl ⟨e, rfl, rfl⟩
  · exact .inr ⟨hex, rfl, rfl⟩

/-- An operation that is refused leaves the graph as it was, and the log as well unless it was
the transaction that failed. -/
theorem refused_spec (ht : Reachable t) (hop : op.isBufferable = true) {env : Env} {e : PyErr}
    (h : (t.drainOp env op).1 = .error e) :
    (t.drainOp env op).2.graph = t.graph ∧ ((t.drainOp env op).2.oplog = t.oplog ↔
      (t.validateEntryPayload (t.writtenEntry env op) = .ok () → t.Commits env op)) := by
  have hcheckpoint : op.isCheckpoint = false :=
    (Bool.or_eq_false_iff.mp (GraphOp.drainable_of_isBufferable hop)).2
  obtain ⟨e', happ, hrefused⟩ | ⟨hex, -, hok⟩ := t.drainOp_of_bufferable env hop
  swap
  · rw [h] at hok
    cases hok
  rw [hrefused]
  have hno : ¬ t.Writes env op := fun hw => by
    obtain ⟨hex, hok⟩ := (append_ok_iff ht hcheckpoint).mpr hw
    rw [happ] at hok
    cases hok
  refine ⟨(append_of_error happ).1, ?_⟩
  obtain ⟨_, hinvalid, hrun⟩ | ⟨hv, msg, hmsg, hrun⟩ | ⟨_, _, _, hrun⟩ := t.append_cases env op
  · refine iff_of_true (by rw [hrun]; rfl) fun hv => ?_
    rw [hinvalid] at hv
    cases hv
  · refine iff_of_false (fun hsame => ?_) fun hcommits => hno ⟨hv, hcommits hv⟩
    -- the log took the entry before the transaction failed
    have hnew : (t.writtenEntry env op).hash ∉ t.oplog.entries := fun hmem => hno ⟨hv, by
      rw [Commits]
      split
      · trivial
      · rename_i store hbackend
        refine .inr (.inr ?_)
        rwa [oplog, hbackend] at hmem⟩
    obtain ⟨g, hlog⟩ := ht.log
    have hlogOk : ∃ b, (t.oplog.append (t.writtenEntry env op)).1 = .ok b ∧
        (b = false ↔ (t.writtenEntry env op).hash ∈ t.oplog.entries) :=
      append_log_ok ht.nonempty hlog.headsStored hcheckpoint
    obtain ⟨b, hb, -⟩ := hlogOk
    refine hnew ?_
    rw [← hsame, hrun]
    change _ ∈ (t.backend.append env.order (env.txn 0) (t.writtenEntry env op)).2.oplog.entries
    rw [Backend.append_oplog]
    exact mem_of_append_ok ht.nonempty hb
  · rw [hrun] at happ
    cases happ

/-- Whether a drain is disturbed is decided where it stops. -/
theorem Stops.undisturbed_iff (h : s.Stops env 0 ops done rest t)
    (hops : ∀ op ∈ ops, op.isBufferable = true) :
    s.Undisturbed env ops ↔ ∀ op, rest.head? = some op →
      t.validateEntryPayload (t.writtenEntry (env done.length) op) = .ok () →
      t.Commits (env done.length) op := by
  constructor
  · intro hall op hhead
    obtain ⟨tail, rfl⟩ := List.head?_eq_some_iff.mp hhead
    exact hall done op tail t h.split h.applied
  · intro hstop done' op rest' t' hsplit happ hv
    have hop : op.isBufferable = true := hops op (by rw [hsplit]; simp)
    obtain ⟨e, -, hrefused⟩ | ⟨hex, hok, -⟩ := t'.drainOp_of_bufferable (env done'.length) hop
    · have hstops : s.Stops env 0 ops done' (op :: rest') t' := ⟨hsplit, happ, fun o ho => by
        obtain rfl := Option.some.inj ho
        exact ⟨e, by rw [Nat.zero_add, hrefused]⟩⟩
      obtain ⟨rfl, rfl, rfl⟩ := h.unique hstops
      exact hstop op rfl hv
    · exact (writes_of_append hok).2

end

end PyGraphStore

/-! ### Runs of a buffer -/

/-- A call on a buffer: append an operation, or drain it into a store. -/
inductive BufferCall where
  | append (op : GraphOp)
  | drain (env : ℕ → Env) (store : PyGraphStore)

namespace BufferFile

section

variable [Crates] [SerdeJson] {file : BufferFile} {s t : PyGraphStore} {env : ℕ → Env}
  {ops done rest : List GraphOp}

/-- A drain did what it has to do: the store took `done`, a part of the operations from the first
on, and no trace is left in it of the one it refused, if it refused one; how many it took is
reported if it took all. -/
structure DrainsOnce (env : ℕ → Env) (s : PyGraphStore) (ops done rest : List GraphOp)
    (t : PyGraphStore) (result : Except PyErr ℕ) (after : PyGraphStore) : Prop
    extends PyGraphStore.Stops env 0 s ops done rest t where
  returns : ∀ n, result = .ok n ↔ rest = [] ∧ n = done.length
  oplog : after.oplog = t.oplog
  graph : after.graph = t.graph

/-- Nothing is lost, changed or applied twice in a run from a file that should hold `ops`: at
every point it reads as what was appended and not yet applied, and every drain applies the first
of these and leaves exactly the others in the file. -/
def Lossless : List GraphOp → BufferFile → List BufferCall → Prop
  | ops, file, [] => file.readAll = .ok ops
  | ops, file, .append op :: calls =>
    file.readAll = .ok ops ∧ Lossless (ops ++ [op]) (file.append op) calls
  | ops, file, .drain env s :: calls =>
    let r := file.drain env s
    file.readAll = .ok ops ∧
      ∃ done rest t, DrainsOnce env s ops done rest t r.1 r.2.2 ∧ Lossless rest r.2.1 calls

/-- The condition on a run with `ops` in the file: every operation that is appended survives, and
no transaction fails under one that is drained. -/
def Unharmed : List GraphOp → List BufferCall → Prop
  | _, [] => True
  | ops, .append op :: calls => op.Survives ∧ Unharmed (ops ++ [op]) calls
  | ops, .drain env s :: calls => s.Undisturbed env ops ∧
      ∀ done rest t, s.Stops env 0 ops done rest t → Unharmed rest calls

/-- **Step.** A drain of a file that reads as what it holds: the store takes operations until it
refuses one, and the file holds what is left. -/
theorem drain_spec (env : ℕ → Env) (hread : file.readAll = .ok ops)
    (hops : ∀ op ∈ ops, op.isBufferable = true) (hs : PyGraphStore.Reachable s) :
    ∃ done rest t, s.Stops env 0 ops done rest t ∧ (file.drain env s).2.1.Holds rest ∧
      (DrainsOnce env s ops done rest t (file.drain env s).1 (file.drain env s).2.2 ↔
        s.Undisturbed env ops) := by
  obtain ⟨done, t, hstops, hout⟩ :=
    PyGraphStore.drainLoop_stops env 0 s hops ops.length
  rw [Nat.zero_add] at hout
  refine ⟨done, _, t, hstops, ?_⟩
  rw [hstops.undisturbed_iff hops, drain, hread]
  simp only [PyGraphStore.drain]
  generalize PyGraphStore.drainLoop env ops.length 0 ops s = r at hstops hout
  obtain ⟨result, ⟨left⟩, after⟩ := r
  obtain ⟨rfl, rfl, rfl⟩ | ⟨op, rest, e, rfl, rfl, hrefused⟩ := hout
  · refine ⟨holds_clear file, iff_of_true ?_ fun op hop => by cases hop⟩
    exact ⟨hstops, fun n => by simp [eq_comm], rfl, rfl⟩
  · refine ⟨holds_rewriteRemaining file _, ?_⟩
    have hop : op.isBufferable = true := hops op (by rw [hstops.split]; simp)
    have hspec := PyGraphStore.refused_spec (hstops.applied.reachable hs) hop
      (congrArg Prod.fst hrefused)
    rw [hrefused] at hspec
    constructor
    · intro honce o ho
      obtain rfl := Option.some.inj ho
      exact hspec.2.mp honce.oplog
    · exact fun hcommits => ⟨hstops, fun n => by simp, hspec.2.mpr (hcommits op rfl), hspec.1⟩

theorem Lossless.readAll {calls : List BufferCall} (h : Lossless ops file calls) :
    file.readAll = .ok ops := by
  cases calls with
  | nil => exact h
  | cons call calls =>
    cases call with
    | append op => exact h.1
    | drain env s => exact h.1

/-- **Run.** From a file that reads as what it holds. -/
theorem Holds.lossless_run (hfile : file.Holds ops) (hops : ∀ op ∈ ops, op.Buffered)
    (hsurvive : ∀ op ∈ ops, op.Survives) {calls : List BufferCall}
    (happend : ∀ op, .append op ∈ calls → op.Buffered)
    (hdrain : ∀ env s, .drain env s ∈ calls → PyGraphStore.Reachable s) :
    Lossless ops file calls ↔ Unharmed ops calls := by
  have hread : file.readAll = .ok ops := (readAll_iff hfile hops).mpr hsurvive
  induction calls generalizing ops file with
  | nil => exact iff_of_true hread trivial
  | cons call calls ih =>
    have happend' : ∀ op, .append op ∈ calls → op.Buffered := fun op h =>
      happend op (List.mem_cons_of_mem call h)
    have hdrain' : ∀ env s, .drain env s ∈ calls → PyGraphStore.Reachable s := fun env s h =>
      hdrain env s (List.mem_cons_of_mem call h)
    cases call with
    | append op =>
      have hfile' : (file.append op).Holds (ops ++ [op]) := hfile.append op
      have hops' : ∀ o ∈ ops ++ [op], o.Buffered := by
        rw [List.forall_mem_append, List.forall_mem_singleton]
        exact ⟨hops, happend op List.mem_cons_self⟩
      rw [Lossless, Unharmed, and_iff_right hread]
      by_cases hop : op.Survives
      · have hsurvive' : ∀ o ∈ ops ++ [op], o.Survives := by
          rw [List.forall_mem_append, List.forall_mem_singleton]
          exact ⟨hsurvive, hop⟩
        rw [and_iff_right hop]
        exact ih hfile' hops' hsurvive' happend' hdrain' ((readAll_iff hfile' hops').mpr hsurvive')
      · -- the file does not read as what was appended
        refine iff_of_false (fun hlossless => hop ?_) fun h => hop h.1
        have hall := (readAll_iff hfile' hops').mp hlossless.readAll
        exact hall op (List.mem_append_right ops List.mem_cons_self)
    | drain env s =>
      obtain ⟨done, rest, t, hstops, hrest, honce⟩ := drain_spec env hread
        (fun op hop => (hops op hop).bufferable) (hdrain env s List.mem_cons_self)
      have hmem : ∀ op ∈ rest, op ∈ ops := fun op hop => by
        rw [hstops.split]
        exact List.mem_append_right done hop
      have hread' := (readAll_iff hrest fun op hop => hops op (hmem op hop)).mpr
        fun op hop => hsurvive op (hmem op hop)
      have hih := ih hrest (fun op hop => hops op (hmem op hop))
        (fun op hop => hsurvive op (hmem op hop)) happend' hdrain' hread'
      rw [Lossless, Unharmed, and_iff_right hread, ← honce]
      constructor
      · rintro ⟨done', rest', t', honce', hlossless⟩
        obtain ⟨rfl, rfl, rfl⟩ := hstops.unique honce'.toStops
        refine ⟨honce', fun done' rest' t' hstops' => ?_⟩
        obtain ⟨rfl, rfl, rfl⟩ := hstops.unique hstops'
        exact hih.mp hlossless
      · rintro ⟨honce', hunharmed⟩
        exact ⟨done, rest, t, honce', hih.mpr (hunharmed done rest t hstops)⟩

/-- **When a buffer is lossless and drains exactly once.** In every run of appends and drains, into
any stores, the file reads at every point as what was appended and not yet applied, and every
drain applies the first of it and leaves exactly the rest, if and only if every operation that is
appended survives the way into JSON and back and no transaction fails under an operation that a
store would have taken. -/
theorem lossless_iff (calls : List BufferCall) (happend : ∀ op, .append op ∈ calls → op.Buffered)
    (hdrain : ∀ env s, .drain env s ∈ calls → PyGraphStore.Reachable s) :
    Lossless [] new calls ↔ Unharmed [] calls :=
  holds_new.lossless_run (fun _ h => absurd h List.not_mem_nil)
    (fun _ h => absurd h List.not_mem_nil) happend hdrain

end

end BufferFile

/-! ### An example -/

namespace Sample

mutual

/-- The compact text of a tree, for strings in which nothing is escaped and for the double 0.5. -/
def compactText : Json → String
  | .null => "null"
  | .bool b => if b then "true" else "false"
  | .number (.posInt n) => toString n
  | .number (.negInt n) => toString n
  | .number (.float _) => "0.5"
  | .string s => "\"" ++ s ++ "\""
  | .array js => "[" ++ compactList js ++ "]"
  | .object kvs => "\x7b" ++ compactFields kvs ++ "\x7d"

def compactList : List Json → String
  | [] => ""
  | [j] => compactText j
  | j :: js => compactText j ++ "," ++ compactList js

def compactFields : List (String × Json) → String
  | [] => ""
  | [(k, j)] => "\"" ++ k ++ "\":" ++ compactText j
  | (k, j) :: kvs => "\"" ++ k ++ "\":" ++ compactText j ++ "," ++ compactFields kvs

end

/-- Bob comes. -/
def bobComes : GraphOp := .addNode "bob" "person" none "Bob" ∅

/-- A property of his with a value of several kinds. -/
def bobsMood : GraphOp := .updateProperty "bob" "mood"
  (.list [.float ⟨0x3FE0000000000000#64⟩, .map [("calm", .bool true)], .null])

/-- A property of his that is infinite. -/
def bobsDebt : GraphOp := .updateProperty "bob" "debt" (.float ⟨0x7FF0000000000000#64⟩)

/-- The tree Bob's arrival is written as. -/
def bobComesTree : Json :=
  .object [("op", .string "add_node"), ("node_id", .string "bob"), ("node_type", .string "person"),
    ("subtype", .null), ("label", .string "Bob"), ("properties", .object [])]

/-- The one his mood is written as. -/
def bobsMoodTree : Json :=
  .object [("op", .string "update_property"), ("entity_id", .string "bob"),
    ("key", .string "mood"), ("value", .array [.number (.float ⟨0x3FE0000000000000#64⟩),
      .object [("calm", .bool true)], .null])]

/-- The one his debt is written as. -/
def bobsDebtTree : Json :=
  .object [("op", .string "update_property"), ("entity_id", .string "bob"),
    ("key", .string "debt"), ("value", .null)]

/-- A parser that knows their texts. -/
scoped instance serdeJson : SerdeJson where
  toString := compactText
  fromStr s :=
    if s = compactText bobComesTree then .ok bobComesTree
    else if s = compactText bobsMoodTree then .ok bobsMoodTree
    else if s = compactText bobsDebtTree then .ok bobsDebtTree
    else .error "expected value"
  reparse := some
  maxDepth := 127
  otherFields _ := []
  otherOp _ := .error "unknown variant"

/-- Three things are left to check about an object. -/
theorem asDocumented {kvs : List (String × Json)} (hline : '\n' ∉ (compactFields kvs).toList)
    (hread : SerdeJson.fromStr (compactText (.object kvs)) = .ok (.object kvs))
    (hsame : (if (Json.object kvs).depth ≤ 127 then (Json.object kvs).reread else none) =
      some (.object kvs)) : Json.AsDocumented kvs where
  compact := by
    refine ⟨(compactFields kvs).toList, ?_, hline⟩
    change (compactText (.object kvs)).toList = _
    rw [compactText, String.toList_append, String.toList_append]
    rfl
  fromStr := by
    change (SerdeJson.fromStr (compactText (.object kvs))).toOption = if _ ≤ 127 then _ else _
    rw [hread, hsame]
    rfl

theorem buffered_bobComes : bobComes.Buffered where
  bufferable := rfl
  typed := by
    intro v hv
    obtain rfl : v = .map [] := List.mem_singleton.mp hv
    constructor <;> simp [Value.parts, Value.fieldsParts]
  documented := asDocumented (by decide +kernel) (if_pos rfl) rfl

theorem buffered_bobsMood : bobsMood.Buffered where
  bufferable := rfl
  typed := by
    intro v hv
    obtain rfl := List.mem_singleton.mp hv
    constructor <;> simp [Value.parts, Value.listParts, Value.fieldsParts]
  documented := asDocumented (by decide +kernel)
    ((if_neg (by decide +kernel)).trans (if_pos rfl)) rfl

theorem buffered_bobsDebt : bobsDebt.Buffered where
  bufferable := rfl
  typed := by
    intro v hv
    obtain rfl := List.mem_singleton.mp hv
    constructor <;> simp [Value.parts]
  documented := asDocumented (by decide +kernel)
    ((if_neg (by decide +kernel)).trans ((if_neg (by decide +kernel)).trans (if_pos rfl))) rfl

theorem survives_bobComes : bobComes.Survives := by
  refine ⟨fun v hv => ?_, by decide⟩
  obtain rfl : v = .map [] := List.mem_singleton.mp hv
  simp [Value.Survives, Value.parts, Value.fieldsParts]

theorem survives_bobsMood : bobsMood.Survives := by
  refine ⟨fun v hv x hx => ?_, by decide⟩
  obtain rfl := List.mem_singleton.mp hv
  simp only [Value.parts, Value.listParts, Value.fieldsParts, List.cons_append, List.nil_append,
    List.append_nil, List.mem_cons, List.not_mem_nil, reduceCtorEq, Value.float.injEq, false_or,
    or_false] at hx
  subst hx
  exact ⟨rfl, rfl⟩

end Sample

namespace BufferFile

open Sample in
/-- Both operations are drained, and then there is nothing left to drain. -/
theorem lossless_iff_mood : Lossless [] new [.append bobComes, .append bobsMood,
    .drain (fun _ => env) (freshStore "ann" guests),
    .drain (fun _ => env) (freshStore "cy" guests)] := by
  refine (lossless_iff _ (fun op hop => ?_) fun e s hs => ?_).mpr
    ⟨survives_bobComes, survives_bobsMood, PyGraphStore.undisturbed_of_commits fun _ => rfl,
      fun _ _ _ _ => ⟨PyGraphStore.undisturbed_of_commits fun _ => rfl, fun _ _ _ _ => trivial⟩⟩
  · simp only [List.mem_cons, BufferCall.append.injEq, reduceCtorEq, List.not_mem_nil,
      or_false] at hop
    rcases hop with rfl | rfl
    · exact buffered_bobComes
    · exact buffered_bobsMood
  · simp only [List.mem_cons, BufferCall.drain.injEq, reduceCtorEq, List.not_mem_nil, false_or,
      or_false] at hs
    rcases hs with ⟨rfl, rfl⟩ | ⟨rfl, rfl⟩
    · exact reachable_freshStore (by decide +kernel)
    · exact reachable_freshStore (by decide +kernel)

open Sample in
/-- An infinite value comes back as `null`. -/
theorem infinity_lost : ¬ ∀ calls : List BufferCall,
    (∀ op, .append op ∈ calls → op.Buffered) →
    (∀ env s, .drain env s ∈ calls → PyGraphStore.Reachable s) → Lossless [] new calls := by
  intro h
  have hlossless : Lossless [] new [.append bobsDebt] := by
    refine h _ (fun op hop => ?_) fun e s hs => ?_
    · obtain rfl : op = bobsDebt := by simpa using hop
      exact buffered_bobsDebt
    · simp at hs
  have hfile : (new.append bobsDebt).Holds [bobsDebt] := holds_new.append bobsDebt
  have hsurvives := (readAll_iff hfile
    (List.forall_mem_singleton.mpr buffered_bobsDebt)).mp hlossless.2 bobsDebt List.mem_cons_self
  have hfinite := (hsurvives.1 _ List.mem_cons_self ⟨0x7FF0000000000000#64⟩ List.mem_cons_self).1
  exact absurd hfinite (by decide)

end BufferFile

end SilkGraph
