import Collectives.Error
import Collectives.Index

/-!
# Configuration

Which algorithm carries out a collective that names none, and how many workers a
blocking client gets. Each setting is read from a named variable; a variable that is
unset, or whose text makes no sense, leaves the default in place.
-/

namespace Collectives

/-- The default algorithm of each kind, and the number of workers. -/
structure Config where
  broadcast : AlgorithmName
  allreduce : AlgorithmName
  allgatherv : AlgorithmName
  workerThreads : Option Nat
  deriving DecidableEq, Repr

namespace Config

/-- The configuration where nothing is set. -/
def standard : Config := ⟨.sendToAll, .ring, .ring, none⟩

/-- Reads a number of at most 64 bits: an optional plus sign, then decimal digits. -/
def word? (text : String) : Option Nat :=
  let cs := match text.toList with
    | '+' :: rest => rest
    | cs => cs
  if cs.isEmpty || !cs.all Char.isDigit then none
  else
    let n := cs.foldl (fun n c => 10 * n + (c.toNat - 48)) 0
    if n < Index.limit then some n else none

/-- The algorithm that a variable sets, or else the default. -/
def chosen (setting : Option String) (default : AlgorithmName) : AlgorithmName :=
  (setting.bind AlgorithmName.ofName?).getD default

/-- Reads the configuration from its variables. -/
def ofLookup (lookup : String → Option String) : Config where
  broadcast := chosen (lookup "NBCOLL_BROADCAST_ALGORITHM") standard.broadcast
  allreduce := chosen (lookup "NBCOLL_ALLREDUCE_ALGORITHM") standard.allreduce
  allgatherv := chosen (lookup "NBCOLL_ALLGATHERV_ALGORITHM") standard.allgatherv
  workerThreads := ((lookup "NBCOLL_WORKER_THREADS").bind word?).filter (0 < ·)

/-- The algorithm for collectives of a kind that name none. -/
def default (c : Config) : Kind → AlgorithmName
  | .broadcast => c.broadcast
  | .allreduce => c.allreduce
  | .allgatherv => c.allgatherv

/-- The configuration as it is shown for inspection. -/
def describe (c : Config) : String :=
  Text.record "CollConfig"
    [("broadcast_algorithm", c.broadcast.label),
     ("allreduce_algorithm", c.allreduce.label),
     ("allgatherv_algorithm", c.allgatherv.label),
     ("worker_threads", Text.optional (c.workerThreads.map toString))]

/-- With no variable set, the configuration is the standard one. -/
@[simp] theorem ofLookup_none : ofLookup (fun _ => none) = standard := rfl

end Config

end Collectives
