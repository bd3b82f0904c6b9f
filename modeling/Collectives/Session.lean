import Collectives.Communicator

/-!
# Sessions

The communicators of some ranks of one world, with the groups, operations and barriers
built on them, each under a name. A call that fails leaves the session as it was. A
call may also name something that is not there.

Groups hand out tags one after the other: each operation and each barrier on a group
draws the next one, and only when it succeeds. An operation that is replaced or closed
is given up if it is still under way. The endpoint of a rank stays open as long as its
communicator, one of its operations or one of its running barriers is there.
-/

namespace Collectives

/-- What a call can name without its being there. -/
inductive Missing where
  | communicator
  | group
  | operation
  | barrier
  deriving DecidableEq, Repr

/-- Why a call did not go through. -/
inductive Refusal where
  | missing (what : Missing)
  | failed (error : Error)
  deriving DecidableEq, Repr

/-- A group and the number of tags it has handed out. -/
structure SharedGroup where
  group : Group
  drawn : Nat := 0

/-- A group of a session, by its position among all that were ever built. -/
abbrev GroupId := Nat

/-- What waiting for an operation comes to. -/
inductive Waited (d : DataType) where
  | pending
  | delivered (result : Except Error (List d.Elem))

/-- The communicators of some ranks and what was built on them. -/
structure Session (σ : Type) where
  executor : Executor σ
  registry : Registry
  communicators : Table Rank Communicator := .empty
  /-- The groups that were built. -/
  pool : List SharedGroup := []
  /-- The names of groups; two names may be of one group, which then counts for both. -/
  groups : Table String GroupId := .empty
  operations : Table String Operation := .empty
  /-- Barriers that were entered, or why they could not be. -/
  barriers : Table String (Except Error TaskId) := .empty
  /-- The ranks whose communicator is gone while they still have operations. -/
  departed : List Rank := []

namespace Session

/-- What a table holds under a name, or the complaint that it is missing. -/
def find {κ ν : Type} [DecidableEq κ] (table : Table κ ν) (key : κ) (what : Missing) :
    Except Refusal ν :=
  match table.get? key with
  | some value => .ok value
  | none => .error (.missing what)

/-- Turns the error of a call into a refusal. -/
def orRefuse {α : Type} (result : Except Error α) : Except Refusal α :=
  result.mapError .failed

/-- The communicators of ranks `0`, … , `world - 1`. -/
def worldOf (world : UInt32) (config : Config) : Except Error (List Communicator) :=
  (List.range world.toNat).mapM fun r => do
    let context ← Context.create (UInt32.ofNat r) world
    return { context, config }

variable {σ : Type}

/-- A session in which nothing was built yet. -/
def ofCommunicators (network : σ) (registry : Registry) (communicators : List Communicator) :
    Session σ where
  executor := { network }
  registry
  communicators := .ofList (communicators.map fun c => (c.rank, c))

/-- The session on a fresh in-process mesh. There has to be at least one rank. -/
def bootstrap (world : UInt32) (config : Config) (registry : Registry) :
    Except Error (Session Mesh) := do
  if world = 0 then throw .emptyContext
  return ofCommunicators (Mesh.ofSize world.toNat) registry (← worldOf world config)

/-- The group under a name. -/
def findGroup (s : Session σ) (name : String) : Except Refusal (GroupId × SharedGroup) := do
  let id ← find s.groups name .group
  match s.pool[id]? with
  | some shared => return (id, shared)
  | none => throw (.missing .group)

/-- Builds a group at a rank and keeps it under a name; without a list, of all ranks. -/
def group (s : Session σ) (rank : Rank) (name : String) (list : Option (List Rank)) :
    Except Refusal (Session σ) := do
  let c ← find s.communicators rank .communicator
  let (group, c) ← orRefuse (c.group (list.getD c.context.allRanks))
  return { s with
    communicators := s.communicators.insert rank c
    pool := s.pool ++ [{ group }]
    groups := s.groups.insert name s.pool.length }

/-- Gives a group another name. -/
def share (s : Session σ) (name other : String) : Except Refusal (Session σ) := do
  let (id, _) ← s.findGroup name
  return { s with groups := s.groups.insert other id }

/-- Counts a tag as handed out. -/
def draw (s : Session σ) (id : GroupId) : Session σ :=
  { s with pool := s.pool.modify id fun shared => { shared with drawn := shared.drawn + 1 } }

/-- Whether a rank still has an operation. -/
def hasOperation (s : Session σ) (rank : Rank) : Bool :=
  s.operations.entries.any fun e => e.2.rank = rank

variable [Transport σ]

/-- Releases the endpoints of departed ranks that have no operation left. -/
def releaseDeparted (s : Session σ) : Session σ :=
  let (held, free) := s.departed.partition s.hasOperation
  { s with
    executor := free.foldl Executor.release s.executor
    departed := held }

/-- Lets go of the operation under a name, if there is one. If it is under way, it is
given up. -/
def drop (s : Session σ) (name : String) : Session σ :=
  match s.operations.get? name with
  | none => s
  | some op =>
    let executor := match op.phase with
      | .started task => s.executor.abort task
      | _ => s.executor
    { s with executor, operations := s.operations.erase name }

/-- Lets all tasks run until none can go on. -/
def settle (s : Session σ) : Session σ := { s with executor := s.executor.settle }

/-- Builds an operation at a rank, on the group under one name, and keeps it under
another, letting go of an earlier one. -/
def build (s : Session σ) (rank : Rank) (groupName name : String)
    (request : Except Error Request) : Except Refusal (Session σ) := do
  let c ← find s.communicators rank .communicator
  let (id, shared) ← s.findGroup groupName
  let request ← orRefuse request
  let op ← orRefuse (c.build s.registry shared.group shared.drawn request)
  let s := (s.draw id).drop name
  return { s with operations := s.operations.insert name op }.releaseDeparted

/-- Refuses calls that need tasks to run where none can. -/
def checkRuntime (inRuntime : Bool) : Except Error Unit :=
  if inRuntime then .ok () else .error .noRuntime

/-- Starts an operation with a member's input. That nothing can be run here is said last,
when all else is in order. -/
def start (s : Session σ) (name : String) (d : DataType) (input : Option (List d.Elem))
    (inRuntime : Bool) : Except Refusal (Session σ) := do
  let op ← find s.operations name .operation
  let job ← orRefuse (op.stage d input)
  orRefuse (checkRuntime inRuntime)
  let (task, executor) :=
    s.executor.spawn op.rank op.exchange.tag (op.implementation.run job)
  return { s with
    executor
    operations := s.operations.insert name { op with phase := .started task } }

/-- Waits for an operation for as long as tasks can go on. -/
def wait (s : Session σ) (name : String) (d : DataType) :
    Except Refusal (Waited d × Session σ) := do
  let op ← find s.operations name .operation
  let task ← orRefuse (op.awaited d)
  match (s.executor.status? task).bind (Operation.result? d task) with
  | none => return (.pending, s)
  | some result =>
    return (.delivered result,
      { s with operations := s.operations.insert name { op with phase := .completed } })

/-- Whether an operation has nothing left to do. -/
def isFinished (s : Session σ) (op : Operation) : Bool :=
  match op.phase with
  | .idle => false
  | .started task => (s.executor.status? task).any Status.isOver
  | .completed => true

/-- Closes an operation and lets all tasks run. -/
def close (s : Session σ) (name : String) : Except Refusal (Session σ) := do
  let _ ← find s.operations name .operation
  return (s.drop name).releaseDeparted.settle

/-- Lets go of the communicator of a rank. -/
def dropCommunicator (s : Session σ) (rank : Rank) : Except Refusal (Session σ) := do
  let _ ← find s.communicators rank .communicator
  return { s with
    communicators := s.communicators.erase rank
    departed := rank :: s.departed }.releaseDeparted

/-- Enters a barrier at a rank and runs it as far as it goes by itself. A barrier that
cannot be entered is kept with its error. -/
def barrier (s : Session σ) (rank : Rank) (groupName name : String) :
    Except Refusal (Session σ) := do
  let c ← find s.communicators rank .communicator
  let (id, shared) ← s.findGroup groupName
  match c.barrier shared.group shared.drawn with
  | .error e => return { s with barriers := s.barriers.insert name (.error e) }
  | .ok exchange =>
    let s := s.draw id
    let (task, executor) := s.executor.launch exchange.group.rank exchange.tag do
      Barrier.enter exchange
      return []
    return { s with executor, barriers := s.barriers.insert name (.ok task) }

/-- How passing a barrier ended, `none` while it goes on. -/
def barrierOutcome (s : Session σ) (name : String) :
    Except Refusal (Option (Except Error Unit)) := do
  match ← find s.barriers name .barrier with
  | .error e => return some (.error e)
  | .ok task =>
    return (s.executor.status? task).bind fun
      | .finished outcome => some (outcome.map fun _ => ())
      | _ => none

/-- What the tasks of a rank reported, earliest first. -/
def observations (s : Session σ) (rank : Rank) : List Observation :=
  s.executor.observations.filterMap fun (r, o) => if r = rank then some o else none

end Session

end Collectives
