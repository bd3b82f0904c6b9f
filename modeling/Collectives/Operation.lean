import Collectives.Executor
import Collectives.Registry

/-!
# Operations

An operation is one collective call of one member: built, then started once with that
member's input, then waited for until its result is delivered, also when the result is
an error. `stage` is every check that starting makes before anything runs, and
`collect` every check that waiting makes.
-/

namespace Collectives

/-- The stage of an operation's life. -/
inductive Phase where
  | idle
  | started (task : TaskId)
  /-- The outcome was delivered. -/
  | completed
  deriving DecidableEq, Repr

/-- The name of the phase as it is shown. -/
def Phase.label : Phase → String
  | idle => "Idle"
  | started _ => "Started"
  | completed => "Completed"

/-- One collective call of one member. -/
structure Operation where
  params : Params
  dtype : DataType
  /-- The declared number of elements; for an allgatherv, of this member's part. -/
  count : Nat
  algorithm : AlgorithmName
  implementation : Algorithm
  exchange : Exchange
  phase : Phase := .idle

/-- Why a task that is over has no outcome. -/
inductive JoinError where
  /-- Its program died. -/
  | panicked (task : TaskId)
  /-- It was given up. -/
  | cancelled (task : TaskId)
  deriving DecidableEq, Repr

/-- What is said of such a task, which goes by its position here. What its program had to
say when it died is not repeated. -/
def JoinError.message : JoinError → String
  | panicked task => "task " ++ toString task ++ " panicked"
  | cancelled task => "task " ++ toString task ++ " was cancelled"

/-- The error of an operation whose task has no outcome. -/
def Error.ofJoin (cause : JoinError) : Error :=
  .transport "collective task failed" (some cause.message)

/-- What a call asks for. -/
structure Request where
  params : Params
  dtype : DataType
  count : Nat
  /-- The algorithm, where the call names one. -/
  algorithm : Option AlgorithmName

namespace Operation

/-- The kind of the collective. -/
def kind (op : Operation) : Kind := op.params.kind

/-- The rank of the member whose call this is. -/
def rank (op : Operation) : Rank := op.exchange.group.rank

/-- Refuses a root that is no member. -/
def checkRoot (group : Group) : Params → Except Error Unit
  | .broadcast root =>
    if root < group.size then .ok () else .error (.invalidRoot root group.size)
  | _ => .ok ()

/-- Makes the operation that is the next one, number `sequence`, on a group. Checks the
root, the size of the buffer and what the algorithm itself demands, in this order. -/
def create (group : Group) (sequence : Nat) (request : Request) (algorithm : AlgorithmName)
    (implementation : Algorithm) : Except Error Operation := do
  checkRoot group request.params
  let _ ← payloadBytes request.count request.dtype
  implementation.validate request.params
  return {
    params := request.params
    dtype := request.dtype
    count := request.count
    algorithm
    implementation
    exchange := ⟨group, group.tag sequence, request.params.kind.name⟩ }

/-- Whether the member's input plays no part: in a broadcast of another member. -/
def ignoresInput (op : Operation) : Bool :=
  match op.params with
  | .broadcast root => root ≠ op.exchange.localRank
  | _ => false

/-- Refuses buffers of another element type. -/
def checkType (op : Operation) (d : DataType) : Except Error Unit :=
  if d = op.dtype then .ok () else .error (.dtypeMismatch op.dtype d)

/-- The wire form of the input. A member whose input plays no part stages nothing. -/
def stageInput (op : Operation) (d : DataType) (input : Option (List d.Elem)) :
    Except Error Bytes :=
  if op.ignoresInput then .ok []
  else match input with
    | none => .error (.missingInput op.kind)
    | some xs =>
      if xs.length = op.count then .ok (d.encode xs)
      else .error (.bufferSizeMismatch op.count xs.length)

/-- Refuses operations that were started before. -/
def checkIdle (op : Operation) : Except Error Unit :=
  match op.phase with
  | .idle => .ok ()
  | .started _ => .error (.alreadyStarted op.kind)
  | .completed => .error (.alreadyCompleted op.kind)

/-- The job that starting with this input sets going. -/
def stage (op : Operation) (d : DataType) (input : Option (List d.Elem)) :
    Except Error Job := do
  op.checkIdle
  op.checkType d
  let input ← op.stageInput d input
  return ⟨op.exchange, op.params, op.dtype, op.count, input⟩

/-- The task to wait for, where a buffer of this type can be waited for. -/
def awaited (op : Operation) (d : DataType) : Except Error TaskId :=
  match op.phase with
  | .idle => .error (.notStarted op.kind)
  | .completed => .error (.alreadyCompleted op.kind)
  | .started task => (op.checkType d).map fun _ => task

/-- The result that a task which is over has left, `none` while it is under way. -/
def result? (d : DataType) (task : TaskId) : Status → Option (Except Error (List d.Elem))
  | .finished (.ok data) => some (d.decode data)
  | .finished (.error e) => some (.error e)
  | .crashed => some (.error (.ofJoin (.panicked task)))
  | .aborted => some (.error (.ofJoin (.cancelled task)))
  | .running _ | .aborting => none

/-- The operation as it is shown for inspection. -/
def describe (op : Operation) : String :=
  Text.record "Operation"
    [("params", op.params.describe),
     ("dtype", op.dtype.label),
     ("count", toString op.count),
     ("algorithm", op.algorithm.label),
     ("state", op.phase.label),
     ("exchange", op.exchange.describe)]

/-- What a call has passed when its operation was made. -/
theorem of_create {group : Group} {sequence : Nat} {request : Request} {name : AlgorithmName}
    {algorithm : Algorithm} {op : Operation}
    (h : create group sequence request name algorithm = .ok op) :
    checkRoot group request.params = .ok () ∧
      (payloadBytes request.count request.dtype).isOk ∧
      algorithm.validate request.params = .ok () := by
  obtain ⟨_, hroot, h⟩ := exists_of_bind_eq_ok h
  obtain ⟨total, hfit, h⟩ := exists_of_bind_eq_ok h
  obtain ⟨_, hvalid, -⟩ := exists_of_bind_eq_ok h
  refine ⟨hroot, ?_, hvalid⟩
  rw [hfit]
  rfl

/-- What is set going by starting is what was built, with what of the input is staged. -/
theorem job_of_stage {op : Operation} {d : DataType} {input : Option (List d.Elem)} {job : Job}
    (h : op.stage d input = .ok job) :
    job = ⟨op.exchange, op.params, op.dtype, op.count, job.input⟩ ∧
      op.stageInput d input = .ok job.input := by
  obtain ⟨_, -, h⟩ := exists_of_bind_eq_ok h
  obtain ⟨_, -, h⟩ := exists_of_bind_eq_ok h
  obtain ⟨bytes, hinput, h⟩ := exists_of_bind_eq_ok h
  cases h
  exact ⟨rfl, hinput⟩

/-- A member whose input counts starts with a buffer of the declared length. -/
theorem of_stage {op : Operation} {d : DataType} {input : Option (List d.Elem)} {job : Job}
    (h : op.stage d input = .ok job) (hown : op.ignoresInput = false) :
    ∃ xs, input = some xs ∧ xs.length = op.count ∧
      job = ⟨op.exchange, op.params, op.dtype, op.count, d.encode xs⟩ := by
  obtain ⟨hjob, hinput⟩ := job_of_stage h
  unfold stageInput at hinput
  rw [hown, if_neg Bool.false_ne_true] at hinput
  cases input with
  | none => cases hinput
  | some xs =>
    dsimp only at hinput
    split at hinput
    · next hlength =>
      rw [Except.ok.injEq] at hinput
      rw [← hinput] at hjob
      exact ⟨xs, rfl, hlength, hjob⟩
    · cases hinput

end Operation

end Collectives
