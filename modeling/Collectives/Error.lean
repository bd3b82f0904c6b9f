import Collectives.ReduceOp
import Collectives.Kind
import Collectives.Text

/-!
# Errors

Every way in which a call or a collective can fail, as a cause with the facts that
belong to it. `message` is the one place where the wording is; `category` sorts the
causes into mistakes of configuration, of use, of arguments, and failures of the
transport.
-/

namespace Collectives

/-- A process, by its number in the world. -/
abbrev Rank := UInt32

/-- The sort of mistake behind an error. -/
inductive Category where
  | configuration
  | usage
  | validation
  | transport
  deriving DecidableEq, Repr

/-- The cause of a failure. -/
inductive Error where
  | unknownAlgorithm (kind : Kind) (dtype : DataType) (algorithm : AlgorithmName)
  | unknownAlgorithmName (text : String)
  | unknownDataType (text : String)
  | unknownReduceOp (text : String)
  | incompatibleReduceOp (op : ReduceOp) (dtype : DataType)
  | registryInitialized
  | paramsMismatch (algorithm : String) (kind : Kind)
  | alreadyStarted (operation : Kind)
  | alreadyCompleted (operation : Kind)
  | notStarted (operation : Kind)
  | missingInput (operation : Kind)
  | bufferSizeMismatch (expected actual : Nat)
  | dtypeMismatch (expected actual : DataType)
  | countOverflow (count : Nat) (dtype : DataType)
  | noRuntime
  | emptyGroup
  | notAMember (rank : Rank) (members : List Rank)
  | invalidRank (rank : Rank) (size : UInt32)
  | invalidRoot (root groupSize : Nat)
  | invalidPeer (index groupSize : Nat)
  | emptyContext
  | peerDisconnected (rank : Rank)
  | collectiveFailed (operation : String) (rank : Rank) (reason : String)
  | unexpectedMessageSize (rank : Rank) (expected actual : Nat)
  | transport (message : String) (source : Option String)
  | lockPoisoned (what : String)
  deriving DecidableEq, Repr

namespace Error

/-- The sort of mistake behind an error. -/
def category : Error → Category
  | unknownAlgorithm .. | unknownAlgorithmName _ | unknownDataType _ | unknownReduceOp _
  | incompatibleReduceOp .. | registryInitialized | paramsMismatch .. => .configuration
  | alreadyStarted _ | alreadyCompleted _ | notStarted _ | missingInput _
  | bufferSizeMismatch .. | dtypeMismatch .. | countOverflow .. | noRuntime => .usage
  | emptyGroup | notAMember .. | invalidRank .. | invalidRoot .. | invalidPeer ..
  | emptyContext => .validation
  | peerDisconnected _ | collectiveFailed .. | unexpectedMessageSize .. | transport ..
  | lockPoisoned _ => .transport

/-- What the error says to its reader. -/
def message : Error → String
  | unknownAlgorithm kind dtype algorithm =>
    "no " ++ kind.name ++ " algorithm `" ++ algorithm.name ++ "` registered for dtype "
      ++ dtype.name
  | unknownAlgorithmName text => "unknown algorithm name `" ++ text ++ "`"
  | unknownDataType text => "unknown data type `" ++ text ++ "`"
  | unknownReduceOp text => "unknown reduction operator `" ++ text ++ "`"
  | incompatibleReduceOp op dtype =>
    "reduction operator " ++ op.name ++ " is not defined for dtype " ++ dtype.name
  | registryInitialized => "algorithm registry already initialized"
  | paramsMismatch algorithm kind =>
    algorithm ++ " cannot run " ++ kind.name ++ " parameters"
  | alreadyStarted operation => operation.name ++ " already started"
  | alreadyCompleted operation =>
    operation.name ++ " already completed; create a new operation per call"
  | notStarted operation => operation.name ++ " has not been started"
  | missingInput operation => operation.name ++ " requires an input buffer on this rank"
  | bufferSizeMismatch expected actual =>
    "buffer size mismatch: expected " ++ toString expected ++ " elements, got "
      ++ toString actual
  | dtypeMismatch expected actual =>
    "element type mismatch: operation uses " ++ expected.name ++ ", buffer is " ++ actual.name
  | countOverflow count dtype =>
    toString count ++ " elements of " ++ dtype.name ++ " do not fit in memory"
  | noRuntime => "operation must be started from within a tokio runtime"
  | emptyGroup => "group must contain at least one rank"
  | notAMember rank members =>
    "rank " ++ toString rank ++ " is not a member of group "
      ++ Text.sequence (members.map toString)
  | invalidRank rank size =>
    "invalid rank " ++ toString rank ++ ": process count is " ++ toString size
  | invalidRoot root groupSize =>
    "invalid root " ++ toString root ++ ": group size is " ++ toString groupSize
  | invalidPeer index groupSize =>
    "invalid peer index " ++ toString index ++ ": group size is " ++ toString groupSize
  | emptyContext => "process context needs at least one rank"
  | peerDisconnected rank => "peer " ++ toString rank ++ " disconnected unexpectedly"
  | collectiveFailed operation rank reason =>
    operation ++ " failed at rank " ++ toString rank ++ ": " ++ reason
  | unexpectedMessageSize rank expected actual =>
    "received " ++ toString actual ++ " bytes from rank " ++ toString rank ++ ", expected "
      ++ toString expected
  | transport message _ => "transport error: " ++ message
  | lockPoisoned what => "internal lock poisoned: " ++ what

/-- The underlying error, where a failure of the transport has one. -/
def source : Error → Option String
  | transport _ source => source
  | _ => none

end Error

/-- Reads an element type, or says that the text names none. -/
def DataType.parse (text : String) : Except Error DataType :=
  match DataType.ofName? text with
  | some d => .ok d
  | none => .error (.unknownDataType text)

/-- Reads a reduction operator, or says that the text names none. -/
def ReduceOp.parse (text : String) : Except Error ReduceOp :=
  match ReduceOp.ofName? text with
  | some op => .ok op
  | none => .error (.unknownReduceOp text)

/-- Reads the name of an algorithm, or says that the text names none. -/
def AlgorithmName.parse (text : String) : Except Error AlgorithmName :=
  match AlgorithmName.ofName? text with
  | some a => .ok a
  | none => .error (.unknownAlgorithmName text)

/-- A computation of two parts succeeds only if both do. -/
theorem exists_of_bind_eq_ok {ε α β : Type} {x : Except ε α} {f : α → Except ε β} {b : β}
    (h : x >>= f = .ok b) : ∃ a, x = .ok a ∧ f a = .ok b := by
  cases x with
  | error e => cases h
  | ok a => exact ⟨a, rfl, h⟩

end Collectives
