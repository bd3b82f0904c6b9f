import Collectives.Group
import Collectives.Index
import Collectives.Text

/-!
# Exchanges and jobs

An exchange is the view that one operation has of its group: peers are addressed by
their local index, every message travels under the tag of the operation, and a failed
communication is blamed on the global rank of the peer. A job is an exchange together
with what an algorithm needs to know of the call it carries out.
-/

namespace Collectives

/-- The messaging view that one operation has of its group. -/
structure Exchange where
  group : Group
  tag : Tag
  /-- The name of the collective, for errors. -/
  operation : String

namespace Exchange

/-- The number of members. -/
def size (ex : Exchange) : Nat := ex.group.size

/-- The local index of this member. -/
def localRank (ex : Exchange) : Nat := ex.group.localRank

/-- The global rank of the member at a local index. -/
def peer (ex : Exchange) (index : Nat) : Except Error Rank :=
  match ex.group.globalRank? index with
  | some rank => .ok rank
  | none => .error (.invalidPeer index ex.size)

/-- A failure of the transport, blamed on the peer it happened with. -/
def failed (ex : Exchange) (rank : Rank) (cause : Error) : Error :=
  .collectiveFailed ex.operation rank cause.message

/-- The exchange as it is shown for inspection. -/
def describe (ex : Exchange) : String :=
  Text.record "Exchange"
    [("operation", Text.quoted ex.operation),
     ("group", Text.sequence (ex.group.ranks.map toString)),
     ("local_rank", toString ex.localRank),
     ("tag", "0x" ++ Text.Hex.word 16 ex.tag.toNat)]

end Exchange

/-- What a collective is asked to do, by kind. -/
inductive Params where
  /-- The root is a local index. -/
  | broadcast (root : Nat)
  | allreduce (op : ReduceOp)
  | allgatherv
  deriving DecidableEq, Repr

namespace Params

/-- The kind of collective that the parameters belong to. -/
def kind : Params → Kind
  | broadcast _ => .broadcast
  | allreduce _ => .allreduce
  | allgatherv => .allgatherv

/-- The parameters as they are shown for inspection. -/
def describe : Params → String
  | broadcast root => Text.record "Broadcast" [("root", toString root)]
  | allreduce op => Text.record "Allreduce" [("op", op.label)]
  | allgatherv => "Allgatherv"

end Params

/-- One call, as the algorithm that carries it out sees it. -/
structure Job where
  exchange : Exchange
  params : Params
  dtype : DataType
  /-- The declared number of elements; for an allgatherv, of this member's part. -/
  count : Nat
  /-- The wire form of this member's input, empty where the input is ignored. -/
  input : Bytes

/-- The job as it is shown for inspection. -/
def Job.describe (job : Job) : String :=
  Text.record "CollectiveJob"
    [("exchange", job.exchange.describe),
     ("params", job.params.describe),
     ("dtype", job.dtype.label),
     ("count", toString job.count),
     ("input", Text.sequence (job.input.map toString))]

/-- The length in bytes of `count` elements, if it is a word. -/
def payloadBytes (count : Nat) (d : DataType) : Except Error Nat :=
  match Index.mul? count d.width with
  | some length => .ok length
  | none => .error (.countOverflow count d)

end Collectives
