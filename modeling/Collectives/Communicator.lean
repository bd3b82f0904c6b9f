import Collectives.Config
import Collectives.Operation

/-!
# Communicators

A communicator is where one rank builds its groups and its operations. It counts the
groups it has built on each list of ranks, which feeds their identifiers: members that
build the same lists in the same order agree on all of them. Failed calls count for
nothing.
-/

namespace Collectives

/-- Where one rank builds its groups and operations. -/
structure Communicator where
  context : Context
  config : Config
  /-- How many groups were built on each list of ranks. -/
  generations : Table (List Rank) Nat := .empty

namespace Communicator

/-- The rank whose communicator this is. -/
def rank (c : Communicator) : Rank := c.context.rank

/-- The number of groups that were built on a list of distinct ranks. -/
def generation (c : Communicator) (ranks : List Rank) : Nat :=
  (c.generations.get? ranks).getD 0

/-- Builds the next group on a list of ranks. -/
def group (c : Communicator) (list : List Rank) : Except Error (Group × Communicator) := do
  let ranks := Group.distinct list
  let generation := c.generation ranks
  let group ← Group.create c.context list generation
  return (group, { c with generations := c.generations.insert ranks (generation + 1) })

/-- Refuses groups whose own member is another rank. -/
def checkMember (c : Communicator) (group : Group) : Except Error Unit :=
  if group.rank = c.rank then .ok () else .error (.notAMember c.rank group.ranks)

/-- Refuses operators that the element type does not support. -/
def checkOperator (params : Params) (d : DataType) : Except Error Unit :=
  match params with
  | .allreduce op =>
    if op.supports d then .ok () else .error (.incompatibleReduceOp op d)
  | _ => .ok ()

/-- Builds the operation number `sequence` on a group. Membership is checked first, then
that there is such an algorithm, then the operator. -/
def build (c : Communicator) (registry : Registry) (group : Group) (sequence : Nat)
    (request : Request) : Except Error Operation := do
  c.checkMember group
  let kind := request.params.kind
  let algorithm := request.algorithm.getD (c.config.default kind)
  let implementation ← registry.resolve ⟨kind, request.dtype, algorithm⟩
  checkOperator request.params request.dtype
  Operation.create group sequence request algorithm implementation

/-- The exchange of a barrier, number `sequence` on a group. -/
def barrier (c : Communicator) (group : Group) (sequence : Nat) : Except Error Exchange := do
  c.checkMember group
  return ⟨group, group.tag sequence, "barrier"⟩

/-- The communicator as it is shown for inspection. -/
def describe (c : Communicator) : String :=
  Text.record "Communicator"
    [("rank", toString c.context.rank),
     ("size", toString c.context.size),
     ("config", c.config.describe)]

end Communicator

end Collectives
