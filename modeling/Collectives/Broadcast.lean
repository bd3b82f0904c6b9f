import Collectives.Messaging

/-!
# Broadcast

Two programs that give every member the buffer of the root. In the flat one the root
sends to every other member. In the chain the members are ordered beginning at the
root, and each one hands on what it received, so no member sends more than once. A
broadcast of nothing sends nothing.
-/

namespace Collectives.Broadcast

/-- The root of a broadcast, or a complaint in the name of the algorithm. -/
def root (algorithm : String) : Params → Except Error Nat
  | .broadcast root => .ok root
  | other => .error (.paramsMismatch algorithm other.kind)

/-- Sends one message to each of the members listed, in order. -/
def sendEach (ex : Exchange) (data : Bytes) : List Nat → Program Unit
  | [] => return ()
  | i :: rest => do
    ex.send i data
    sendEach ex data rest

/-- The flat broadcast, with `total` the length of the message. -/
def flat (ex : Exchange) (root : Nat) (input : Bytes) (total : Nat) : Program Bytes := do
  if ex.localRank = root then
    sendEach ex input ((List.range ex.size).filter (· ≠ root))
    return input
  else
    ex.recvExact root total

/-- The member's position in the chain that begins at the root. -/
def position? (ex : Exchange) (root : Nat) : Option Nat :=
  Index.behind? ex.size ex.localRank root

/-- What a member of the chain hands on: the first one its input, the others what they
receive from the member before. -/
def fromPrevious (ex : Exchange) (position : Nat) (input : Bytes) (total : Nat) :
    Program Bytes :=
  if position = 0 then return input
  else do
    let previous ← .demand (Index.behind? ex.size ex.localRank 1)
    ex.recvExact previous total

/-- Hands the message on, except at the end of the chain. -/
def toNext (ex : Exchange) (position : Nat) (data : Bytes) : Program Unit :=
  if position + 1 < ex.size then do
    let next ← .demand (Index.ahead? ex.size ex.localRank 1)
    ex.send next data
  else return ()

/-- The chain, with `total` the length of the message. -/
def chain (ex : Exchange) (root : Nat) (input : Bytes) (total : Nat) : Program Bytes := do
  let position ← .demand (position? ex root)
  let data ← fromPrevious ex position input total
  toNext ex position data
  return data

/-- The flat broadcast of a job. -/
def sendToAll (job : Job) : Program Bytes := do
  let root ← .ofExcept (root "send_to_all broadcast" job.params)
  if job.count = 0 then return []
  if job.exchange.size ≤ 1 then return job.input
  let total ← .ofExcept (payloadBytes job.count job.dtype)
  flat job.exchange root job.input total

/-- The chain broadcast of a job. -/
def linear (job : Job) : Program Bytes := do
  let root ← .ofExcept (root "linear broadcast" job.params)
  if job.count = 0 then return []
  let total ← .ofExcept (payloadBytes job.count job.dtype)
  chain job.exchange root job.input total

end Collectives.Broadcast
