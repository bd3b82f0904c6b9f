import Collectives.Program

/-!
# Messages between the members of a group

The four ways in which the program of a member communicates over its exchange. An index
that names no member is an error before anything is sent. Sending and receiving at once
sends first: when the send fails, nothing is received.
-/

namespace Collectives.Exchange

/-- Sends a message to the member at a local index. -/
def send (ex : Exchange) (dest : Nat) (data : Bytes) : Program Unit := do
  let rank ← .ofExcept (ex.peer dest)
  .send rank data fun
    | .ok () => .ret ()
    | .error cause => .fail (ex.failed rank cause)

/-- Receives the next message of the member at a local index. -/
def recv (ex : Exchange) (src : Nat) : Program Bytes := do
  let rank ← .ofExcept (ex.peer src)
  .recv rank fun
    | .ok data => .ret data
    | .error cause => .fail (ex.failed rank cause)

/-- Receives the next message of a member, which has to be of the expected length. -/
def recvExact (ex : Exchange) (src expected : Nat) : Program Bytes := do
  let data ← ex.recv src
  if data.length = expected then return data
  let rank ← .ofExcept (ex.peer src)
  .fail (.unexpectedMessageSize rank expected data.length)

/-- Sends to one member while receiving from another. -/
def sendRecv (ex : Exchange) (dest : Nat) (data : Bytes) (src expected : Nat) :
    Program Bytes := do
  ex.send dest data
  ex.recvExact src expected

theorem peer_eq_ok {ex : Exchange} {i : Nat} {rank : Rank} :
    ex.peer i = .ok rank ↔ ex.group.globalRank? i = some rank := by
  unfold peer
  cases ex.group.globalRank? i <;> simp

/-- A send to a member is one step, whose error is blamed on that member. -/
theorem send_of_peer {ex : Exchange} {i : Nat} {rank : Rank} (h : ex.peer i = .ok rank)
    (data : Bytes) :
    ex.send i data = .send rank data fun
      | .ok () => .ret ()
      | .error cause => .fail (ex.failed rank cause) := by
  rw [send, h]
  rfl

/-- A receive from a member is one step, whose error is blamed on that member. -/
theorem recv_of_peer {ex : Exchange} {i : Nat} {rank : Rank} (h : ex.peer i = .ok rank) :
    ex.recv i = .recv rank fun
      | .ok data => .ret data
      | .error cause => .fail (ex.failed rank cause) := by
  rw [recv, h]
  rfl

/-- A message of another length than expected is blamed on the member it came from. -/
theorem recvExact_of_peer {ex : Exchange} {i : Nat} {rank : Rank} (h : ex.peer i = .ok rank)
    (expected : Nat) :
    ex.recvExact i expected = .recv rank fun
      | .ok data =>
        if data.length = expected then .ret data
        else .fail (.unexpectedMessageSize rank expected data.length)
      | .error cause => .fail (ex.failed rank cause) := by
  rw [recvExact, recv_of_peer h, Program.recv_bind]
  congr 1
  funext answer
  cases answer with
  | ok data => simp [h]
  | error cause => rfl

theorem peer_of_size_le {ex : Exchange} {i : Nat} (h : ex.size ≤ i) :
    ex.peer i = .error (.invalidPeer i ex.size) := by
  have : ex.group.globalRank? i = none := List.getElem?_eq_none h
  simp [peer, this]

end Collectives.Exchange
