import Collectives.Messaging

/-!
# Allgatherv

Every member contributes a buffer of its own length and gets the contributions of all
members in the order of their local indices. Segments travel around a ring: in each
round a member hands on what the previous round brought. A first ring circulates the
counts, so that the second one knows the length of every segment it receives.
-/

namespace Collectives.Allgatherv

/-- Accepts the parameters of an allgatherv only. -/
def check : Params → Except Error Unit
  | .allgatherv => .ok ()
  | other => .error (.paramsMismatch "ring allgatherv" other.kind)

/-- Puts a value at an index that has to be in range. -/
def put? {α : Type} (xs : List α) (i : Nat) (x : α) : Option (List α) :=
  if i < xs.length then some (xs.set i x) else none

/-- One round: hands on the segment `step` places behind this member and receives the
one before it. -/
def round (ex : Exchange) (length? : Nat → Option Nat) (segments : List Bytes) (step : Nat) :
    Program (List Bytes) := do
  let next ← .demand (Index.ahead? ex.size ex.localRank 1)
  let previous ← .demand (Index.behind? ex.size ex.localRank 1)
  let outIndex ← .demand (Index.behind? ex.size ex.localRank step)
  let inIndex ← .demand (Index.behind? ex.size ex.localRank (step + 1))
  let outgoing ← .demand segments[outIndex]?
  let expected ← .demand (length? inIndex)
  let received ← ex.sendRecv next outgoing previous expected
  .demand (put? segments inIndex received)

/-- The rounds from `step` on, `n` of them. -/
def rounds (ex : Exchange) (length? : Nat → Option Nat) (segments : List Bytes) (step : Nat) :
    Nat → Program (List Bytes)
  | 0 => return segments
  | n + 1 => do
    let segments ← round ex length? segments step
    rounds ex length? segments (step + 1) n

/-- Circulates the segments of all members; at first only this member's own is known. -/
def circulate (ex : Exchange) (length? : Nat → Option Nat) (own : Bytes) :
    Program (List Bytes) := do
  let segments ← .demand (put? (List.replicate ex.size []) ex.localRank own)
  rounds ex length? segments 0 (ex.size - 1)

/-- The number of bytes in which a count travels. -/
def countBytes : Nat := 8

/-- The count that a segment spells. -/
def readCount (segment : Bytes) : Except Error Nat :=
  if segment.length = countBytes then .ok (ofLittleEndian segment)
  else .error (.transport "malformed count segment" none)

/-- The counts of all members. -/
def exchangeCounts (ex : Exchange) (count : Nat) : Program (List Nat) := do
  let segments ← circulate ex (fun _ => some countBytes) (littleEndian countBytes count)
  .ofExcept (segments.mapM readCount)

/-- The ring allgatherv of a job. -/
def ring (job : Job) : Program Bytes := do
  .ofExcept (check job.params)
  let counts ← exchangeCounts job.exchange job.count
  let lengths ← .ofExcept (counts.mapM (payloadBytes · job.dtype))
  let segments ← circulate job.exchange (lengths[·]?) job.input
  return segments.flatten

end Collectives.Allgatherv
