import Collectives.ChunkLayout
import Collectives.Element.Codec
import Collectives.Messaging
import Collectives.Reducer

/-!
# Allreduce

Two programs that combine the buffers of all members elementwise and give everyone the
result.

The ring cuts the buffer into one chunk per member. A first pass of `size - 1` rounds
leaves each member with one fully combined chunk, and a second pass circulates the
combined chunks. What arrives is always the left operand, so a chunk is combined along
one path around the ring and every member ends with the same bits.

Recursive doubling exchanges whole buffers with the partner at distance 1, 2, 4, …
within the largest power of two that fits. In a group of another size each member
beyond it first hands its buffer to a partner inside and gets the result back at the
end. The operand of the lower member is on the left on both sides of an exchange.

An allreduce of nothing, or by a single member, sends nothing.
-/

namespace Collectives.Allreduce

variable {d : DataType}

/-- The reducer that the parameters ask for, or a complaint in the name of the
algorithm. -/
def reducer (d : DataType) (algorithm : String) : Params → Except Error (Reducer d)
  | .allreduce op => Reducer.resolve d op
  | other => .error (.paramsMismatch algorithm other.kind)

/-- Replaces chunk `i` by the outcome of merging it with an incoming one. Both have to
be of the same length. -/
def mergeChunk? (chunks : List (List d.Elem)) (i : Nat) (incoming : List d.Elem)
    (merge : List d.Elem → List d.Elem → List d.Elem) : Option (List (List d.Elem)) := do
  let mine ← chunks[i]?
  if incoming.length = mine.length then some (chunks.set i (merge mine incoming)) else none

/-- One round on the ring: sends one chunk on and merges another with what arrives. -/
def ringRound (ex : Exchange) (layout : ChunkLayout)
    (merge : List d.Elem → List d.Elem → List d.Elem) (chunks : List (List d.Elem))
    (outIndex inIndex : Nat) : Program (List (List d.Elem)) := do
  let next ← .demand (Index.ahead? ex.size ex.localRank 1)
  let previous ← .demand (Index.behind? ex.size ex.localRank 1)
  let outgoing ← .demand chunks[outIndex]?
  let inLength ← .demand (layout.length? inIndex)
  let expected ← .demand (Index.mul? inLength d.width)
  let received ← ex.sendRecv next (d.encode outgoing) previous expected
  let incoming ← .ofExcept (d.decode received)
  .demand (mergeChunk? chunks inIndex incoming merge)

/-- The rounds from `step` on, `n` of them: the member at position `start` sends the
chunk `step` places behind it and merges the one before. -/
def ringPass (ex : Exchange) (layout : ChunkLayout)
    (merge : List d.Elem → List d.Elem → List d.Elem) (start : Nat)
    (chunks : List (List d.Elem)) (step : Nat) : Nat → Program (List (List d.Elem))
  | 0 => return chunks
  | n + 1 => do
    let outIndex ← .demand (Index.behind? ex.size start step)
    let inIndex ← .demand (Index.behind? ex.size start (step + 1))
    let chunks ← ringRound ex layout merge chunks outIndex inIndex
    ringPass ex layout merge start chunks (step + 1) n

/-- The ring on a buffer of elements. -/
def ringBuffer (ex : Exchange) (r : Reducer d) (buffer : List d.Elem) :
    Program (List d.Elem) := do
  if ex.size ≤ 1 ∨ buffer = [] then return buffer
  let layout := ChunkLayout.ofCount buffer.length ex.size
  let chunks ← .demand (layout.cut? buffer)
  let chunks ← ringPass ex layout r.reduceRev ex.localRank chunks 0 (ex.size - 1)
  let chunks ← ringPass ex layout (fun _ incoming => incoming) (ex.localRank + 1) chunks 0
    (ex.size - 1)
  return chunks.flatten

/-- Receives a whole buffer of `total` bytes. -/
def recvBuffer (d : DataType) (ex : Exchange) (src total : Nat) : Program (List d.Elem) := do
  let received ← ex.recvExact src total
  .ofExcept (d.decode received)

/-- One exchange at the distance `2 ^ k` of recursive doubling. -/
def doublingRound (ex : Exchange) (r : Reducer d) (total : Nat) (buffer : List d.Elem)
    (k : Nat) : Program (List d.Elem) := do
  let partner := ex.localRank ^^^ (1 <<< k)
  let received ← ex.sendRecv partner (d.encode buffer) partner total
  let incoming ← .ofExcept (d.decode received)
  return if partner < ex.localRank then r.reduceRev buffer incoming
    else r.reduce buffer incoming

/-- The exchanges at the distances `2 ^ k`, `2 ^ (k + 1)`, … , `n` of them. -/
def doublingRounds (ex : Exchange) (r : Reducer d) (total : Nat) (buffer : List d.Elem)
    (k : Nat) : Nat → Program (List d.Elem)
  | 0 => return buffer
  | n + 1 => do
    let buffer ← doublingRound ex r total buffer k
    doublingRounds ex r total buffer (k + 1) n

/-- What a member inside the power of two does with the buffer of its partner beyond it,
if it has one: it combines it with its own. -/
def foldIn (ex : Exchange) (r : Reducer d) (total inner excess : Nat) (buffer : List d.Elem) :
    Program (List d.Elem) :=
  if ex.localRank < excess then do
    let incoming ← recvBuffer d ex (ex.localRank + inner) total
    return r.reduce buffer incoming
  else return buffer

/-- Gives the result to the partner beyond the power of two, if there is one. -/
def foldOut (ex : Exchange) (inner excess : Nat) (buffer : List d.Elem) : Program Unit :=
  if ex.localRank < excess then ex.send (ex.localRank + inner) (d.encode buffer)
  else return ()

/-- What a member beyond the power of two does: it hands its buffer to its partner and
waits for the result. -/
def beyond (ex : Exchange) (total inner : Nat) (buffer : List d.Elem) :
    Program (List d.Elem) := do
  let partner ← .demand (Index.sub? ex.localRank inner)
  ex.send partner (d.encode buffer)
  recvBuffer d ex partner total

/-- What a member inside the power of two does. -/
def inside (ex : Exchange) (r : Reducer d) (total inner excess : Nat) (buffer : List d.Elem) :
    Program (List d.Elem) := do
  let buffer ← foldIn ex r total inner excess buffer
  let buffer ← doublingRounds ex r total buffer 0 (Nat.log2 ex.size)
  foldOut ex inner excess buffer
  return buffer

/-- Recursive doubling on a buffer of elements. -/
def doublingBuffer (ex : Exchange) (r : Reducer d) (buffer : List d.Elem) :
    Program (List d.Elem) := do
  if ex.size ≤ 1 ∨ buffer = [] then return buffer
  let total ← .demand (Index.mul? buffer.length d.width)
  let inner := Index.floorPow2 ex.size
  let excess ← .demand (Index.sub? ex.size inner)
  if inner ≤ ex.localRank then beyond ex total inner buffer
  else inside ex r total inner excess buffer

/-- Carries out a program for buffers of elements on the wire form of the input. -/
def onWire (d : DataType) (algorithm : String)
    (program : Exchange → Reducer d → List d.Elem → Program (List d.Elem)) (job : Job) :
    Program Bytes := do
  let r ← .ofExcept (reducer d algorithm job.params)
  let buffer ← .ofExcept (d.decode job.input)
  let result ← program job.exchange r buffer
  return d.encode result

/-- The ring allreduce of a job, for elements of type `d`. -/
def ring (d : DataType) (job : Job) : Program Bytes :=
  onWire d "ring allreduce" ringBuffer job

/-- The recursive-doubling allreduce of a job, for elements of type `d`. -/
def recursiveDoubling (d : DataType) (job : Job) : Program Bytes :=
  onWire d "recursive_doubling allreduce" doublingBuffer job

end Collectives.Allreduce
