/-!
# Chunk layouts

A buffer is cut into contiguous chunks whose lengths differ by at most one: the first
`count % parts` chunks take one element more than the others. The layout keeps where
each chunk begins; a chunk ends where the next one begins, and the last one at the end
of the buffer.
-/

namespace Collectives

/-- Where the chunks of a buffer lie. -/
structure ChunkLayout where
  /-- Where each chunk begins. -/
  offsets : List Nat
  /-- Where the last chunk ends. -/
  total : Nat
  deriving DecidableEq, Repr

namespace ChunkLayout

/-- Where `n` chunks begin, the first of them being chunk `i`, at `offset`; chunks
before `extra` are one element longer than `base`. -/
def offsetsFrom (base extra i offset : Nat) : Nat → List Nat
  | 0 => []
  | n + 1 =>
    offset :: offsetsFrom base extra (i + 1) (offset + base + if i < extra then 1 else 0) n

/-- The layout of `count` elements in `parts` chunks. -/
def ofCount (count parts : Nat) : ChunkLayout where
  offsets := offsetsFrom (count / parts) (count % parts) 0 0 parts
  total := count

/-- Where chunk `i` begins and ends, if there is one. -/
def range? (layout : ChunkLayout) (i : Nat) : Option (Nat × Nat) := do
  let start ← layout.offsets[i]?
  return (start, layout.offsets[i + 1]?.getD layout.total)

/-- The length of chunk `i`, if there is one. -/
def length? (layout : ChunkLayout) (i : Nat) : Option Nat := do
  let (start, stop) ← layout.range? i
  return stop - start

/-- The elements from `start` up to `stop`, if the buffer has them. -/
def slice? {α : Type} (xs : List α) (start stop : Nat) : Option (List α) :=
  if start ≤ stop ∧ stop ≤ xs.length then some ((xs.drop start).take (stop - start)) else none

/-- The chunks of a buffer, if every one of them lies within it. -/
def cut? {α : Type} (layout : ChunkLayout) (xs : List α) : Option (List (List α)) :=
  (List.range layout.offsets.length).mapM fun i => do
    let (start, stop) ← layout.range? i
    slice? xs start stop

@[simp] theorem length_offsetsFrom (base extra i offset n : Nat) :
    (offsetsFrom base extra i offset n).length = n := by
  induction n generalizing i offset with
  | zero => rfl
  | succ n ih => simp [offsetsFrom, ih]

/-- Before chunk `k` lie `k` chunks of the base length and one more element for each of
them that is among the longer ones. -/
theorem getElem?_offsetsFrom (base extra i offset n k : Nat) (hk : k < n) :
    (offsetsFrom base extra i offset n)[k]? =
      some (offset + k * base + (min (i + k) extra - min i extra)) := by
  induction n generalizing i offset k with
  | zero => omega
  | succ n ih =>
    cases k with
    | zero => simp [offsetsFrom]
    | succ k =>
      rw [offsetsFrom, List.getElem?_cons_succ, ih _ _ _ (by omega), Nat.add_mul]
      congr 1
      split <;> omega

end ChunkLayout

end Collectives
