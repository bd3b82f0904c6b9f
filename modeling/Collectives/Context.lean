import Collectives.Error

/-!
# The world as one process sees it

A process knows its own rank and how many processes there are. A context is made once
and its rank is always within range.
-/

namespace Collectives

/-- A process among the processes of its world. -/
structure Context where
  rank : Rank
  size : UInt32
  rank_lt : rank < size
  deriving DecidableEq

namespace Context

/-- The context of process `rank` among `size`. That there is no process at all is said
before that the rank is out of range. -/
def create (rank : Rank) (size : UInt32) : Except Error Context :=
  if size = 0 then .error .emptyContext
  else if h : rank < size then .ok ⟨rank, size, h⟩
  else .error (.invalidRank rank size)

/-- The first `n` ranks of the world, in ascending order. -/
def firstRanks (c : Context) (n : Nat) : List Rank :=
  (List.range (min n c.size.toNat)).map UInt32.ofNat

/-- Every rank of the world, in ascending order. -/
def allRanks (c : Context) : List Rank := c.firstRanks c.size.toNat

/-- The context as it is shown for inspection. -/
def describe (c : Context) : String :=
  Text.record "ProcessContext" [("rank", toString c.rank), ("size", toString c.size)]

/-- A context exists for exactly the ranks below the size. -/
theorem create_isOk (rank : Rank) (size : UInt32) :
    (create rank size).isOk = decide (rank < size) := by
  unfold create
  by_cases hs : size = 0
  · subst hs
    simp [Except.isOk, Except.toBool]
  · by_cases h : rank < size <;> simp [hs, h, Except.isOk, Except.toBool]

end Context

end Collectives
