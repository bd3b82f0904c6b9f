import Collectives.Context
import Collectives.Tag

/-!
# Groups

A group is an ordered list of distinct ranks, seen by one of its members. Members are
addressed by their position in the list; `globalRank?` and `localRank?` translate
between positions and ranks. The identifier of a group is a function of its ranks and
its generation alone, so members that build their groups in the same order agree on it.
-/

namespace Collectives

/-- A group as one of its members sees it. -/
structure Group where
  /-- The ranks of the members, in the order of their local indices. -/
  ranks : List Rank
  /-- The local index of the member whose view this is. -/
  localRank : Nat
  /-- What tells the group from others. -/
  id : UInt64
  nodup : ranks.Nodup
  localRank_lt : localRank < ranks.length

namespace Group

/-- The list without repetitions, each element where it first occurred. -/
def distinct : List Rank → List Rank
  | [] => []
  | r :: rs => r :: (distinct rs).filter (· ≠ r)

@[simp] theorem mem_distinct {r : Rank} {rs : List Rank} : r ∈ distinct rs ↔ r ∈ rs := by
  induction rs with
  | nil => simp [distinct]
  | cons s rs ih =>
    by_cases h : r = s <;> simp [distinct, ih, h]

theorem nodup_distinct (rs : List Rank) : (distinct rs).Nodup := by
  induction rs with
  | nil => exact List.nodup_nil
  | cons r rs ih => exact List.nodup_cons.2 ⟨by simp, ih.filter _⟩

/-- Builds the group of the distinct ranks of a list, as the process of the context sees
it. That the list is empty is said first, then that a rank is out of range, then that
the process itself is not in it. -/
def create (c : Context) (list : List Rank) (generation : Nat) : Except Error Group :=
  let ranks := distinct list
  if ranks.isEmpty then .error .emptyGroup
  else match ranks.find? fun r => c.size ≤ r with
  | some bad => .error (.invalidRank bad c.size)
  | none =>
    if h : c.rank ∈ ranks then
      .ok {
        ranks
        localRank := ranks.idxOf c.rank
        id := Tag.groupId ranks generation
        nodup := nodup_distinct list
        localRank_lt := List.idxOf_lt_length_of_mem h }
    else .error (.notAMember c.rank ranks)

/-- The number of members. -/
def size (g : Group) : Nat := g.ranks.length

/-- The rank of the member whose view this is. -/
def rank (g : Group) : Rank := g.ranks.get ⟨g.localRank, g.localRank_lt⟩

/-- Whether a rank is a member. -/
def contains (g : Group) (rank : Rank) : Bool := rank ∈ g.ranks

/-- The rank of the member at a local index. -/
def globalRank? (g : Group) (index : Nat) : Option Rank := g.ranks[index]?

/-- The local index of a rank, if it is a member. -/
def localRank? (g : Group) (rank : Rank) : Option Nat := g.ranks.idxOf? rank

/-- Groups are the same when their identifiers and their ranks are, whoever looks. -/
def same (g h : Group) : Bool := g.id == h.id && g.ranks == h.ranks

/-- The tag of the operation that `sequence` earlier ones precede. -/
def tag (g : Group) (sequence : Nat) : Tag := Tag.ofSequence g.id sequence

theorem globalRank?_localRank (g : Group) : g.globalRank? g.localRank = some g.rank := by
  simp [globalRank?, rank, g.localRank_lt]

theorem size_pos (g : Group) : 0 < g.size := Nat.zero_lt_of_lt g.localRank_lt

end Group

end Collectives
