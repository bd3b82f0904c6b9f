import Collectives.Bytes

/-!
# Tags

A tag is a 64-bit word that keeps the messages of one operation apart from all others.
Tags are hashed, byte by byte, from what the members of a group agree on without
talking to each other: the ranks of the group, how many groups with these ranks came
before, and how many operations on the group came before.
-/

namespace Collectives

/-- What keeps the messages of an operation apart from those of others. -/
abbrev Tag := UInt64

namespace Tag

/-- The hash of the empty string. -/
def basis : UInt64 := 0xcbf29ce484222325

/-- The multiplier of the hash. -/
def prime : UInt64 := 0x100000001b3

/-- Takes one byte into a hash. -/
def absorb (h : UInt64) (b : UInt8) : UInt64 := (h ^^^ b.toUInt64) * prime

/-- Takes a byte string into a hash, first byte first. -/
def hash (h : UInt64) (bytes : Bytes) : UInt64 := bytes.foldl absorb h

/-- Takes a rank, as four bytes, into a hash. -/
def hashRank (h : UInt64) (rank : UInt32) : UInt64 := hash h (littleEndian 4 rank.toNat)

/-- Takes a count, as eight bytes, into a hash. -/
def hashCount (h : UInt64) (n : Nat) : UInt64 := hash h (littleEndian 8 n)

/-- The identifier of a group: its ranks, then the number of earlier groups with the
same ranks. -/
def groupId (ranks : List UInt32) (generation : Nat) : UInt64 :=
  hashCount (ranks.foldl hashRank basis) generation

/-- The tag of an operation: the identifier of its group, then the number of earlier
operations on it. -/
def ofSequence (id : UInt64) (sequence : Nat) : Tag := hashCount id sequence

@[simp] theorem hash_nil (h : UInt64) : hash h [] = h := rfl

@[simp] theorem hash_cons (h : UInt64) (b : UInt8) (bs : Bytes) :
    hash h (b :: bs) = hash (absorb h b) bs := rfl

theorem hash_append (h : UInt64) (bs cs : Bytes) : hash h (bs ++ cs) = hash (hash h bs) cs :=
  List.foldl_append

end Tag

end Collectives
