import Collectives.Element
import Collectives.Error

/-!
# The wire form of a buffer

A buffer is written element by element, without separators, so the wire form of a
concatenation is the concatenation of the wire forms and any cut at a multiple of the
width falls between two elements. `decode` accepts exactly the strings whose length is
such a multiple.
-/

namespace Collectives.DataType

/-- The wire form of a buffer. -/
def encode (d : DataType) (xs : List d.Elem) : Bytes :=
  xs.flatMap d.write

/-- The first `n` elements on the wire. -/
def readMany (d : DataType) : Nat → Bytes → List d.Elem
  | 0, _ => []
  | n + 1, bytes => d.read (bytes.take d.width) :: d.readMany n (bytes.drop d.width)

/-- The buffer with this wire form, if it is a whole number of elements. -/
def decode (d : DataType) (bytes : Bytes) : Except Error (List d.Elem) :=
  if bytes.length % d.width = 0 then
    .ok (d.readMany (bytes.length / d.width) bytes)
  else
    .error (.transport
      (toString bytes.length ++ " bytes is not a whole number of " ++ d.name ++ " elements") none)

@[simp] theorem encode_nil (d : DataType) : d.encode [] = [] := rfl

@[simp] theorem encode_cons (d : DataType) (x : d.Elem) (xs : List d.Elem) :
    d.encode (x :: xs) = d.write x ++ d.encode xs := List.flatMap_cons

@[simp] theorem encode_append (d : DataType) (xs ys : List d.Elem) :
    d.encode (xs ++ ys) = d.encode xs ++ d.encode ys := List.flatMap_append

@[simp] theorem length_encode (d : DataType) (xs : List d.Elem) :
    (d.encode xs).length = xs.length * d.width := by
  induction xs with
  | nil => simp
  | cons x xs ih => simp [ih, Nat.add_mul, Nat.add_comm]

@[simp] theorem length_readMany (d : DataType) (n : Nat) (bytes : Bytes) :
    (d.readMany n bytes).length = n := by
  induction n generalizing bytes with
  | zero => rfl
  | succ n ih => simp [readMany, ih]

theorem readMany_encode (d : DataType) (xs : List d.Elem) :
    d.readMany xs.length (d.encode xs) = xs := by
  induction xs with
  | nil => rfl
  | cons x xs ih => simp [readMany, ih]

@[simp] theorem decode_encode (d : DataType) (xs : List d.Elem) :
    d.decode (d.encode xs) = .ok xs := by
  have hw := d.width_pos
  simp [decode, Nat.mul_div_cancel _ hw, readMany_encode]

end Collectives.DataType
