/-!
# Floating-point elements

Floating-point elements are kept as the bit patterns of the binary interchange
formats, so that writing and reading them back loses nothing, not even the payload of
a NaN. Arithmetic is that of the formats. The smaller and the larger of two elements
pass over a NaN: where exactly one operand is a number, that number is the answer.
-/

namespace Collectives

/-- An element of the 32-bit format. -/
structure Binary32 where
  bits : UInt32
  deriving DecidableEq, Repr

/-- An element of the 64-bit format. -/
structure Binary64 where
  bits : UInt64
  deriving DecidableEq, Repr

namespace Binary32

/-- The number that the bits denote. -/
def value (a : Binary32) : Float32 := Float32.ofBits a.bits

/-- The bits of a number. -/
def ofValue (x : Float32) : Binary32 := ⟨x.toBits⟩

/-- Whether the element is not a number. -/
def isNaN (a : Binary32) : Bool := a.bits &&& 0x7fffffff > 0x7f800000

/-- The rounded sum. -/
def add (a b : Binary32) : Binary32 := ofValue (a.value + b.value)

/-- The rounded product. -/
def mul (a b : Binary32) : Binary32 := ofValue (a.value * b.value)

/-- The smaller of two elements; a NaN gives way to a number. -/
def min (a b : Binary32) : Binary32 :=
  if a.isNaN then b else if b.isNaN then a else if a.value < b.value then a else b

/-- The larger of two elements; a NaN gives way to a number. -/
def max (a b : Binary32) : Binary32 :=
  if a.isNaN then b else if b.isNaN then a else if b.value < a.value then a else b

/-- Negative zero, to which adding any number gives that number. -/
def negZero : Binary32 := ⟨0x80000000⟩

/-- The number one. -/
def one : Binary32 := ⟨0x3f800000⟩

/-- Positive infinity. -/
def infinity : Binary32 := ⟨0x7f800000⟩

/-- Negative infinity. -/
def negInfinity : Binary32 := ⟨0xff800000⟩

end Binary32

namespace Binary64

/-- The number that the bits denote. -/
def value (a : Binary64) : Float := Float.ofBits a.bits

/-- The bits of a number. -/
def ofValue (x : Float) : Binary64 := ⟨x.toBits⟩

/-- Whether the element is not a number. -/
def isNaN (a : Binary64) : Bool := a.bits &&& 0x7fffffffffffffff > 0x7ff0000000000000

/-- The rounded sum. -/
def add (a b : Binary64) : Binary64 := ofValue (a.value + b.value)

/-- The rounded product. -/
def mul (a b : Binary64) : Binary64 := ofValue (a.value * b.value)

/-- The smaller of two elements; a NaN gives way to a number. -/
def min (a b : Binary64) : Binary64 :=
  if a.isNaN then b else if b.isNaN then a else if a.value < b.value then a else b

/-- The larger of two elements; a NaN gives way to a number. -/
def max (a b : Binary64) : Binary64 :=
  if a.isNaN then b else if b.isNaN then a else if b.value < a.value then a else b

/-- Negative zero, to which adding any number gives that number. -/
def negZero : Binary64 := ⟨0x8000000000000000⟩

/-- The number one. -/
def one : Binary64 := ⟨0x3ff0000000000000⟩

/-- Positive infinity. -/
def infinity : Binary64 := ⟨0x7ff0000000000000⟩

/-- Negative infinity. -/
def negInfinity : Binary64 := ⟨0xfff0000000000000⟩

end Binary64

end Collectives
