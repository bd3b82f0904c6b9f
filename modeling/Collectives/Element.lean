import Collectives.Bytes
import Collectives.DataType
import Collectives.Element.Float

/-!
# Elements and their wire form

Each element type has a carrier: words for the integers, whose arithmetic wraps, bit
patterns for the floating-point types, and truth values. `write` and `read` are the
wire form of one element. Reading is total on strings of the right length; a truth
value is read from any byte other than zero, so only there do two wire forms spell the
same element.
-/

namespace Collectives.DataType

/-- The elements of a type. -/
@[reducible] def Elem : DataType → Type
  | int => Int32
  | int16 => Int16
  | long => Int64
  | float => Binary32
  | double => Binary64
  | bool => Bool

instance (d : DataType) : DecidableEq d.Elem := by
  cases d <;> (dsimp only [Elem]; infer_instance)

/-- The number that the wire form of an element spells. -/
def toWord : (d : DataType) → d.Elem → Nat
  | int, x => x.toUInt32.toNat
  | int16, x => x.toUInt16.toNat
  | long, x => x.toUInt64.toNat
  | float, x => x.bits.toNat
  | double, x => x.bits.toNat
  | bool, x => x.toNat

/-- The element whose wire form spells a number. -/
def ofWord : (d : DataType) → Nat → d.Elem
  | int, n => (UInt32.ofNat n).toInt32
  | int16, n => (UInt16.ofNat n).toInt16
  | long, n => (UInt64.ofNat n).toInt64
  | float, n => ⟨UInt32.ofNat n⟩
  | double, n => ⟨UInt64.ofNat n⟩
  | bool, n => n != 0

/-- The wire form of one element. -/
def write (d : DataType) (x : d.Elem) : Bytes :=
  littleEndian d.width (d.toWord x)

/-- The element with this wire form. -/
def read (d : DataType) (bytes : Bytes) : d.Elem :=
  d.ofWord (ofLittleEndian bytes)

theorem ofWord_toWord : (d : DataType) → (x : d.Elem) → d.ofWord (d.toWord x) = x
  | int, x => by simp [ofWord, toWord]
  | int16, x => by simp [ofWord, toWord]
  | long, x => by simp [ofWord, toWord]
  | float, x => by simp [ofWord, toWord]
  | double, x => by simp [ofWord, toWord]
  | bool, false => rfl
  | bool, true => rfl

theorem toWord_lt (d : DataType) (x : d.Elem) : d.toWord x < wordLimit d.width := by
  cases d
  case int => exact UInt32.toNat_lt _
  case int16 => exact UInt16.toNat_lt _
  case long => exact UInt64.toNat_lt _
  case float => exact UInt32.toNat_lt _
  case double => exact UInt64.toNat_lt _
  case bool => cases x <;> decide

@[simp] theorem length_write (d : DataType) (x : d.Elem) : (d.write x).length = d.width :=
  length_littleEndian _ _

@[simp] theorem read_write (d : DataType) (x : d.Elem) : d.read (d.write x) = x := by
  rw [read, write, ofLittleEndian_littleEndian, Nat.mod_eq_of_lt (d.toWord_lt x), ofWord_toWord]

end Collectives.DataType
