import Collectives.Text

/-!
# Element types

The six types of element that a buffer can hold, in the order that sorts them. Each
has a canonical name, a code, a fixed width in bytes, and the spellings under which
it is read.
-/

namespace Collectives

/-- The type of the elements of a buffer. -/
inductive DataType where
  | int
  | int16
  | long
  | float
  | double
  | bool
  deriving DecidableEq, Repr

namespace DataType

/-- Every element type, in order. -/
def all : List DataType := [int, int16, long, float, double, bool]

/-- The position of the type in the order. -/
def code : DataType → Nat
  | int => 0
  | int16 => 1
  | long => 2
  | float => 3
  | double => 4
  | bool => 5

/-- The canonical name. -/
def name : DataType → String
  | int => "int"
  | int16 => "int16"
  | long => "long"
  | float => "float"
  | double => "double"
  | bool => "bool"

/-- The name as it is shown inside records. -/
def label : DataType → String
  | int => "Int"
  | int16 => "Int16"
  | long => "Long"
  | float => "Float"
  | double => "Double"
  | bool => "Bool"

/-- The bytes that one element takes on the wire. -/
def width : DataType → Nat
  | int => 4
  | int16 => 2
  | long => 8
  | float => 4
  | double => 8
  | bool => 1

/-- Whether the elements are floating-point numbers. -/
def isFloat : DataType → Bool
  | float | double => true
  | _ => false

/-- Whether the elements are numbers: all but truth values are. -/
def isNumeric (d : DataType) : Bool := d ≠ bool

/-- The spellings under which a type is read, in lower case. -/
def spellings : DataType → List String
  | int => ["int", "int32", "int32_t", "i32"]
  | int16 => ["int16", "int16_t", "i16", "short"]
  | long => ["long", "int64", "int64_t", "i64"]
  | float => ["float", "float32", "f32"]
  | double => ["double", "float64", "f64"]
  | bool => ["bool", "boolean"]

/-- The type that a text names, in any case and with blanks around it. -/
def ofName? (text : String) : Option DataType :=
  let spelling := (Text.trim text).toLower
  all.find? fun d => spelling ∈ d.spellings

theorem mem_all (d : DataType) : d ∈ all := by cases d <;> decide

theorem width_pos (d : DataType) : 0 < d.width := by cases d <;> decide

/-- There are not more elements than bytes. -/
theorem lt_of_mul_width_lt (d : DataType) {count bound : Nat} (h : count * d.width < bound) :
    count < bound := Nat.lt_of_le_of_lt (Nat.le_mul_of_pos_right _ d.width_pos) h

theorem code_lt (d : DataType) : d.code < 6 := by cases d <;> decide

theorem code_injective {d e : DataType} (h : d.code = e.code) : d = e := by
  cases d <;> cases e <;> simp_all [code]

end DataType

end Collectives
