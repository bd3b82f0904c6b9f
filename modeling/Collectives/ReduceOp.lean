import Collectives.DataType

/-!
# Reduction operators

The operators by which an allreduce combines the contributions of its members:
arithmetic ones for numbers, logical ones for truth values.
-/

namespace Collectives

/-- A reduction operator. -/
inductive ReduceOp where
  | sum
  | prod
  | min
  | max
  | and
  | or
  deriving DecidableEq, Repr

namespace ReduceOp

/-- Every operator, in order. -/
def all : List ReduceOp := [sum, prod, min, max, and, or]

/-- The canonical name. -/
def name : ReduceOp → String
  | sum => "sum"
  | prod => "prod"
  | min => "min"
  | max => "max"
  | and => "and"
  | or => "or"

/-- The name as it is shown inside records. -/
def label : ReduceOp → String
  | sum => "Sum"
  | prod => "Prod"
  | min => "Min"
  | max => "Max"
  | and => "And"
  | or => "Or"

/-- Whether the operator joins truth values rather than numbers. -/
def isLogical : ReduceOp → Bool
  | and | or => true
  | _ => false

/-- Arithmetic operators are defined on numbers, logical ones on truth values. -/
def supports (op : ReduceOp) (d : DataType) : Bool :=
  op.isLogical != d.isNumeric

/-- The spellings under which an operator is read, in lower case. -/
def spellings : ReduceOp → List String
  | sum => ["sum"]
  | prod => ["prod", "product"]
  | min => ["min"]
  | max => ["max"]
  | and => ["and"]
  | or => ["or"]

/-- The operator that a text names, in any case and with blanks around it. -/
def ofName? (text : String) : Option ReduceOp :=
  let spelling := (Text.trim text).toLower
  all.find? fun op => spelling ∈ op.spellings

theorem mem_all (op : ReduceOp) : op ∈ all := by cases op <;> decide

end ReduceOp

end Collectives
