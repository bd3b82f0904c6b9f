import Collectives.Element
import Collectives.ReduceOp

/-!
# Combining two elements

Every operator that a type supports has a combining function and an identity element.
Integer arithmetic wraps at the width of the type. The identity of floating-point
addition is negative zero, the only number that leaves negative zero as it is.
-/

namespace Collectives.DataType

/-- The combining function of an operator, where the type supports it. -/
def combiner : (d : DataType) → ReduceOp → Option (d.Elem → d.Elem → d.Elem)
  | int, .sum | int16, .sum | long, .sum => some (· + ·)
  | int, .prod | int16, .prod | long, .prod => some (· * ·)
  | int, .min | int16, .min | long, .min => some min
  | int, .max | int16, .max | long, .max => some max
  | float, .sum => some Binary32.add
  | float, .prod => some Binary32.mul
  | float, .min => some Binary32.min
  | float, .max => some Binary32.max
  | double, .sum => some Binary64.add
  | double, .prod => some Binary64.mul
  | double, .min => some Binary64.min
  | double, .max => some Binary64.max
  | bool, .and => some (· && ·)
  | bool, .or => some (· || ·)
  | _, _ => none

/-- The identity element of an operator, where the type supports it. -/
def identity : (d : DataType) → ReduceOp → Option d.Elem
  | int, .sum => some 0
  | int, .prod => some 1
  | int, .min => some Int32.maxValue
  | int, .max => some Int32.minValue
  | int16, .sum => some 0
  | int16, .prod => some 1
  | int16, .min => some Int16.maxValue
  | int16, .max => some Int16.minValue
  | long, .sum => some 0
  | long, .prod => some 1
  | long, .min => some Int64.maxValue
  | long, .max => some Int64.minValue
  | float, .sum => some .negZero
  | float, .prod => some .one
  | float, .min => some .infinity
  | float, .max => some .negInfinity
  | double, .sum => some .negZero
  | double, .prod => some .one
  | double, .min => some .infinity
  | double, .max => some .negInfinity
  | bool, .and => some true
  | bool, .or => some false
  | _, _ => none

/-- A type combines by exactly the operators that support it. -/
theorem isSome_combiner (d : DataType) (op : ReduceOp) :
    (d.combiner op).isSome = op.supports d := by
  cases d <;> cases op <;> rfl

theorem isSome_identity (d : DataType) (op : ReduceOp) :
    (d.identity op).isSome = op.supports d := by
  cases d <;> cases op <;> rfl

end Collectives.DataType
