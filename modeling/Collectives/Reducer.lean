import Collectives.Element.Combine
import Collectives.Error

/-!
# Reducers

A reducer is an operator resolved for one element type. That the operator and the type
go together is checked once, when the reducer is made; combining cannot fail. Buffers
are combined element by element, with the accumulated operand on the left or on the
right, which matters for operators that do not commute exactly.
-/

namespace Collectives

/-- An operator resolved for the elements of a type. -/
structure Reducer (d : DataType) where
  op : ReduceOp
  combine : d.Elem → d.Elem → d.Elem

namespace Reducer

/-- Resolves an operator, or says that the type does not support it. -/
def resolve (d : DataType) (op : ReduceOp) : Except Error (Reducer d) :=
  match d.combiner op with
  | some combine => .ok ⟨op, combine⟩
  | none => .error (.incompatibleReduceOp op d)

variable {d : DataType}

/-- Combines a buffer with an incoming one, the incoming operand on the right. -/
def reduce (r : Reducer d) (acc incoming : List d.Elem) : List d.Elem :=
  List.zipWith r.combine acc incoming

/-- Combines a buffer with an incoming one, the incoming operand on the left. -/
def reduceRev (r : Reducer d) (acc incoming : List d.Elem) : List d.Elem :=
  List.zipWith r.combine incoming acc

/-- The reducer as it is shown for inspection. -/
def describe (r : Reducer d) : String :=
  Text.record "Reducer" [("op", r.op.label), ("dtype", d.label)]

/-- Putting the incoming operand on the left is exchanging the buffers. -/
theorem reduceRev_eq_reduce (r : Reducer d) (acc incoming : List d.Elem) :
    r.reduceRev acc incoming = r.reduce incoming acc := rfl

@[simp] theorem length_reduce (r : Reducer d) (acc incoming : List d.Elem) :
    (r.reduce acc incoming).length = Nat.min acc.length incoming.length := by
  simp [reduce]

theorem resolve_isOk (d : DataType) (op : ReduceOp) :
    (resolve d op).isOk = op.supports d := by
  rw [← DataType.isSome_combiner, resolve]
  cases d.combiner op <;> rfl

end Reducer

end Collectives
