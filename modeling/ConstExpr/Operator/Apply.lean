import ConstExpr.Operator.Arithmetic
import ConstExpr.Operator.Bitwise
import ConstExpr.Operator.Order

/-!
Applying an operator or an explicit conversion to values. Every operator is total: what has no
compile-time value is null.
-/

namespace ConstExpr

def Connective.holds (op : Connective) (a b : Bool) : Bool :=
  match op with
  | and | lowAnd => a && b
  | or | lowOr => a || b
  | lowXor => a ^^ b

def concat (left right : Value) : Value := .str (left.toBytes ++ right.toBytes)

def BinaryOp.apply (op : BinaryOp) (left right : Value) : Logged Value :=
  match op with
  | arith op => op.apply left right
  | modulo => ConstExpr.modulo left right
  | concat => pure (ConstExpr.concat left right)
  | relation r => pure (.bool (r.holds left right))
  | spaceship => pure (.int (left.spaceship right))
  | logic op => pure (.bool (op.holds left.truth right.truth))
  | mask op => op.apply left right
  | shiftLeft => shift "<<" Word.shiftLeft left right
  | shiftRight => shift ">>" Word.shiftRight left right
  | coalesce => pure (if left.isNull then right else left)
  | instanceOf => pure .null

def UnaryOp.apply (op : UnaryOp) (v : Value) : Logged Value :=
  match op with
  | plus => affirm v
  | minus => negate v
  | not => pure (.bool !v.truth)
  | bitNot => complement v
  | silence => pure v
  | increment | decrement => pure .null

def CastKind.apply (kind : CastKind) (v : Value) : Logged Value :=
  match kind with
  | int => pure (.int v.toWord)
  | float => pure (.float v.toFloat)
  | bool => pure (.bool v.truth)
  | string =>
    match v with
    | .array _ => do
      Logged.warn .arrayToString
      pure (.str v.toBytes)
    | _ => pure (.str v.toBytes)
  | array =>
    match v with
    | .array _ => pure v
    | .null => pure (.array .empty)
    -- a scalar becomes an array of itself
    | _ => pure (.array (.ofList [v]))
  | object | unset => pure .null

end ConstExpr
