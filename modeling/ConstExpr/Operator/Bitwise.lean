import ConstExpr.Operator.Basic
import ConstExpr.Warning

/-!
Bitwise operators. Two strings are combined byte by byte, any other pair through its integer
conversions; arrays are rejected.
-/

namespace ConstExpr

namespace MaskOp

def onBytes (op : MaskOp) (a b : UInt8) : UInt8 :=
  match op with
  | and => a &&& b
  | or => a ||| b
  | xor => a ^^^ b

def onWords (op : MaskOp) (a b : Int64) : Int64 :=
  match op with
  | and => a &&& b
  | or => a ||| b
  | xor => a ^^^ b

/-- The result reaches as far as the shorter string, but a disjunction keeps the tail of the
longer one. -/
def onStrings (op : MaskOp) : Bytes → Bytes → Bytes
  | a :: as, b :: bs => op.onBytes a b :: onStrings op as bs
  | [], bs => if op = or then bs else []
  | as, [] => if op = or then as else []

def apply (op : MaskOp) : Value → Value → Logged Value
  | .str s, .str t => pure (.str (op.onStrings s t))
  | left, right =>
    if left.table?.isSome || right.table?.isSome then
      .reject (.unsupportedOperands left.kind op.symbol right.kind)
    else pure (.int (op.onWords left.toWord right.toWord))

end MaskOp

def shift (symbol : String) (move : Int64 → Nat → Int64) (left right : Value) : Logged Value :=
  if left.table?.isSome || right.table?.isSome then
    .reject (.unsupportedOperands left.kind symbol right.kind)
  else if right.toWord.toInt < 0 then .reject .negativeShift
  else pure (.int (move left.toWord right.toWord.toInt.toNat))

def complement : Value → Logged Value
  | .int i => pure (.int (~~~i))
  | .float x => pure (.int (~~~(Binary64.toWord x)))
  | .str s => pure (.str (s.map (~~~·)))
  | v => .reject (.bitwiseNot v.kind)

end ConstExpr
