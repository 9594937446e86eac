import ConstExpr.Operator.Basic
import ConstExpr.Warning

/-!
Arithmetic. Two integers give an integer when the exact result is a word and a float otherwise; a
float on either side makes both operands floats. The sum of two arrays is their union.
-/

namespace ConstExpr

namespace ArithOp

/-- The exact result on two words, when that is a word. Division has one only when it leaves no
remainder, and a power only for an exponent below 2^32. -/
def onWords? (op : ArithOp) (a b : Int64) : Option Int64 :=
  match op with
  | add => Word.ofInt? (a.toInt + b.toInt)
  | sub => Word.ofInt? (a.toInt - b.toInt)
  | mul => Word.ofInt? (a.toInt * b.toInt)
  | div =>
    if b.toInt ≠ 0 ∧ a.toInt % b.toInt = 0 then Word.ofInt? (a.toInt / b.toInt) else none
  | pow => if 0 ≤ b.toInt ∧ b.toInt < 4294967296 then Word.pow? a b.toInt.toNat else none

def onFloats (op : ArithOp) (x y : Float) : Float :=
  match op with
  | add => x + y
  | sub => x - y
  | mul => x * y
  | div => x / y
  | pow => Float.pow x y

def onNumbers (op : ArithOp) : Number → Number → Value
  | .int a, .int b =>
    match op.onWords? a b with
    | some i => .int i
    | none => .float (op.onFloats (Binary64.ofWord a) (Binary64.ofWord b))
  | a, b => .float (op.onFloats a.toFloat b.toFloat)

def onScalars (op : ArithOp) (left right : Value) : Logged Value :=
  match left.number?, right.number? with
  | some a, some b =>
    if op = div ∧ Binary64.isZero b.toFloat then .reject .divisionByZero
    else pure (op.onNumbers a b)
  | _, _ => .reject (.unsupportedOperands left.kind op.symbol right.kind)

def apply (op : ArithOp) (left right : Value) : Logged Value :=
  match op, left, right with
  | add, .array a, .array b => pure (.array (a.union b))
  | _, _, _ => op.onScalars left right

end ArithOp

def modulo (left right : Value) : Logged Value :=
  if left.number?.isNone || right.number?.isNone then
    .reject (.unsupportedOperands left.kind "%" right.kind)
  else if right.toWord = 0 then .reject .moduloByZero
  -- truncated, so the sign is that of the left operand
  else pure (.int (Int64.ofInt (left.toWord.toInt.tmod right.toWord.toInt)))

def negate : Value → Logged Value
  | .int i =>
    match Word.ofInt? (-i.toInt) with
    | some n => pure (.int n)
    -- the least word has no negative
    | none => pure (.float (-Binary64.ofWord i))
  | .float x => pure (.float (-x))
  | v => ArithOp.mul.apply v (.int (-1))

def affirm : Value → Logged Value
  | .int i => pure (.int i)
  | .float x => pure (.float x)
  | v => ArithOp.mul.apply v (.int 1)

end ConstExpr
