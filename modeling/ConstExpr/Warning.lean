import ConstExpr.Value.Conversion

/-!
Warnings. An operation that its operands do not allow has the value null and leaves a warning, so
that evaluation goes on.
-/

namespace ConstExpr

inductive Warning where
  | divisionByZero
  | moduloByZero
  | unsupportedOperands (left symbol right : String)
  | negativeShift
  | bitwiseNot (kind : String)
  | arrayToString
  | undefinedConstant (className name : String)
  | notUnpackable
  | illegalOffset
  | indexOccupied
  | undefinedKey (key : String)
  | uninitializedOffset (offset : Int64)
  | notIndexable (kind : String)
deriving DecidableEq

def Warning.message : Warning → String
  | divisionByZero => "Division by zero"
  | moduloByZero => "Modulo by zero"
  | unsupportedOperands left symbol right =>
    "Unsupported operand types: " ++ left ++ " " ++ symbol ++ " " ++ right
  | negativeShift => "Bit shift by negative number"
  | bitwiseNot kind => "Cannot perform bitwise not on " ++ kind
  | arrayToString => "Array to string conversion"
  | undefinedConstant className name => "Undefined constant " ++ className ++ "::" ++ name
  | notUnpackable => "Only arrays can be unpacked"
  | illegalOffset => "Illegal offset type"
  | indexOccupied => "Cannot add element to the array as the next element is already occupied"
  | undefinedKey key => "Undefined array key " ++ key
  | uninitializedOffset offset => "Uninitialized string offset " ++ toString offset.toInt
  | notIndexable kind => "Trying to access array offset on " ++ kind

/-- A result with the warnings that came with it, in order. -/
structure Logged (α : Type) where
  value : α
  warnings : List Warning := []

namespace Logged

instance : Monad Logged where
  pure a := ⟨a, []⟩
  bind x f := ⟨(f x.value).value, x.warnings ++ (f x.value).warnings⟩

/-- Null, with the reason. -/
def reject (w : Warning) : Logged Value := ⟨.null, [w]⟩

def warn (w : Warning) : Logged Unit := ⟨(), [w]⟩

end Logged

end ConstExpr
