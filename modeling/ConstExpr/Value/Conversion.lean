import ConstExpr.Number.Text
import ConstExpr.Value.Basic
import ConstExpr.Value.Numeric

/-!
Conversions between the kinds of values. Every conversion is total except the two that reject:
arithmetic takes no arrays and no strings without a number in front, and an array is no key.
-/

namespace ConstExpr.Value

def truth : Value → Bool
  | null => false
  | bool b => b
  | int i => i != 0
  | float x => !Binary64.isZero x
  | str s => !(s.isEmpty || s == [48])
  | array t => !t.isEmpty

def toBytes : Value → Bytes
  | null => []
  | bool b => if b then [49] else []
  | int i => Word.text i
  | float x => Bytes.ofAscii (Binary64.printed x)
  | str s => s
  | array _ => Bytes.ofAscii ['A', 'r', 'r', 'a', 'y']

def display (v : Value) : String := v.toBytes.display

def toWord : Value → Int64
  | null => 0
  | bool b => Word.ofBool b
  | int i => i
  | float x => Binary64.toWord x
  -- a string counts as the number it begins with
  | str s =>
    match numericPrefix? s with
    | some (.int i, _) => i
    | some (.float x, _) => Binary64.toWord x
    | none => 0
  | array t => Word.ofBool !t.isEmpty

def toFloat : Value → Float
  | float x => x
  | str s =>
    match numericPrefix? s with
    | some (n, _) => n.toFloat
    | none => 0.0
  | v => Binary64.ofWord v.toWord

/-- The operand of arithmetic that a value stands for. -/
def number? : Value → Option Number
  | null => some (.int 0)
  | bool b => some (.int (Word.ofBool b))
  | int i => some (.int i)
  | float x => some (.float x)
  | str s => (numericPrefix? s).map Prod.fst
  | array _ => none

/-- The number of a string that holds nothing else but blanks. -/
def wholeNumber? : Value → Option Number
  | str s =>
    match numericPrefix? s with
    | some (n, true) => some n
    | _ => none
  | _ => none

end ConstExpr.Value

namespace ConstExpr

/-- The key that a value stands for between brackets. A string that is the decimal text of a word
stands for that word. -/
def Key.ofValue? : Value → Option Key
  | .null => some (.str [])
  | .bool b => some (.int (Word.ofBool b))
  | .int i => some (.int i)
  | .float x => some (.int (Binary64.toWord x))
  | .str s =>
    match Word.ofText? s with
    | some i => some (.int i)
    | none => some (.str s)
  | .array _ => none

end ConstExpr
