import ConstExpr.Number.Binary64
import ConstExpr.Value.Table

/-!
Compile-time values: null, booleans, words, floats, byte strings and arrays of values. Two values
are the same when they agree in kind and contents, the order of array entries aside.
-/

namespace ConstExpr

inductive Value where
  | null
  | bool (b : Bool)
  | int (i : Int64)
  | float (x : Float)
  | str (s : Bytes)
  | array (t : Table Value)

namespace Value

instance : Inhabited Value := ⟨null⟩

def text (s : String) : Value := str (Bytes.ofString s)

def kind : Value → String
  | null => "null"
  | bool _ => "bool"
  | int _ => "int"
  | float _ => "float"
  | str _ => "string"
  | array _ => "array"

def isNull : Value → Bool
  | null => true
  | _ => false

def table? : Value → Option (Table Value)
  | array t => some t
  | _ => none

mutual

/-- Same kind and same contents. Floats are the same when numerically equal, and arrays when they
hold the same values under the same keys in any order. -/
def same : Value → Value → Bool
  | null, null => true
  | bool a, bool b => a == b
  | int a, int b => a == b
  | float x, float y => Binary64.same x y
  | str s, str t => s == t
  | array ⟨entries, _⟩, array other => entries.length == other.size && sameEntries entries other
  | _, _ => false

def sameEntries : List (Key × Value) → Table Value → Bool
  | [], _ => true
  | (key, value) :: rest, other =>
    (match other.get? key with
      | some found => same value found
      | none => false) && sameEntries rest other

end

end Value

end ConstExpr
