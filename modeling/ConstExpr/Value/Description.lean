import ConstExpr.Number.Text
import ConstExpr.Text.Quoted
import ConstExpr.Value.Basic

/-!
The description of a value spells its kind and its exact contents.
-/

namespace ConstExpr

def bracketed (opening closing : String) (items : List String) : String :=
  opening ++ String.intercalate ", " items ++ closing

/-- Integer keys by value, string keys as lists of byte numbers. -/
def Key.describe : Key → String
  | .int i => "Int(" ++ toString i.toInt ++ ")"
  | .str s => "Str(" ++ bracketed "[" "]" (s.map fun b => toString b.toNat) ++ ")"

namespace Value

mutual

def describe : Value → String
  | null => "Null"
  | bool b => if b then "Bool(true)" else "Bool(false)"
  | int i => "Int(" ++ toString i.toInt ++ ")"
  | float x => "Float(" ++ String.ofList (Binary64.exact x) ++ ")"
  | str s => "String(" ++ Quoted.render s.display ++ ")"
  | array ⟨entries, _⟩ => bracketed "\x7b" "\x7d" (describeEntries entries)

def describeEntries : List (Key × Value) → List String
  | [] => []
  | (key, value) :: rest => (key.describe ++ ": " ++ describe value) :: describeEntries rest

end

end Value

end ConstExpr
