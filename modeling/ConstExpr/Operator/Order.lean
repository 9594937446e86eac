import ConstExpr.Operator.Basic
import ConstExpr.Value.Conversion

/-!
Comparison of values. Numbers and numeric strings compare by value, other strings by bytes; null
and booleans compare by truth; arrays by size and then entry by entry. Some pairs have no order.
-/

namespace ConstExpr

def orderTruth (a b : Bool) : Ordering := compare a.toNat b.toNat

/-- A numeric string compares with a number by value, any other by the number's text. -/
def orderStringNumber (string number : Value) (n : Number) : Option Ordering :=
  match string.wholeNumber? with
  | some m => m.order? n
  | none => some (Bytes.order string.toBytes number.toBytes)

namespace Value

def orderScalars? : Value → Value → Option Ordering
  | int i, int j => some (compare i.toInt j.toInt)
  | int i, float y => Binary64.order? (Binary64.ofWord i) y
  | float x, int j => Binary64.order? x (Binary64.ofWord j)
  | float x, float y => Binary64.order? x y
  | str s, str t =>
    match (str s).wholeNumber?, (str t).wholeNumber? with
    | some n, some m => n.order? m
    | _, _ => some (Bytes.order s t)
  | null, str t => some (if t.isEmpty then .eq else .lt)
  | str s, null => some (if s.isEmpty then .eq else .gt)
  | null, v => some (orderTruth false v.truth)
  | v, null => some (orderTruth v.truth false)
  | bool b, v => some (orderTruth b v.truth)
  | v, bool b => some (orderTruth v.truth b)
  | str s, int j => orderStringNumber (str s) (int j) (.int j)
  | str s, float y => orderStringNumber (str s) (float y) (.float y)
  | int i, str t => (orderStringNumber (str t) (int i) (.int i)).map Ordering.swap
  | float x, str t => (orderStringNumber (str t) (float x) (.float x)).map Ordering.swap
  | array _, _ => some .gt
  | _, array _ => some .lt

mutual

def order? : Value → Value → Option Ordering
  | array ⟨entries, _⟩, array other =>
    if entries.length = other.size then orderEntries? entries other
    else some (compare entries.length other.size)
  | v, w => orderScalars? v w

def orderEntries? : List (Key × Value) → Table Value → Option Ordering
  | [], _ => some .eq
  | (key, value) :: rest, other =>
    match other.get? key with
    -- a key that the other array lacks leaves the two without order
    | none => none
    | some found =>
      match order? value found with
      | some .eq => orderEntries? rest other
      -- the first difference decides, whatever follows
      | decided => decided

end

/-- Equality after conversions. -/
def equal (a b : Value) : Bool := order? a b == some .eq

mutual

/-- Equality of kind and contents; arrays agree in the order of their entries too. -/
def identical : Value → Value → Bool
  | null, null => true
  | bool a, bool b => a == b
  | int a, int b => a == b
  | float x, float y => Binary64.same x y
  | str s, str t => s == t
  | array ⟨entries, _⟩, array ⟨others, _⟩ => identicalEntries entries others
  | _, _ => false

def identicalEntries : List (Key × Value) → List (Key × Value) → Bool
  | [], [] => true
  | (key, value) :: rest, (other, found) :: others =>
    key == other && identical value found && identicalEntries rest others
  | _, _ => false

end

def spaceship (a b : Value) : Int64 :=
  match order? a b with
  | some .lt => -1
  | some .eq => 0
  -- pairs without order count as greater
  | _ => 1

end Value

def Relation.holds (r : Relation) (a b : Value) : Bool :=
  match r with
  | equal => a.equal b
  | notEqual => !a.equal b
  | identical => a.identical b
  | notIdentical => !a.identical b
  | less => a.order? b == some .lt
  | lessEqual => a.order? b == some .lt || a.order? b == some .eq
  | greater => a.order? b == some .gt
  | greaterEqual => a.order? b == some .gt || a.order? b == some .eq

end ConstExpr
