import ConstExpr.Number.Binary64

/-!
Numbers written in strings. A string may begin with blanks and a number: a sign, digits with or
without a point, an exponent. The number is an integer when it has neither point nor exponent and
is a word, and a float otherwise.
-/

namespace ConstExpr

inductive Number where
  | int (i : Int64)
  | float (x : Float)

namespace Number

def toFloat : Number → Float
  | int i => Binary64.ofWord i
  | float x => x

def order? : Number → Number → Option Ordering
  -- two integers compare exactly, any other pair as floats
  | int i, int j => some (compare i.toInt j.toInt)
  | a, b => Binary64.order? a.toFloat b.toFloat

end Number

structure Numeral where
  negative : Bool
  whole : Bytes
  fraction : Option Bytes
  exponent : Option Int

namespace Numeral

def sign : Bytes → Bool × Bytes
  | 45 :: rest => (true, rest)
  | 43 :: rest => (false, rest)
  | s => (false, s)

def digits (s : Bytes) : Bytes × Bytes := s.span Bytes.isDigit

/-- A point and the digits after it; a point with no digit on either side is no part of a number. -/
def point (whole : Bytes) : Bytes → Option Bytes × Bytes
  | 46 :: rest =>
    let (fraction, after) := digits rest
    if whole.isEmpty && fraction.isEmpty then (none, 46 :: rest) else (some fraction, after)
  | s => (none, s)

def power (s : Bytes) : Option Int × Bytes :=
  match s with
  | 101 :: rest | 69 :: rest =>
    let (negative, unsigned) := sign rest
    let (ds, after) := digits unsigned
    -- the letter alone is no part of a number
    if ds.isEmpty then (none, s)
    else (some (if negative then -(Bytes.toNat ds : Int) else Bytes.toNat ds), after)
  | _ => (none, s)

/-- The longest numeral at the front of a string, and what follows it. -/
def read? (s : Bytes) : Option (Numeral × Bytes) :=
  let (negative, unsigned) := sign s
  let (whole, afterWhole) := digits unsigned
  let (fraction, afterPoint) := point whole afterWhole
  if whole.isEmpty && fraction.isNone then none
  else
    let (exponent, rest) := power afterPoint
    some (⟨negative, whole, fraction, exponent⟩, rest)

def toFloat (n : Numeral) : Float :=
  let fraction := n.fraction.getD []
  let x := Binary64.ofDecimal (Bytes.toNat (n.whole ++ fraction))
    (n.exponent.getD 0 - fraction.length)
  if n.negative then -x else x

def value (n : Numeral) : Number :=
  if n.fraction.isSome || n.exponent.isSome then .float n.toFloat
  else
    let whole : Int := Bytes.toNat n.whole
    match Word.ofInt? (if n.negative then -whole else whole) with
    | some i => .int i
    | none => .float n.toFloat

end Numeral

/-- The number a string begins with, after blanks, and whether only blanks follow it. -/
def numericPrefix? (s : Bytes) : Option (Number × Bool) :=
  (Numeral.read? (s.dropWhile Bytes.isBlank)).map fun (n, rest) =>
    (n.value, rest.all Bytes.isBlank)

end ConstExpr
