import ConstExpr.Number.Decimal

/-!
The two texts of a float: the one that a string conversion gives, with 14 significant digits, and
the exact one, whose digits read back as the same float.
-/

namespace ConstExpr.Binary64

/-- Exponents from -4 to 13 are written in place; any other is written after a capital E with
its sign, and then the mantissa always has a fraction. -/
def printedDigits (d : Decimal.Digits) : List Char :=
  if d.exponent < -4 ∨ 14 ≤ d.exponent then
    let fraction := d.digits.drop 1
    d.digits.take 1 ++ '.' :: (if fraction.isEmpty then ['0'] else fraction) ++
      'E' :: (if d.exponent < 0 then '-' else '+') :: Nat.toDigits 10 d.exponent.natAbs
  else Decimal.positional d

def printed (x : Float) : List Char :=
  match read x with
  | .nan => ['N', 'A', 'N']
  | .infinite negative => (if negative then ['-'] else []) ++ ['I', 'N', 'F']
  | .finite negative mantissa exponent =>
    (if negative then ['-'] else []) ++
      if mantissa = 0 then ['0']
      else
        let (num, den) := Decimal.fraction mantissa exponent
        printedDigits (Decimal.significant 14 num den)

/-- Exponents from -4 to 15 are written in place, always with a fraction; any other is written
after a small e, with a fraction only where there is one. -/
def exactDigits (d : Decimal.Digits) : List Char :=
  if d.exponent < -4 ∨ 16 ≤ d.exponent then
    let fraction := d.digits.drop 1
    d.digits.take 1 ++ (if fraction.isEmpty then [] else '.' :: fraction) ++
      'e' :: Decimal.signed d.exponent
  else
    let text := Decimal.positional d
    if text.contains '.' then text else text ++ ['.', '0']

def exact (x : Float) : List Char :=
  match read x with
  | .nan => ['N', 'a', 'N']
  | .infinite negative => (if negative then ['-'] else []) ++ ['i', 'n', 'f']
  | .finite negative mantissa exponent =>
    (if negative then ['-'] else []) ++
      if mantissa = 0 then ['0', '.', '0'] else exactDigits (Decimal.shortest mantissa exponent)

end ConstExpr.Binary64
