import ConstExpr.Number.Binary64

/-!
Decimal digits of a positive rational. A number is written either with a fixed count of
significant digits, rounded to the nearest and at a tie to the even one, or with the fewest digits
that still single it out among the floats.
-/

namespace ConstExpr.Decimal

def length (n : Nat) : Nat := (Nat.toDigits 10 n).length

def scale (num den : Nat) (k : Int) : Nat × Nat :=
  if 0 ≤ k then (num * Nat.pow 10 k.toNat, den) else (num, den * Nat.pow 10 (-k).toNat)

/-- The exponent of the greatest power of ten that is not above the fraction. -/
def magnitude (num den : Nat) : Int :=
  let guess : Int := (length num : Int) - length den
  let (n, d) := scale num den (-guess)
  -- the number of digits is off by one at most
  if d ≤ n then guess else guess - 1

def roundEven (num den : Nat) : Nat :=
  let floor := num / den
  let twice := 2 * (num % den)
  if twice < den then floor
  else if den < twice then floor + 1
  else if floor % 2 = 0 then floor else floor + 1

structure Digits where
  digits : List Char
  exponent : Int

def Digits.ofNat (n count : Nat) (exponent : Int) : Digits :=
  let all := Nat.toDigits 10 n
  { digits := (all.reverse.dropWhile (· == '0')).reverse
    -- rounding up to a power of ten makes the number one digit longer
    exponent := exponent + ((all.length : Int) - count) }

def significant (count : Nat) (num den : Nat) : Digits :=
  let exponent := magnitude num den
  let (n, d) := scale num den (count - 1 - exponent)
  .ofNat (roundEven n d) count exponent

def fraction (mantissa : Nat) (exponent : Int) : Nat × Nat :=
  if 0 ≤ exponent then (mantissa * Nat.pow 2 exponent.toNat, 1)
  else (mantissa, Nat.pow 2 (-exponent).toNat)

/-- Looks on the grid with `count` digits for a decimal that no other float is nearer to. All
quantities are multiples of one unit: the value, and the distances within which a decimal still
reads back, which count as reached when `closed`. Of the two neighbours on the grid the nearer one
wins, and the upper one at a tie. -/
def onGrid? (num den below above : Nat) (closed : Bool) (exponent : Int) (count : Nat) :
    Option Digits :=
  let (n, d) := scale num den (count - 1 - exponent)
  let (low, _) := scale below den (count - 1 - exponent)
  let (high, _) := scale above den (count - 1 - exponent)
  let down := n % d
  let up := d - n % d
  let reached (distance limit : Nat) := distance < limit || (closed && distance == limit)
  if reached up high && (!reached down low || up ≤ down) then
    some (.ofNat (n / d + 1) count exponent)
  else if reached down low then some (.ofNat (n / d) count exponent)
  else none

def shortest (mantissa : Nat) (exponent : Int) : Digits :=
  let (num, den) := fraction (4 * mantissa) (exponent - 2)
  let (above, _) := fraction 2 (exponent - 2)
  -- below a power of two the floats are twice as close
  let (below, _) := fraction (if mantissa = Binary64.hiddenBit then 1 else 2) (exponent - 2)
  let first := magnitude num den
  ((List.range 18).findSome? (onGrid? num den below above (mantissa % 2 == 0) first)).getD
    (significant 17 num den)

def positional (d : Digits) : List Char :=
  if d.exponent < 0 then
    ['0', '.'] ++ List.replicate (-d.exponent - 1).toNat '0' ++ d.digits
  else
    let whole := d.exponent.toNat + 1
    let fraction := d.digits.drop whole
    (d.digits.take whole ++ List.replicate (whole - d.digits.length) '0') ++
      (if fraction.isEmpty then [] else '.' :: fraction)

def signed (n : Int) : List Char :=
  if n < 0 then '-' :: Nat.toDigits 10 n.natAbs else Nat.toDigits 10 n.natAbs

end ConstExpr.Decimal
