import ConstExpr.Number.Word

/-!
Floating-point numbers read through their bits: each is not a number, an infinity, or a signed
mantissa times a power of two. Order, truncation and text are computed from that reading in
exact integers.
-/

namespace ConstExpr.Binary64

inductive Reading where
  | nan
  | infinite (negative : Bool)
  | finite (negative : Bool) (mantissa : Nat) (exponent : Int)
deriving DecidableEq

def signBit : Nat := 0x8000000000000000

def hiddenBit : Nat := 0x10000000000000

/-- A finite float is its mantissa times two to its exponent. -/
def read (x : Float) : Reading :=
  let bits : Nat := x.toBits.toNat
  let negative : Bool := signBit ≤ bits
  let exponent : Nat := bits / hiddenBit % 2048
  let fraction : Nat := bits % hiddenBit
  if exponent = 2047 then (if fraction = 0 then .infinite negative else .nan)
  -- below the least normal number the hidden bit does not count
  else if exponent = 0 then .finite negative fraction (-1074)
  else .finite negative (fraction + hiddenBit) (exponent - 1075)

/-- The place of a float on the line of all floats; both zeros are at the origin, and what is not
a number has no place. -/
def rank (x : Float) : Option Int :=
  let bits : Nat := x.toBits.toNat
  let magnitude : Nat := bits % signBit
  if magnitude > 2047 * hiddenBit then none
  else some (if signBit ≤ bits then -magnitude else magnitude)

/-- Compares two floats; `none` as soon as one is not a number. -/
def order? (x y : Float) : Option Ordering :=
  match rank x, rank y with
  | some a, some b => some (compare a b)
  | _, _ => none

/-- Numeric equality: the zeros are equal, and what is not a number equals nothing. -/
def same (x y : Float) : Bool := order? x y == some .eq

def isZero (x : Float) : Bool := rank x == some 0

def truncate (negative : Bool) (mantissa : Nat) (exponent : Int) : Int :=
  let whole : Int :=
    if 0 ≤ exponent then mantissa * Nat.pow 2 exponent.toNat
    else mantissa / Nat.pow 2 (-exponent).toNat
  if negative then -whole else whole

/-- The integer part modulo 2^64, as a word; zero for what is not finite. -/
def toWord (x : Float) : Int64 :=
  match read x with
  | .finite negative mantissa exponent => Int64.ofInt (truncate negative mantissa exponent)
  | _ => 0

def ofWord (i : Int64) : Float := Float.ofInt i.toInt

def infinity : Float := Float.ofBits 0x7FF0000000000000

/-- The float nearest to `mantissa * 10 ^ exponent`. A value at or above 10^310 is infinite and one
below 10^-330 is zero, which is settled without computing the power. -/
def ofDecimal (mantissa : Nat) (exponent : Int) : Float :=
  let top := (Nat.toDigits 10 mantissa).length + exponent
  if mantissa = 0 ∨ top < -330 then 0.0
  else if 311 ≤ top then infinity
  else if exponent < 0 then Float.ofScientific mantissa true (-exponent).toNat
  else Float.ofScientific mantissa false exponent.toNat

end ConstExpr.Binary64
