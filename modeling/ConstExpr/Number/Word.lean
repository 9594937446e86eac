import ConstExpr.Text.Bytes

/-!
Integers of a constant expression are 64-bit words. Arithmetic is done on exact integers, and a
result is a word again only when it lies in the range of words.
-/

namespace ConstExpr.Word

def ofInt? (n : Int) : Option Int64 :=
  if Int64.minValue.toInt ≤ n ∧ n ≤ Int64.maxValue.toInt then some (Int64.ofInt n) else none

theorem ofInt?_eq_some_iff {n : Int} {i : Int64} : ofInt? n = some i ↔ i.toInt = n := by
  constructor
  · intro found
    simp only [ofInt?] at found
    split at found
    next range =>
      cases found
      exact Int64.toInt_ofInt_of_le range.1 (Int.lt_add_one_of_le range.2)
    next => cases found
  · intro value
    subst value
    have least := Int64.minValue_le_toInt i
    have greatest := Int64.toInt_le i
    simp only [ofInt?, least, greatest, and_self, if_true, Int64.ofInt_toInt]

def next (i : Int64) : Int64 :=
  if i = Int64.maxValue then i else i + 1

def ofBool (b : Bool) : Int64 := if b then 1 else 0

def natText (n : Nat) : Bytes := Bytes.ofAscii (Nat.toDigits 10 n)

def text (i : Int64) : Bytes :=
  if i.toInt < 0 then 45 :: natText i.toInt.natAbs else natText i.toInt.natAbs

/-- Reads a decimal text as `text` writes it: no plus sign, no leading zero, no negative zero. -/
def ofText? (s : Bytes) : Option Int64 :=
  let negative := s.head? == some 45
  let digits := if negative then s.tail else s
  if digits.isEmpty || !digits.all Bytes.isDigit then none
  else if digits.head? == some 48 && (negative || digits.length > 1) then none
  else
    let n : Int := Bytes.toNat digits
    ofInt? (if negative then -n else n)

def pow? (base : Int64) (exponent : Nat) : Option Int64 :=
  -- beyond exponent 63 only the bases -1, 0 and 1 have a power
  if base.toInt.natAbs ≤ 1 then
    ofInt? (base.toInt.pow (if exponent ≤ 1 then exponent else 2 - exponent % 2))
  else if exponent < 64 then ofInt? (base.toInt.pow exponent)
  else none

/-- The word congruent to the integer times a power of two. -/
def shiftLeft (i : Int64) (n : Nat) : Int64 :=
  if n < 64 then Int64.ofInt (i.toInt * Nat.pow 2 n) else 0

/-- The quotient by a power of two, rounded down. -/
def shiftRight (i : Int64) (n : Nat) : Int64 :=
  if n < 64 then Int64.ofInt (i.toInt / Nat.pow 2 n) else if i.toInt < 0 then -1 else 0

end ConstExpr.Word
