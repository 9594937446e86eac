/-!
Byte strings. A string constant is any sequence of bytes, so the text of a value is a list of
bytes; it becomes characters only where a message shows it, and there every maximal ill-formed
piece of UTF-8 reads as one replacement character.
-/

namespace ConstExpr

abbrev Bytes := List UInt8

namespace Bytes

def ofString (s : String) : Bytes := s.toUTF8.data.toList

def ofAscii (cs : List Char) : Bytes := cs.map Char.toUInt8

def isBlank (b : UInt8) : Bool :=
  b == 32 || (9 ≤ b && b ≤ 13)

def isDigit (b : UInt8) : Bool := 48 ≤ b && b ≤ 57

def digit (b : UInt8) : Nat := b.toNat - 48

def toNat (digits : Bytes) : Nat :=
  digits.foldl (fun n b => 10 * n + digit b) 0

/-- The first difference decides, and a proper beginning comes before the longer string. -/
def order : Bytes → Bytes → Ordering
  | [], [] => .eq
  | [], _ :: _ => .lt
  | _ :: _, [] => .gt
  | a :: as, b :: bs => (compare a.toNat b.toNat).then (order as bs)

/-- A character whose first bytes have been read: the code collected so far, the number of bytes
still missing, and the range the next byte must lie in. -/
structure Pending where
  code : Nat
  missing : Nat
  low : UInt8 := 128
  high : UInt8 := 191

def replacement : Char := Char.ofNat 0xFFFD

def start (b : UInt8) : Except Char Pending :=
  let lead (mask missing : Nat) : Pending := ⟨b.toNat - mask, missing, 128, 191⟩
  if b < 0x80 then .error (Char.ofNat b.toNat)
  -- 0xC0 and 0xC1 would only begin overlong forms
  else if b < 0xC2 then .error replacement
  else if b < 0xE0 then .ok (lead 0xC0 1)
  else if b < 0xF0 then
    .ok { lead 0xE0 2 with
      low := if b == 0xE0 then 0xA0 else 128
      high := if b == 0xED then 0x9F else 191 }
  else if b < 0xF5 then
    .ok { lead 0xF0 3 with
      low := if b == 0xF0 then 0x90 else 128
      high := if b == 0xF4 then 0x8F else 191 }
  else .error replacement

/-- Reads bytes as characters after the beginning of one. A byte that cannot continue it closes
the ill-formed piece and is read again as a first byte. -/
def charsAfter : Option Pending → Bytes → List Char
  | none, [] => []
  | some _, [] => [replacement]
  | none, b :: rest =>
    match start b with
    | .error c => c :: charsAfter none rest
    | .ok p => charsAfter (some p) rest
  | some p, b :: rest =>
    if p.low ≤ b && b ≤ p.high then
      let code := 64 * p.code + (b.toNat - 128)
      if p.missing ≤ 1 then Char.ofNat code :: charsAfter none rest
      else charsAfter (some ⟨code, p.missing - 1, 128, 191⟩) rest
    else
      match start b with
      | .error c => replacement :: c :: charsAfter none rest
      | .ok q => replacement :: charsAfter (some q) rest

def display (s : Bytes) : String := String.ofList (charsAfter none s)

end Bytes

end ConstExpr
