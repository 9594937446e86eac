import ConstExpr.Text.Shapeless

/-!
Quoted text: a text between double quotes in which every character can be seen. Quote, backslash
and the common controls have short escapes; whatever else has no shape is given by its code.
-/

namespace ConstExpr.Quoted

/-- A code in hexadecimal between braces. -/
def escapedCode (c : Char) : List Char :=
  ['\\', 'u', '\x7b'] ++ Nat.toDigits 16 c.toNat ++ ['\x7d']

def char (c : Char) : List Char :=
  if c == '\x00' then ['\\', '0']
  else if c == '\t' then ['\\', 't']
  else if c == '\n' then ['\\', 'n']
  else if c == '\r' then ['\\', 'r']
  else if c == '"' then ['\\', '"']
  else if c == '\\' then ['\\', '\\']
  else if c.toNat < 32 || c.toNat == 127 || isShapeless c then escapedCode c
  else [c]

def render (s : String) : String :=
  String.ofList (['"'] ++ s.toList.flatMap char ++ ['"'])

end ConstExpr.Quoted
