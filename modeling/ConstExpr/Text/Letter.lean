/-!
Names ignore the case of ASCII letters, and drop separators at their ends.
-/

namespace ConstExpr

/-- Only ASCII letters have a case. -/
def foldCase (s : String) : String := s.map Char.toLower

def sameIgnoringCase (s t : String) : Bool := foldCase s == foldCase t

def trimLeft (c : Char) (s : String) : String :=
  String.ofList (s.toList.dropWhile (· == c))

def trimRight (c : Char) (s : String) : String :=
  String.ofList (s.toList.reverse.dropWhile (· == c)).reverse

def trimBoth (c : Char) (s : String) : String := trimRight c (trimLeft c s)

/-- Splits at the last `c`, which is in neither part. -/
def splitLast (c : Char) (s : String) : Option (String × String) :=
  let reversed := s.toList.reverse
  match reversed.dropWhile (· != c) with
  | [] => none
  | _ :: before =>
    some (String.ofList before.reverse, String.ofList (reversed.takeWhile (· != c)).reverse)

end ConstExpr
