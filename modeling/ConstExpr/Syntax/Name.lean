import ConstExpr.Syntax.Span
import ConstExpr.Text.Letter

/-!
Names are segments divided by backslashes. How a name begins tells where it is looked up: with a
separator from the top, with the word `namespace` from the current namespace.
-/

namespace ConstExpr

inductive NameKind where
  | unqualified | qualified | fullyQualified | relative
deriving DecidableEq

structure Name where
  parts : List String
  kind : NameKind
  span : Span := {}
deriving DecidableEq

inductive SpecialClass where
  | self | parent | static
deriving DecidableEq

def pieces (c : Char) : List Char → List (List Char)
  | [] => [[]]
  | x :: xs =>
    if x = c then [] :: pieces c xs
    else
      match pieces c xs with
      | [] => [[x]]
      | p :: ps => (x :: p) :: ps

namespace Name

def segments (cs : List Char) : List String :=
  -- empty pieces are no segments
  ((pieces '\\' cs).filter (!·.isEmpty)).map String.ofList

def relativeMark : List Char := ['n', 'a', 'm', 'e', 's', 'p', 'a', 'c', 'e', '\\']

def isRelative (cs : List Char) : Bool :=
  (cs.take relativeMark.length).map Char.toLower == relativeMark

def parse (text : String) : Name :=
  let cs := text.toList
  if cs.head? = some '\\' then { parts := segments cs.tail, kind := .fullyQualified }
  else if isRelative cs then
    { parts := segments (cs.drop relativeMark.length), kind := .relative }
  else if cs.contains '\\' then { parts := segments cs, kind := .qualified }
  else { parts := segments cs, kind := .unqualified }

/-- The fully qualified name with the segments of a text, its separators in front left out. -/
def fullyQualified (text : String) : Name :=
  { parse (trimLeft '\\' text) with kind := .fullyQualified }

def isFullyQualified (n : Name) : Bool := n.kind == .fullyQualified

def isUnqualified (n : Name) : Bool := n.kind == .unqualified

def last (n : Name) : String := n.parts.getLast?.getD ""

def text (n : Name) : String := String.intercalate "\\" n.parts

/-- The special class that an unqualified name stands for. -/
def special? (n : Name) : Option SpecialClass :=
  if n.isUnqualified then
    match foldCase n.last with
    | "self" => some .self
    | "parent" => some .parent
    | "static" => some .static
    | _ => none
  else none

end Name

def qualify (namespaceName name : String) : String :=
  -- the global namespace adds nothing
  if namespaceName.isEmpty then name else namespaceName ++ "\\" ++ name

/-- The key under which classes and functions are found: without separators in front, and
ignoring case. -/
def symbolKey (name : String) : String := foldCase (trimLeft '\\' name)

def shortName (name : String) : String :=
  match splitLast '\\' name with
  | some (_, short) => short
  | none => name

def namespaceOf (name : String) : String :=
  match splitLast '\\' name with
  | some (space, _) => space
  | none => ""

end ConstExpr
