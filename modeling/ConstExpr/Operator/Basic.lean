/-!
The operators of constant expressions. The arithmetic, bitwise and relational ones form families of
their own, whose members differ only in the function they compute.
-/

namespace ConstExpr

inductive ArithOp where
  | add | sub | mul | div | pow
deriving DecidableEq

inductive MaskOp where
  | and | or | xor
deriving DecidableEq

inductive Relation where
  | equal | identical | notEqual | notIdentical | less | lessEqual | greater | greaterEqual
deriving DecidableEq

/-- Connectives of truth values. The conjunction and the disjunction each have two spellings that
differ in how tightly they bind. -/
inductive Connective where
  | and | or | lowAnd | lowOr | lowXor
deriving DecidableEq

inductive BinaryOp where
  | arith (op : ArithOp)
  | modulo
  | concat
  | relation (r : Relation)
  | spaceship
  | logic (op : Connective)
  | mask (op : MaskOp)
  | shiftLeft
  | shiftRight
  | coalesce
  | instanceOf
deriving DecidableEq

inductive UnaryOp where
  | plus | minus | not | bitNot | increment | decrement | silence
deriving DecidableEq

inductive CastKind where
  | int | bool | float | string | array | object | unset
deriving DecidableEq

def ArithOp.symbol : ArithOp → String
  | add => "+"
  | sub => "-"
  | mul => "*"
  | div => "/"
  | pow => "**"

def MaskOp.symbol : MaskOp → String
  | and => "&"
  | or => "|"
  | xor => "^"

end ConstExpr
