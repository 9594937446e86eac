import ConstExpr.Class.Magic
import ConstExpr.Evaluation.Array
import ConstExpr.Operator.Apply

/-!
The value of an expression. Named constants are looked up in a scope; what has no compile-time
value is null. An operand that cannot change the result any more is not evaluated.
-/

namespace ConstExpr

inductive ConstantName where
  | resolved (name : String)
  -- not defined, so it stands for its own name
  | literal (name : String)
deriving DecidableEq

namespace ConstantName

def text : ConstantName → String
  | resolved name | literal name => name

def isResolved : ConstantName → Bool
  | resolved _ => true
  | literal _ => false

end ConstantName

structure Resolution where
  value : Value
  constant : Option ConstantName := none

structure Scope where
  constant : Name → Eval Resolution
  classConstant : Name → String → Eval Resolution
  magic : MagicKind → Span → Value

/-- The result that the left operand alone decides. -/
def BinaryOp.decided? (op : BinaryOp) (left : Value) : Option Value :=
  match op with
  | logic .and | logic .lowAnd => if left.truth then none else some (.bool false)
  | logic .or | logic .lowOr => if left.truth then some (.bool true) else none
  | coalesce => if left.isNull then none else some left
  | _ => none

mutual

def Expr.value (scope : Scope) : Expr → Eval Value
  | .int i _ => pure (.int i)
  | .float x _ => pure (.float x)
  | .string s _ => pure (.str s)
  | .magic kind span => pure (scope.magic kind span)
  | .constant name _ => do
    let resolution ← scope.constant name
    return resolution.value
  | .classConstant (.named cls) name _ => do
    let resolution ← scope.classConstant cls name
    return resolution.value
  | .array items _ => do
    let table ← Expr.tableOf scope items .empty
    return .array table
  | .index container (some offset) _ => do
    let c ← container.value scope
    let o ← offset.value scope
    Eval.logged (c.element o)
  | .binary left op right _ => do
    let l ← left.value scope
    match op.decided? l with
    | some v => return v
    -- the right operand is not evaluated when the left one decides
    | none =>
      let r ← right.value scope
      Eval.logged (op.apply l r)
  | .unary op operand _ => do
    let v ← operand.value scope
    Eval.logged (op.apply v)
  | .cast kind operand _ => do
    let v ← operand.value scope
    Eval.logged (kind.apply v)
  | .ternary condition (some ifTrue) ifFalse _ => do
    let c ← condition.value scope
    if c.truth then ifTrue.value scope else ifFalse.value scope
  -- without a middle part the condition is its own result
  | .ternary condition none ifFalse _ => do
    let c ← condition.value scope
    if c.truth then return c else ifFalse.value scope
  -- anything else is no constant expression
  | _ => pure .null

def Expr.tableOf (scope : Scope) : List ArrayItem → Table Value → Eval (Table Value)
  | [], table => pure table
  | ⟨_, value, _, true, _⟩ :: rest, table => do
    let v ← value.value scope
    let longer ← Eval.logged (table.unpack v)
    Expr.tableOf scope rest longer
  | ⟨some key, value, _, false, _⟩ :: rest, table => do
    -- the key is evaluated before the value
    let k ← key.value scope
    let v ← value.value scope
    let longer ← Eval.logged (table.store k v)
    Expr.tableOf scope rest longer
  | ⟨none, value, _, false, _⟩ :: rest, table => do
    let v ← value.value scope
    let longer ← Eval.logged (table.append v)
    Expr.tableOf scope rest longer

end

/-- The value of a whole expression, with the constant it refers to if it is a reference. -/
def Expr.resolve (scope : Scope) : Expr → Eval Resolution
  | .constant name _ => scope.constant name
  | .classConstant (.named cls) name _ => scope.classConstant cls name
  | e => do
    let v ← e.value scope
    return { value := v }

end ConstExpr
