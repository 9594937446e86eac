import ConstExpr.Evaluation.Constant
import ConstExpr.Syntax.Traversal

/-!
Static variables of a body and defaults of parameters. Nested functions, classes and closures own
the static variables inside them, so a search for those of a body does not enter them.
-/

namespace ConstExpr

/-- Where the search for static variables goes on below a node. -/
def Node.ownsNoScope : Node → Bool
  | .stmt (.function _) | .stmt (.cls _) => false
  | .expr (.closure ..) | .expr (.arrow ..) | .expr (.anonymousClass ..) => false
  | .staticVar _ => false
  | _ => true

def staticDeclarations (body : List Stmt) : List VarDecl :=
  ((Node.statements body).preorder Node.ownsNoScope).filterMap fun
    | .staticVar v => some v
    | _ => none

def staticValues (evaluate : Expr → Eval Value) :
    List VarDecl → Assoc String Value → Eval (Assoc String Value)
  | [], known => pure known
  | v :: rest, known => do
    let value ← match v.default with
      | some e => evaluate e
      | none => pure .null
    -- a variable declared again keeps its place and takes the new value
    staticValues evaluate rest (Assoc.put known (trimLeft '$' v.name) value)

def defaultOf? (params : List Param) (name : String) : Option Expr :=
  (params.find? (·.name == trimLeft '$' name)).bind (·.default)

end ConstExpr
