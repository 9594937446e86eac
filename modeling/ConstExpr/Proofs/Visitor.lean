import ConstExpr.Syntax.Event

/-!
Visitors. A visitor has a hook for every kind of node; a walk below a node calls hooks, and a hook
may walk below its node or not. Main statement: a walk calls the hooks of the children of its node,
from left to right, and nothing else, whatever the hooks do.
-/

namespace ConstExpr

/-- What is done at the nodes of each kind. -/
structure Visitor (m : Type → Type) where
  statements : List Stmt → m Unit
  stmt : Stmt → m Unit
  expr : Expr → m Unit
  arg : Arg → m Unit
  arrayItem : ArrayItem → m Unit
  param : Param → m Unit
  staticVar : VarDecl → m Unit
  matchArm : MatchArm → m Unit
  case : Case → m Unit
  catching : Catch → m Unit
  function : FunctionDecl → m Unit
  cls : ClassDecl → m Unit
  member : Member → m Unit
  constItem : ConstItem → m Unit
  adaptation : Adaptation → m Unit
  property : VarDecl → m Unit
  name : Name → m Unit

namespace Visitor

variable {m : Type → Type} [Monad m] (v : Visitor m)

section Walks

def walkStatements (body : List Stmt) : m Unit := body.forM v.stmt

def walkExprs (es : List Expr) : m Unit := es.forM v.expr

def walkArgs (args : List Arg) : m Unit := args.forM v.arg

def walkParams (params : List Param) : m Unit := params.forM v.param

def walkNames (ns : List Name) : m Unit := ns.forM v.name

def walkClassRef : ClassRef → m Unit
  | .named n => v.name n
  | .computed e => v.expr e

def walkStmt : Stmt → m Unit
  | .echo exprs _ => v.walkExprs exprs
  | .ret value _ => value.forM v.expr
  | .branch condition thenBlock elseBlock _ => do
    v.expr condition
    v.statements thenBlock
    elseBlock.forM v.statements
  | .whileLoop condition body _ => do
    v.expr condition
    v.statements body
  | .doWhile body condition _ => do
    v.statements body
    v.expr condition
  | .forLoop init condition step body _ => do
    v.walkExprs init
    v.walkExprs condition
    v.walkExprs step
    v.statements body
  | .foreach subject keyVar valueVar body _ => do
    v.expr subject
    keyVar.forM v.expr
    v.expr valueVar
    v.statements body
  | .block body _ => v.statements body
  | .function decl => v.function decl
  | .cls decl => v.cls decl
  | .namespaceBlock name body _ => do
    name.forM v.name
    v.statements body
  | .use imports _ _ => imports.forM fun i => v.name i.name
  | .switch subject cases _ => do
    v.expr subject
    cases.forM v.case
  | .tryCatch body catches finallyBlock _ => do
    v.statements body
    catches.forM v.catching
    finallyBlock.forM v.statements
  | .throw value _ | .expr value _ => v.expr value
  | .const items _ => items.forM v.constItem
  | .breakLoop level _ | .continueLoop level _ => level.forM v.expr
  | .global vars _ | .unset vars _ => v.walkExprs vars
  | .static vars _ => vars.forM v.staticVar
  | .inlineHtml _ _ | .nop _ => pure ()

def walkExpr : Expr → m Unit
  | .assign target value _ | .assignOp target _ value _ => do
    v.expr target
    v.expr value
  | .binary left _ right _ => do
    v.expr left
    v.expr right
  | .unary _ operand _ | .postIncrement operand _ | .postDecrement operand _ | .print operand _
  | .cast _ operand _ | .empty operand _ | .includeFile _ operand _ => v.expr operand
  -- the method itself is an expression too, but it is not visited
  | .call callee args _ | .methodCall callee _ args _ => do
    v.expr callee
    v.walkArgs args
  | .staticCall cls method args _ => do
    v.walkClassRef cls
    v.expr method
    v.walkArgs args
  | .array items _ => items.forM v.arrayItem
  | .index container offset _ => do
    v.expr container
    offset.forM v.expr
  | .property target property _ => do
    v.expr target
    v.expr property
  | .classConstant cls _ _ => v.walkClassRef cls
  | .constant name _ => v.name name
  | .new cls args _ => do
    v.walkClassRef cls
    v.walkArgs args
  | .interpolated parts _ => v.walkExprs parts
  | .ternary condition ifTrue ifFalse _ => do
    v.expr condition
    ifTrue.forM v.expr
    v.expr ifFalse
  | .matchArms subject arms _ => do
    v.expr subject
    arms.forM v.matchArm
  | .anonymousClass args decl _ => do
    v.walkArgs args
    v.cls decl
  | .isset vars _ => v.walkExprs vars
  | .closure _ _ params _ body _ => do
    v.walkParams params
    v.statements body
  | .arrow _ _ params body _ => do
    v.walkParams params
    v.expr body
  | .var _ _ | .int _ _ | .float _ _ | .string _ _ | .magic _ _ | .malformed _ => pure ()

def walkArg (a : Arg) : m Unit := v.expr a.value

def walkArrayItem (i : ArrayItem) : m Unit := do
  i.key.forM v.expr
  v.expr i.value

def walkParam (p : Param) : m Unit := p.default.forM v.expr

def walkVar (d : VarDecl) : m Unit := d.default.forM v.expr

def walkMatchArm (a : MatchArm) : m Unit := do
  a.conditions.forM v.walkExprs
  v.expr a.body

def walkCase (c : Case) : m Unit := do
  c.condition.forM v.expr
  v.statements c.body

def walkCatch (c : Catch) : m Unit := do
  v.walkNames c.types
  v.statements c.body

def walkFunction (f : FunctionDecl) : m Unit := do
  v.walkParams f.params
  v.statements f.body

def walkClass (c : ClassDecl) : m Unit := do
  v.walkNames c.parents
  v.walkNames c.interfaces
  c.members.forM v.member

def walkMember : Member → m Unit
  | .property _ vars _ => vars.forM v.property
  | .method _ decl _ => v.function decl
  | .const _ items _ => items.forM v.constItem
  | .traitUse traits adaptations _ => do
    v.walkNames traits
    adaptations.forM v.adaptation
  | .enumCase _ value _ => value.forM v.expr

def walkConstItem (c : ConstItem) : m Unit := v.expr c.value

def walkAdaptation : Adaptation → m Unit
  | .precedence method insteadOf _ => do
    method.trait.forM v.name
    v.walkNames insteadOf
  | .relabel method _ _ _ => method.trait.forM v.name

end Walks

def visit : Node → m Unit
  | .statements body => v.statements body
  | .stmt s => v.stmt s
  | .expr e => v.expr e
  | .arg a => v.arg a
  | .arrayItem i => v.arrayItem i
  | .param p => v.param p
  | .staticVar d => v.staticVar d
  | .matchArm a => v.matchArm a
  | .case c => v.case c
  | .catching c => v.catching c
  | .function f => v.function f
  | .cls c => v.cls c
  | .member m => v.member m
  | .constItem c => v.constItem c
  | .adaptation a => v.adaptation a
  | .property d => v.property d
  | .name n => v.name n

def walk : Node → m Unit
  | .statements body => v.walkStatements body
  | .stmt s => v.walkStmt s
  | .expr e => v.walkExpr e
  | .arg a => v.walkArg a
  | .arrayItem i => v.walkArrayItem i
  | .param p => v.walkParam p
  | .staticVar d | .property d => v.walkVar d
  | .matchArm a => v.walkMatchArm a
  | .case c => v.walkCase c
  | .catching c => v.walkCatch c
  | .function f => v.walkFunction f
  | .cls c => v.walkClass c
  | .member m => v.walkMember m
  | .constItem c => v.walkConstItem c
  | .adaptation a => v.walkAdaptation a
  | .name _ => pure ()

section Children

variable [LawfulMonad m]

@[simp] theorem forM_ofExprs (es : List Expr) :
    forM (Node.ofExprs es) v.visit = v.walkExprs es := by
  simp [Node.ofExprs, walkExprs, visit]

@[simp] theorem forM_ofNames (ns : List Name) :
    forM (Node.ofNames ns) v.visit = v.walkNames ns := by
  simp [Node.ofNames, walkNames, visit]

@[simp] theorem forM_ofOption (e : Option Expr) :
    forM (Node.ofOption e) v.visit = forM e v.expr := by
  cases e <;> simp [Node.ofOption, visit]

@[simp] theorem forM_ofBlock (body : Option (List Stmt)) :
    forM (Node.ofBlock body) v.visit = forM body v.statements := by
  cases body <;> simp [Node.ofBlock, visit]

@[simp] theorem forM_ofNameOption (n : Option Name) :
    forM (Node.ofNameOption n) v.visit = forM n v.name := by
  cases n <;> simp [Node.ofNameOption, visit]

@[simp] theorem forM_ofClassRef (cls : ClassRef) :
    forM (Node.ofClassRef cls) v.visit = v.walkClassRef cls := by
  cases cls <;> simp [Node.ofClassRef, visit, walkClassRef]

theorem walkStmt_eq (s : Stmt) : v.walkStmt s = forM (Node.ofStmt s) v.visit := by
  cases s <;> simp [walkStmt, Node.ofStmt, visit]

theorem walkExpr_eq (e : Expr) : v.walkExpr e = forM (Node.ofExpr e) v.visit := by
  cases e <;> simp [walkExpr, walkArgs, walkParams, Node.ofExpr, visit]

theorem walkMember_eq (d : Member) : v.walkMember d = forM (Node.ofMember d) v.visit := by
  cases d <;> simp [walkMember, Node.ofMember, visit]

theorem walkAdaptation_eq (a : Adaptation) :
    v.walkAdaptation a = forM (Node.ofAdaptation a) v.visit := by
  cases a <;> simp [walkAdaptation, Node.ofAdaptation]

theorem walkMatchArm_eq (a : MatchArm) :
    v.walkMatchArm a = forM (Node.matchArm a).children v.visit := by
  cases conditions : a.conditions <;>
    simp [walkMatchArm, walkExprs, Node.children, Node.ofExprs, visit, conditions]

/-- A walk below a node calls the hooks of its children from left to right, and nothing else. -/
theorem walk_eq (n : Node) : v.walk n = forM n.children v.visit := by
  cases n with
  | stmt s => exact v.walkStmt_eq s
  | expr e => exact v.walkExpr_eq e
  | member d => exact v.walkMember_eq d
  | adaptation a => exact v.walkAdaptation_eq a
  | matchArm a => exact v.walkMatchArm_eq a
  | _ =>
    simp [walk, walkStatements, walkArg, walkArrayItem, walkParam, walkVar, walkCase, walkCatch,
      walkFunction, walkClass, walkConstItem, walkParams, Node.children, visit]

end Children

end Visitor

end ConstExpr
