import ConstExpr.Syntax.Label

/-!
Traversal of a tree. Every place that a traversal stops at is a node of one of seventeen kinds; a
node is followed by its children, in order, unless the traversal does not descend below it.
-/

namespace ConstExpr

inductive Node where
  | statements (body : List Stmt)
  | stmt (s : Stmt)
  | expr (e : Expr)
  | arg (a : Arg)
  | arrayItem (i : ArrayItem)
  | param (p : Param)
  | staticVar (v : VarDecl)
  | matchArm (a : MatchArm)
  | case (c : Case)
  | catching (c : Catch)
  | function (f : FunctionDecl)
  | cls (c : ClassDecl)
  | member (m : Member)
  | constItem (c : ConstItem)
  | adaptation (a : Adaptation)
  | property (v : VarDecl)
  | name (n : Name)

namespace Node

def ofExprs (es : List Expr) : List Node := es.map expr

def ofOption (e : Option Expr) : List Node := e.toList.map expr

def ofBlock (body : Option (List Stmt)) : List Node := body.toList.map statements

def ofNames (ns : List Name) : List Node := ns.map name

def ofNameOption (n : Option Name) : List Node := n.toList.map name

def ofClassRef : ClassRef → List Node
  | .named n => [name n]
  | .computed e => [expr e]

def ofStmt : Stmt → List Node
  | .echo es _ | .global es _ | .unset es _ => ofExprs es
  | .ret e _ | .breakLoop e _ | .continueLoop e _ => ofOption e
  | .branch condition thenBlock elseBlock _ =>
    expr condition :: statements thenBlock :: ofBlock elseBlock
  | .whileLoop condition body _ => [expr condition, statements body]
  | .doWhile body condition _ => [statements body, expr condition]
  | .forLoop init condition step body _ =>
    ofExprs init ++ ofExprs condition ++ ofExprs step ++ [statements body]
  | .foreach subject keyVar valueVar body _ =>
    expr subject :: ofOption keyVar ++ [expr valueVar, statements body]
  | .block body _ => [statements body]
  | .function decl => [function decl]
  | .cls decl => [cls decl]
  | .namespaceBlock n body _ => ofNameOption n ++ [statements body]
  | .use imports _ _ => imports.map fun i => name i.name
  | .switch subject cases _ => expr subject :: cases.map case
  | .tryCatch body catches finallyBlock _ =>
    statements body :: catches.map catching ++ ofBlock finallyBlock
  | .throw e _ | .expr e _ => [expr e]
  | .const items _ => items.map constItem
  | .static vars _ => vars.map staticVar
  | .inlineHtml _ _ | .nop _ => []

/-- The children of an expression. A method call leads to its target and its arguments, and not to
the expression that names the method. -/
def ofExpr : Expr → List Node
  | .assign a b _ | .assignOp a _ b _ | .binary a _ b _ | .property a b _ => [expr a, expr b]
  | .unary _ e _ | .postIncrement e _ | .postDecrement e _ | .print e _ | .cast _ e _
  | .empty e _ | .includeFile _ e _ => [expr e]
  | .call e args _ | .methodCall e _ args _ => expr e :: args.map arg
  | .staticCall target method args _ => ofClassRef target ++ expr method :: args.map arg
  | .array items _ => items.map arrayItem
  | .index container offset _ => expr container :: ofOption offset
  | .classConstant target _ _ => ofClassRef target
  | .constant n _ => [name n]
  | .new target args _ => ofClassRef target ++ args.map arg
  | .interpolated es _ | .isset es _ => ofExprs es
  | .ternary condition ifTrue ifFalse _ =>
    expr condition :: ofOption ifTrue ++ [expr ifFalse]
  | .matchArms subject arms _ => expr subject :: arms.map matchArm
  | .anonymousClass args decl _ => args.map arg ++ [cls decl]
  | .closure _ _ params _ body _ => params.map param ++ [statements body]
  | .arrow _ _ params body _ => params.map param ++ [expr body]
  | .var _ _ | .int _ _ | .float _ _ | .string _ _ | .magic _ _ | .malformed _ => []

def ofMember : Member → List Node
  | .property _ vars _ => vars.map property
  | .method _ decl _ => [function decl]
  | .const _ items _ => items.map constItem
  | .traitUse traits adaptations _ => ofNames traits ++ adaptations.map adaptation
  | .enumCase _ value _ => ofOption value

def ofAdaptation : Adaptation → List Node
  | .precedence method insteadOf _ => ofNameOption method.trait ++ ofNames insteadOf
  | .relabel method _ _ _ => ofNameOption method.trait

def children : Node → List Node
  | statements body => body.map stmt
  | stmt s => ofStmt s
  | expr e => ofExpr e
  | arg a => [expr a.value]
  | arrayItem i => ofOption i.key ++ [expr i.value]
  | param p => ofOption p.default
  | staticVar v | property v => ofOption v.default
  | matchArm a => ofExprs (a.conditions.getD []) ++ [expr a.body]
  | case c => ofOption c.condition ++ [statements c.body]
  | catching c => ofNames c.types ++ [statements c.body]
  | function f => f.params.map param ++ [statements f.body]
  | cls c => ofNames c.parents ++ ofNames c.interfaces ++ c.members.map member
  | member m => ofMember m
  | constItem c => [expr c.value]
  | adaptation a => ofAdaptation a
  | name _ => []

end Node

end ConstExpr
