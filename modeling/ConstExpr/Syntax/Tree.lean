import ConstExpr.Operator.Basic
import ConstExpr.Syntax.Name
import ConstExpr.Text.Bytes

/-!
Syntax trees of a source file: expressions, statements and declarations, which contain each other.
The constants `true`, `false` and `null` are constant expressions like any other named one.
-/

namespace ConstExpr

inductive MagicKind where
  | directory | fileName | lineNumber | functionName | className | traitName | methodName
  | namespaceName | propertyName
deriving DecidableEq

inductive IncludeKind where
  | optional | optionalOnce | required | requiredOnce
deriving DecidableEq

inductive UseKind where
  | normal | function | const
deriving DecidableEq

inductive ClassKind where
  | cls | interface | trait | enum
deriving DecidableEq

inductive Modifier where
  | publicAccess | protectedAccess | privateAccess | static | abstract | final | readonly
deriving DecidableEq

structure Capture where
  var : String
  byRef : Bool
  span : Span

structure Import where
  name : Name
  localName : Option String
  span : Span

structure TraitMethod where
  trait : Option Name
  method : String
  span : Span

inductive Adaptation where
  | precedence (method : TraitMethod) (insteadOf : List Name) (span : Span)
  | relabel (method : TraitMethod) (newName : Option String) (visibility : Option Modifier)
      (span : Span)

mutual

inductive Expr where
  | assign (target value : Expr) (span : Span)
  | assignOp (target : Expr) (op : BinaryOp) (value : Expr) (span : Span)
  | binary (left : Expr) (op : BinaryOp) (right : Expr) (span : Span)
  | unary (op : UnaryOp) (operand : Expr) (span : Span)
  | postIncrement (target : Expr) (span : Span)
  | postDecrement (target : Expr) (span : Span)
  | call (callee : Expr) (args : List Arg) (span : Span)
  | array (items : List ArrayItem) (span : Span)
  | index (container : Expr) (offset : Option Expr) (span : Span)
  | property (target property : Expr) (span : Span)
  | methodCall (target method : Expr) (args : List Arg) (span : Span)
  | staticCall (cls : ClassRef) (method : Expr) (args : List Arg) (span : Span)
  | classConstant (cls : ClassRef) (name : String) (span : Span)
  | constant (name : Name) (span : Span)
  | new (cls : ClassRef) (args : List Arg) (span : Span)
  | var (name : String) (span : Span)
  | int (value : Int64) (span : Span)
  | float (value : Float) (span : Span)
  | string (value : Bytes) (span : Span)
  | interpolated (parts : List Expr) (span : Span)
  | magic (kind : MagicKind) (span : Span)
  | ternary (condition : Expr) (ifTrue : Option Expr) (ifFalse : Expr) (span : Span)
  | matchArms (subject : Expr) (arms : List MatchArm) (span : Span)
  | cast (kind : CastKind) (operand : Expr) (span : Span)
  | isset (vars : List Expr) (span : Span)
  | empty (operand : Expr) (span : Span)
  | closure (isStatic byRef : Bool) (params : List Param) (captures : List Capture)
      (body : List Stmt) (span : Span)
  | arrow (isStatic byRef : Bool) (params : List Param) (body : Expr) (span : Span)
  | anonymousClass (args : List Arg) (decl : ClassDecl) (span : Span)
  | print (operand : Expr) (span : Span)
  | includeFile (kind : IncludeKind) (path : Expr) (span : Span)
  | malformed (span : Span)

/-- The class in front of a double colon or after `new`: a name, or computed. -/
inductive ClassRef where
  | named (name : Name)
  | computed (expr : Expr)

structure Arg where
  name : Option String
  value : Expr
  unpack : Bool
  span : Span

structure ArrayItem where
  key : Option Expr
  value : Expr
  byRef : Bool
  unpack : Bool
  span : Span

structure MatchArm where
  -- the default arm has none
  conditions : Option (List Expr)
  body : Expr
  span : Span

structure Param where
  name : String
  default : Option Expr
  byRef : Bool
  variadic : Bool
  span : Span

inductive Stmt where
  | echo (exprs : List Expr) (span : Span)
  | ret (value : Option Expr) (span : Span)
  | branch (condition : Expr) (thenBlock : List Stmt) (elseBlock : Option (List Stmt)) (span : Span)
  | whileLoop (condition : Expr) (body : List Stmt) (span : Span)
  | doWhile (body : List Stmt) (condition : Expr) (span : Span)
  | forLoop (init condition step : List Expr) (body : List Stmt) (span : Span)
  | foreach (subject : Expr) (keyVar : Option Expr) (valueVar : Expr) (body : List Stmt)
      (span : Span)
  | block (body : List Stmt) (span : Span)
  | function (decl : FunctionDecl)
  | cls (decl : ClassDecl)
  | namespaceBlock (name : Option Name) (body : List Stmt) (span : Span)
  | use (imports : List Import) (kind : UseKind) (span : Span)
  | switch (subject : Expr) (cases : List Case) (span : Span)
  | tryCatch (body : List Stmt) (catches : List Catch) (finallyBlock : Option (List Stmt))
      (span : Span)
  | throw (value : Expr) (span : Span)
  | const (items : List ConstItem) (span : Span)
  | breakLoop (level : Option Expr) (span : Span)
  | continueLoop (level : Option Expr) (span : Span)
  | global (vars : List Expr) (span : Span)
  | static (vars : List VarDecl) (span : Span)
  | unset (vars : List Expr) (span : Span)
  | expr (value : Expr) (span : Span)
  | inlineHtml (value : Bytes) (span : Span)
  | nop (span : Span)

structure Case where
  condition : Option Expr
  body : List Stmt
  span : Span

structure Catch where
  types : List Name
  var : Option String
  body : List Stmt
  span : Span

structure ConstItem where
  name : String
  value : Expr
  span : Span

structure VarDecl where
  name : String
  default : Option Expr
  span : Span

structure FunctionDecl where
  name : String
  byRef : Bool
  params : List Param
  body : List Stmt
  span : Span

/-- A class, interface, trait or enumeration. The name is the short one. A class extends at most
one parent, an interface any number of interfaces. -/
structure ClassDecl where
  kind : ClassKind
  name : String
  modifiers : List Modifier
  parents : List Name
  interfaces : List Name
  members : List Member
  span : Span

inductive Member where
  | property (modifiers : List Modifier) (vars : List VarDecl) (span : Span)
  | method (modifiers : List Modifier) (decl : FunctionDecl) (span : Span)
  | const (modifiers : List Modifier) (items : List ConstItem) (span : Span)
  | traitUse (traits : List Name) (adaptations : List Adaptation) (span : Span)
  | enumCase (name : String) (value : Option Expr) (span : Span)

end

end ConstExpr
