import ConstExpr.Syntax.Tree

/-!
Building trees. A node that was given no position of its own takes the one its parts span.
-/

namespace ConstExpr

def Expr.span : Expr → Span
  | .assign _ _ span | .assignOp _ _ _ span | .binary _ _ _ span | .unary _ _ span
  | .postIncrement _ span | .postDecrement _ span | .call _ _ span | .array _ span
  | .index _ _ span | .property _ _ span | .methodCall _ _ _ span | .staticCall _ _ _ span
  | .classConstant _ _ span | .constant _ span | .new _ _ span | .var _ span | .int _ span
  | .float _ span | .string _ span | .interpolated _ span | .magic _ span | .ternary _ _ _ span
  | .matchArms _ _ span | .cast _ _ span | .isset _ span | .empty _ span
  | .closure _ _ _ _ _ span | .arrow _ _ _ _ span | .anonymousClass _ _ span | .print _ span
  | .includeFile _ _ span | .malformed span => span

def Stmt.span : Stmt → Span
  | .function decl => decl.span
  | .cls decl => decl.span
  | .echo _ span | .ret _ span | .branch _ _ _ span | .whileLoop _ _ span | .doWhile _ _ span
  | .forLoop _ _ _ _ span | .foreach _ _ _ _ span | .block _ span | .namespaceBlock _ _ span
  | .use _ _ span | .switch _ _ span | .tryCatch _ _ _ span | .throw _ span | .const _ span
  | .breakLoop _ span | .continueLoop _ span | .global _ span | .static _ span | .unset _ span
  | .expr _ span | .inlineHtml _ span | .nop span => span

def Expr.ofBinary (left : Expr) (op : BinaryOp) (right : Expr) (span : Option Span) : Expr :=
  .binary left op right (span.getD (left.span.join right.span))

def Expr.ofUnary (op : UnaryOp) (operand : Expr) (span : Option Span) : Expr :=
  .unary op operand (span.getD operand.span)

def Expr.ofCast (kind : CastKind) (operand : Expr) (span : Option Span) : Expr :=
  .cast kind operand (span.getD operand.span)

def Expr.ofTernary (condition : Expr) (ifTrue : Option Expr) (ifFalse : Expr)
    (span : Option Span) : Expr :=
  .ternary condition ifTrue ifFalse (span.getD (condition.span.join ifFalse.span))

def ArrayItem.of (key : Option Expr) (value : Expr) (byRef unpack : Bool) (span : Option Span) :
    ArrayItem where
  key := key
  value := value
  byRef := byRef
  unpack := unpack
  span := span.getD ((key.map fun k => k.span.join value.span).getD value.span)

def Arg.of (name : Option String) (value : Expr) (unpack : Bool) (span : Option Span) : Arg where
  name := name
  value := value
  unpack := unpack
  span := span.getD value.span

def Expr.ofCall (name : String) (args : List Expr) (span : Option Span) : Expr :=
  .call (.constant (.parse name) {}) (args.map fun e => .of none e false none) (span.getD {})

def Stmt.ofExpr (value : Expr) (span : Option Span) : Stmt := .expr value (span.getD value.span)

def VarDecl.unplaced (name : String) (default : Option Expr) : VarDecl where
  -- without the signs in front
  name := trimLeft '$' name
  default := default
  span := {}

end ConstExpr
