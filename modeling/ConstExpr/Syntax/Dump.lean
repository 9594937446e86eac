import ConstExpr.Syntax.Label

/-!
Dumps write a tree out field by field: a node is a record under the name of its form, with every
field present, the empty ones as null.
-/

namespace ConstExpr

/-- Structured data without references. -/
inductive Dump where
  | null
  | bool (b : Bool)
  | int (n : Int)
  | float (x : Float)
  | text (s : String)
  | list (items : List Dump)
  | record (fields : List (String × Dump))
deriving BEq

namespace Dump

def form (name : String) (fields : List (String × Dump)) : Dump := record [(name, record fields)]

def ofOption {α : Type} (f : α → Dump) : Option α → Dump
  | some a => f a
  | none => null

def ofList {α : Type} (f : α → Dump) (items : List α) : Dump := list (items.map f)

end Dump

def Bytes.dump (s : Bytes) : Dump := .list (s.map fun b => .int b.toNat)

def Span.dump (s : Span) : Dump :=
  .record [("start", .int s.start), ("end", .int s.stop),
    ("line", .ofOption (fun n => .int n) s.line)]

def Name.dump (n : Name) : Dump :=
  .record [("parts", .ofList .text n.parts), ("kind", .text n.kind.label), ("span", n.span.dump)]

def Modifier.dump (m : Modifier) : Dump := .text m.label

def Capture.dump (c : Capture) : Dump :=
  .record [("var", .text c.var), ("by_ref", .bool c.byRef), ("span", c.span.dump)]

def Import.dump (i : Import) : Dump :=
  .record [("name", i.name.dump), ("alias", .ofOption .text i.localName), ("span", i.span.dump)]

def TraitMethod.dump (m : TraitMethod) : Dump :=
  .record [("trait_name", .ofOption Name.dump m.trait), ("method", .text m.method),
    ("span", m.span.dump)]

def Adaptation.dump (a : Adaptation) : Dump :=
  match a with
  | precedence method insteadOf span =>
    .form a.form [("method", method.dump), ("insteadof", .ofList Name.dump insteadOf),
      ("span", span.dump)]
  | relabel method newName visibility span =>
    .form a.form [("method", method.dump), ("alias", .ofOption .text newName),
      ("visibility", .ofOption Modifier.dump visibility), ("span", span.dump)]

mutual

def Expr.dump (e : Expr) : Dump :=
  match e with
  | .assign target value span =>
    .form e.form [("var", target.dump), ("expr", value.dump), ("span", span.dump)]
  | .assignOp target op value span =>
    .form e.form [("var", target.dump), ("op", .text op.label), ("expr", value.dump),
      ("span", span.dump)]
  | .binary left op right span =>
    .form e.form [("left", left.dump), ("op", .text op.label), ("right", right.dump),
      ("span", span.dump)]
  | .unary op operand span =>
    .form e.form [("op", .text op.label), ("expr", operand.dump), ("span", span.dump)]
  | .postIncrement target span => .form e.form [("var", target.dump), ("span", span.dump)]
  | .postDecrement target span => .form e.form [("var", target.dump), ("span", span.dump)]
  | .call callee args span =>
    .form e.form [("func", callee.dump), ("args", .list (dumpArgs args)), ("span", span.dump)]
  | .array items span =>
    .form e.form [("items", .list (dumpItems items)), ("span", span.dump)]
  | .index container offset span =>
    .form e.form [("array", container.dump), ("dim", dumpOption offset),
      ("span", span.dump)]
  | .property target property span =>
    .form e.form [("target", target.dump), ("property", property.dump),
      ("span", span.dump)]
  | .methodCall target method args span =>
    .form e.form [("target", target.dump), ("method", method.dump),
      ("args", .list (dumpArgs args)), ("span", span.dump)]
  | .staticCall cls method args span =>
    .form e.form [("class", cls.dump), ("method", method.dump),
      ("args", .list (dumpArgs args)), ("span", span.dump)]
  | .classConstant cls name span =>
    .form e.form [("class", cls.dump), ("constant", .text name), ("span", span.dump)]
  | .constant name span => .form e.form [("name", name.dump), ("span", span.dump)]
  | .new cls args span =>
    .form e.form [("class", cls.dump), ("args", .list (dumpArgs args)), ("span", span.dump)]
  | .var name span => .form e.form [("name", .text name), ("span", span.dump)]
  | .int value span => .form e.form [("value", .int value.toInt), ("span", span.dump)]
  | .float value span => .form e.form [("value", .float value), ("span", span.dump)]
  | .string value span => .form e.form [("value", Bytes.dump value), ("span", span.dump)]
  | .interpolated parts span =>
    .form e.form [("parts", .list (dumpExprs parts)), ("span", span.dump)]
  | .magic kind span => .form e.form [("kind", .text kind.label), ("span", span.dump)]
  | .ternary condition ifTrue ifFalse span =>
    .form e.form [("condition", condition.dump), ("if_true", dumpOption ifTrue),
      ("if_false", ifFalse.dump), ("span", span.dump)]
  | .matchArms subject arms span =>
    .form e.form [("condition", subject.dump), ("arms", .list (dumpArms arms)),
      ("span", span.dump)]
  | .cast kind operand span =>
    .form e.form [("kind", .text kind.label), ("expr", operand.dump), ("span", span.dump)]
  | .isset vars span => .form e.form [("vars", .list (dumpExprs vars)), ("span", span.dump)]
  | .empty operand span => .form e.form [("expr", operand.dump), ("span", span.dump)]
  | .closure isStatic byRef params captures body span =>
    .form e.form [("is_static", .bool isStatic), ("by_ref", .bool byRef),
      ("params", .list (dumpParams params)), ("uses", .ofList Capture.dump captures),
      ("body", .list (dumpStmts body)), ("span", span.dump)]
  | .arrow isStatic byRef params body span =>
    .form e.form [("is_static", .bool isStatic), ("by_ref", .bool byRef),
      ("params", .list (dumpParams params)), ("expr", body.dump), ("span", span.dump)]
  | .anonymousClass args decl span =>
    .form e.form [("args", .list (dumpArgs args)), ("class", decl.dump),
      ("span", span.dump)]
  | .print operand span => .form e.form [("expr", operand.dump), ("span", span.dump)]
  | .includeFile kind path span =>
    .form e.form [("kind", .text kind.label), ("expr", path.dump), ("span", span.dump)]
  | .malformed span => .form e.form [("span", span.dump)]

def ClassRef.dump : ClassRef → Dump
  | .named name => .record [("Name", name.dump)]
  | .computed expr => .record [("Expr", expr.dump)]

def dumpExprs : List Expr → List Dump
  | [] => []
  | e :: es => e.dump :: dumpExprs es

def dumpOption : Option Expr → Dump
  | none => .null
  | some e => e.dump

def dumpArgs : List Arg → List Dump
  | [] => []
  | ⟨name, value, unpack, span⟩ :: rest =>
    .record [("name", .ofOption .text name), ("value", value.dump), ("unpack", .bool unpack),
      ("span", span.dump)] :: dumpArgs rest

def dumpItems : List ArrayItem → List Dump
  | [] => []
  | ⟨key, value, byRef, unpack, span⟩ :: rest =>
    .record [("key", dumpOption key), ("value", value.dump), ("by_ref", .bool byRef),
      ("unpack", .bool unpack), ("span", span.dump)] :: dumpItems rest

def dumpConditions : Option (List Expr) → Dump
  | none => .null
  | some es => .list (dumpExprs es)

def dumpArms : List MatchArm → List Dump
  | [] => []
  | ⟨conditions, body, span⟩ :: rest =>
    .record [("conditions", dumpConditions conditions), ("body", body.dump),
      ("span", span.dump)] :: dumpArms rest

def dumpParams : List Param → List Dump
  | [] => []
  | ⟨name, default, byRef, variadic, span⟩ :: rest =>
    .record [("name", .text name), ("default", dumpOption default), ("by_ref", .bool byRef),
      ("variadic", .bool variadic), ("span", span.dump)] :: dumpParams rest

def Stmt.dump (s : Stmt) : Dump :=
  match s with
  | .echo exprs span => .form s.form [("exprs", .list (dumpExprs exprs)), ("span", span.dump)]
  | .ret value span => .form s.form [("expr", dumpOption value), ("span", span.dump)]
  | .branch condition thenBlock elseBlock span =>
    .form s.form [("condition", condition.dump), ("then_block", .list (dumpStmts thenBlock)),
      ("else_block", dumpBlock elseBlock), ("span", span.dump)]
  | .whileLoop condition body span =>
    .form s.form [("condition", condition.dump), ("body", .list (dumpStmts body)),
      ("span", span.dump)]
  | .doWhile body condition span =>
    .form s.form [("body", .list (dumpStmts body)), ("condition", condition.dump),
      ("span", span.dump)]
  | .forLoop init condition step body span =>
    .form s.form [("init", .list (dumpExprs init)), ("condition", .list (dumpExprs condition)),
      ("loop_expr", .list (dumpExprs step)), ("body", .list (dumpStmts body)),
      ("span", span.dump)]
  | .foreach subject keyVar valueVar body span =>
    .form s.form [("expr", subject.dump), ("key_var", dumpOption keyVar),
      ("value_var", valueVar.dump), ("body", .list (dumpStmts body)), ("span", span.dump)]
  | .block body span => .form s.form [("statements", .list (dumpStmts body)), ("span", span.dump)]
  | .function decl => .record [(s.form, decl.dump)]
  | .cls decl => .record [(s.form, decl.dump)]
  | .namespaceBlock name body span =>
    .form s.form [("name", .ofOption Name.dump name), ("body", .list (dumpStmts body)),
      ("span", span.dump)]
  | .use imports kind span =>
    .form s.form [("uses", .ofList Import.dump imports), ("kind", .text kind.label),
      ("span", span.dump)]
  | .switch subject cases span =>
    .form s.form [("condition", subject.dump), ("cases", .list (dumpCases cases)),
      ("span", span.dump)]
  | .tryCatch body catches finallyBlock span =>
    .form s.form [("body", .list (dumpStmts body)), ("catches", .list (dumpCatches catches)),
      ("finally", dumpBlock finallyBlock), ("span", span.dump)]
  | .throw value span => .form s.form [("expr", value.dump), ("span", span.dump)]
  | .const items span =>
    .form s.form [("consts", .list (dumpConsts items)), ("span", span.dump)]
  | .breakLoop level span => .form s.form [("level", dumpOption level), ("span", span.dump)]
  | .continueLoop level span => .form s.form [("level", dumpOption level), ("span", span.dump)]
  | .global vars span => .form s.form [("vars", .list (dumpExprs vars)), ("span", span.dump)]
  | .static vars span => .form s.form [("vars", .list (dumpVars vars)), ("span", span.dump)]
  | .unset vars span => .form s.form [("vars", .list (dumpExprs vars)), ("span", span.dump)]
  | .expr value span => .form s.form [("expr", value.dump), ("span", span.dump)]
  | .inlineHtml value span => .form s.form [("value", Bytes.dump value), ("span", span.dump)]
  | .nop span => .form s.form [("span", span.dump)]

def dumpStmts : List Stmt → List Dump
  | [] => []
  | s :: ss => s.dump :: dumpStmts ss

def dumpBlock : Option (List Stmt) → Dump
  | none => .null
  | some ss => .list (dumpStmts ss)

def dumpCases : List Case → List Dump
  | [] => []
  | ⟨condition, body, span⟩ :: rest =>
    .record [("condition", dumpOption condition), ("body", .list (dumpStmts body)),
      ("span", span.dump)] :: dumpCases rest

def dumpCatches : List Catch → List Dump
  | [] => []
  | ⟨types, var, body, span⟩ :: rest =>
    .record [("types", .ofList Name.dump types), ("var", .ofOption .text var),
      ("body", .list (dumpStmts body)), ("span", span.dump)] :: dumpCatches rest

def dumpConsts : List ConstItem → List Dump
  | [] => []
  | ⟨name, value, span⟩ :: rest =>
    .record [("name", .text name), ("value", value.dump), ("span", span.dump)] :: dumpConsts rest

def VarDecl.dump : VarDecl → Dump
  | ⟨name, default, span⟩ =>
    .record [("name", .text name), ("default", dumpOption default), ("span", span.dump)]

def dumpVars : List VarDecl → List Dump
  | [] => []
  | v :: vs => v.dump :: dumpVars vs

def FunctionDecl.dump : FunctionDecl → Dump
  | ⟨name, byRef, params, body, span⟩ =>
    .record [("name", .text name), ("by_ref", .bool byRef), ("params", .list (dumpParams params)),
      ("body", .list (dumpStmts body)), ("span", span.dump)]

def ClassDecl.dump : ClassDecl → Dump
  | ⟨kind, name, modifiers, parents, interfaces, members, span⟩ =>
    .record [("kind", .text kind.label), ("name", .text name),
      ("modifiers", .ofList Modifier.dump modifiers), ("extends", .ofList Name.dump parents),
      ("implements", .ofList Name.dump interfaces), ("members", .list (dumpMembers members)),
      ("span", span.dump)]

def Member.dump (m : Member) : Dump :=
  match m with
  | .property modifiers vars span =>
    .form m.form [("modifiers", .ofList Modifier.dump modifiers),
      ("entries", .list (dumpVars vars)), ("span", span.dump)]
  | .method modifiers decl span =>
    .form m.form [("modifiers", .ofList Modifier.dump modifiers), ("function", decl.dump),
      ("span", span.dump)]
  | .const modifiers items span =>
    .form m.form [("modifiers", .ofList Modifier.dump modifiers),
      ("consts", .list (dumpConsts items)), ("span", span.dump)]
  | .traitUse traits adaptations span =>
    .form m.form [("traits", .ofList Name.dump traits),
      ("adaptations", .ofList Adaptation.dump adaptations), ("span", span.dump)]
  | .enumCase name value span =>
    .form m.form [("name", .text name), ("value", dumpOption value), ("span", span.dump)]

def dumpMembers : List Member → List Dump
  | [] => []
  | m :: ms => m.dump :: dumpMembers ms

end

end ConstExpr
