import ConstExpr.Proofs.Derivation
import ConstExpr.Proofs.EntryOrder
import ConstExpr.Session.Query

/-!
The static variables of a body, said without a traversal: its declarations are found by going
through statements alone, and evaluated in order up to the first that fails. What stands inside a
closure, a class or a function plays no part.
-/

namespace ConstExpr

mutual

/-- The static variables that a statement declares, itself or in the statements it is made of. -/
def Stmt.statics : Stmt → List VarDecl
  | .static vars _ => vars
  | .branch _ thenBlock elseBlock _ => bodyStatics thenBlock ++ blockStatics elseBlock
  | .whileLoop _ body _ => bodyStatics body
  | .doWhile body _ _ => bodyStatics body
  | .forLoop _ _ _ body _ => bodyStatics body
  | .foreach _ _ _ body _ => bodyStatics body
  | .block body _ => bodyStatics body
  | .namespaceBlock _ body _ => bodyStatics body
  | .switch _ cases _ => caseStatics cases
  | .tryCatch body catches finallyBlock _ =>
    bodyStatics body ++ catchStatics catches ++ blockStatics finallyBlock
  | _ => []

def bodyStatics : List Stmt → List VarDecl
  | [] => []
  | s :: rest => s.statics ++ bodyStatics rest

def blockStatics : Option (List Stmt) → List VarDecl
  | none => []
  | some body => bodyStatics body

def caseStatics : List Case → List VarDecl
  | [] => []
  | ⟨_, body, _⟩ :: rest => bodyStatics body ++ caseStatics rest

def catchStatics : List Catch → List VarDecl
  | [] => []
  | ⟨_, _, body, _⟩ :: rest => bodyStatics body ++ catchStatics rest

end

namespace Node

def isOpen : Node → Bool
  | param _ | function _ | cls _ | member _ | adaptation _ | property _ => false
  | _ => true

def statics : Node → List VarDecl
  | statements body => bodyStatics body
  | stmt s => s.statics
  | case c => bodyStatics c.body
  | catching c => bodyStatics c.body
  | staticVar v => [v]
  | _ => []

def staticVar? : Node → Option VarDecl
  | staticVar v => some v
  | _ => none

theorem children_open {n : Node} (here : n.isOpen = true) (enters : n.ownsNoScope = true) :
    n.children.all isOpen = true := by
  have classRef : ∀ cls, (ofClassRef cls).all isOpen = true := by
    intro cls
    cases cls <;> rfl
  cases n with
  | stmt s =>
    cases s with
    | function decl => cases enters
    | cls decl => cases enters
    | _ => simp [children, ofStmt, ofExprs, ofOption, ofBlock, ofNameOption, isOpen]
  | expr e =>
    cases e with
    | closure => cases enters
    | arrow => cases enters
    | anonymousClass => cases enters
    | _ => simp [children, ofExpr, ofExprs, ofOption, isOpen, classRef]
  | param | function | cls | member | adaptation | property => cases here
  | _ => simp [children, ofExprs, ofOption, ofNames, isOpen]

theorem caseStatics_eq (cases : List Case) :
    caseStatics cases = cases.flatMap fun c => bodyStatics c.body :=
  eq_flatMap_of_next rfl (fun ⟨_, _, _⟩ _ => rfl) cases

theorem catchStatics_eq (catches : List Catch) :
    catchStatics catches = catches.flatMap fun c => bodyStatics c.body :=
  eq_flatMap_of_next rfl (fun ⟨_, _, _, _⟩ _ => rfl) catches

theorem bodyStatics_eq (body : List Stmt) : bodyStatics body = body.flatMap Stmt.statics :=
  eq_flatMap_of_next rfl (fun _ _ => rfl) body

theorem blockStatics_eq (body : Option (List Stmt)) :
    blockStatics body = (ofBlock body).flatMap statics := by
  cases body <;> simp [blockStatics, ofBlock, statics]

theorem statics_eq {n : Node} (here : n.isOpen = true) (enters : n.ownsNoScope = true) :
    (staticVar? n).toList ++ n.children.flatMap statics = n.statics := by
  have classRef : ∀ cls, (ofClassRef cls).flatMap statics = [] := by
    intro cls
    cases cls <;> rfl
  have exprs : ∀ es, (ofExprs es).flatMap statics = [] := by
    intro es
    simp [ofExprs, List.flatMap_map, statics]
  -- expressions declare nothing; what a statement declares stands in the statements below it
  cases n with
  | statements body =>
    simp [children, staticVar?, statics, bodyStatics_eq, List.flatMap_map]
  | stmt s =>
    cases s with
    | function decl => cases enters
    | cls decl => cases enters
    | _ =>
      simp [children, ofStmt, ofOption, ofNameOption, exprs, staticVar?, Node.statics,
        Stmt.statics, List.flatMap_map, caseStatics_eq, catchStatics_eq, blockStatics_eq]
  | expr e =>
    cases e with
    | closure => cases enters
    | arrow => cases enters
    | anonymousClass => cases enters
    | _ =>
      simp [children, ofExpr, exprs, ofOption, staticVar?, statics, classRef, List.flatMap_map]
  | param | function | cls | member | adaptation | property => cases here
  | _ => simp [children, exprs, ofOption, ofNames, staticVar?, statics, List.flatMap_map]

theorem filterMap_preorder {n : Node} (here : n.isOpen = true) :
    (n.preorder ownsNoScope).filterMap staticVar? = n.statics := by
  induction n using children_induction with
  | step n ih =>
    rw [preorder_eq, List.filterMap_cons]
    cases enters : n.ownsNoScope with
    | false =>
      unfold ownsNoScope at enters
      split at enters <;> first | rfl | cases enters
    | true =>
      have below : (n.children.flatMap (preorder ownsNoScope)).filterMap staticVar? =
          n.children.flatMap statics := by
        rw [List.filterMap_flatMap]
        refine List.flatMap_congr fun c child => ?_
        exact ih c child (List.all_eq_true.mp (children_open here enters) c child)
      rw [if_pos rfl, below, ← statics_eq here enters]
      cases staticVar? n <;> rfl

end Node

theorem staticDeclarations_eq (body : List Stmt) : staticDeclarations body = bodyStatics body :=
  Node.filterMap_preorder (n := .statements body) rfl

def initialValue (evaluate : Expr → Eval Value) (v : VarDecl) : Eval Value :=
  match v.default with
  | some e => evaluate e
  | none => pure .null

def VarDecl.label (v : VarDecl) : String := trimLeft '$' v.name

inductive Initializes (evaluate : Expr → Eval Value) :
    List VarDecl → Memory → List Value → Memory → Prop
  | none {m : Memory} : Initializes evaluate [] m [] m
  | next {v : VarDecl} {rest : List VarDecl} {m m' m'' : Memory} {a : Value} {values : List Value}
      (first : (initialValue evaluate v).run m = (.ok a, m'))
      (later : Initializes evaluate rest m' values m'') :
      Initializes evaluate (v :: rest) m (a :: values) m''

/-- What comes of evaluating declarations in order. -/
inductive Collects (evaluate : Expr → Eval Value) (vars : List VarDecl) (m : Memory) :
    Except Halt (Assoc String Value) × Memory → Prop
  -- names stand where they first occur, each with the last of its values
  | all {values : List Value} {after : Memory} {collected : Assoc String Value}
      (done : Initializes evaluate vars m values after)
      (order : Assoc.keys collected = (vars.map VarDecl.label).eraseDups)
      (last : ∀ name, Assoc.get? collected name =
        Assoc.get? ((vars.map VarDecl.label).zip values).reverse name) :
      Collects evaluate vars m (.ok collected, after)
  -- nothing is evaluated after the first failure
  | upTo {before later : List VarDecl} {v : VarDecl} {values : List Value}
      {between after : Memory} {h : Halt} (split : vars = before ++ v :: later)
      (done : Initializes evaluate before m values between)
      (fails : (initialValue evaluate v).run between = (.error h, after)) :
      Collects evaluate vars m (.error h, after)

section Values

variable {evaluate : Expr → Eval Value}

theorem Initializes.length_eq {vars : List VarDecl} {m after : Memory} {values : List Value}
    (all : Initializes evaluate vars m values after) : vars.length = values.length := by
  induction all with
  | none => rfl
  | next first later ih => simp [ih]

theorem staticValues_cons (v : VarDecl) (rest : List VarDecl) (known : Assoc String Value) :
    staticValues evaluate (v :: rest) known = initialValue evaluate v >>= fun value =>
      staticValues evaluate rest (Assoc.put known v.label value) := by
  rw [staticValues, initialValue]
  cases v.default <;> rfl

theorem run_staticValues {vars : List VarDecl} {m after : Memory} {values : List Value}
    (all : Initializes evaluate vars m values after) (rest : List VarDecl)
    (known : Assoc String Value) :
    (staticValues evaluate (vars ++ rest) known).run m =
      (staticValues evaluate rest
        (Assoc.putAll known ((vars.map VarDecl.label).zip values))).run after := by
  induction all generalizing known with
  | none => rfl
  | next first later ih =>
    rw [List.cons_append, staticValues_cons, Eval.run_bind_ok (by rw [first]), first, ih]
    rfl

theorem initializes_or_fails (evaluate : Expr → Eval Value) (vars : List VarDecl) (m : Memory) :
    (∃ values after, Initializes evaluate vars m values after) ∨
      ∃ before v later values between h after, vars = before ++ v :: later ∧
        Initializes evaluate before m values between ∧
        (initialValue evaluate v).run between = (.error h, after) := by
  induction vars generalizing m with
  | nil => exact .inl ⟨[], m, .none⟩
  | cons v rest ih =>
    rcases first : (initialValue evaluate v).run m with ⟨h | a, next⟩
    · exact .inr ⟨[], v, rest, [], m, h, next, rfl, .none, first⟩
    · rcases ih next with ⟨values, after, all⟩ |
        ⟨before, w, later, values, between, h, after, rfl, all, fails⟩
      · exact .inl ⟨a :: values, after, .next first all⟩
      · exact .inr ⟨v :: before, w, later, a :: values, between, h, after, rfl, .next first all,
          fails⟩

theorem collects_staticValues (vars : List VarDecl) (m : Memory) :
    Collects evaluate vars m ((staticValues evaluate vars []).run m) := by
  rcases initializes_or_fails evaluate vars m with ⟨values, after, all⟩ |
    ⟨before, v, later, values, between, h, after, rfl, all, fails⟩
  · have done := run_staticValues all [] []
    rw [List.append_nil] at done
    rw [done]
    refine .all all ?_ (Assoc.get?_ofPairs _)
    rw [← Assoc.ofPairs, Assoc.keys_ofPairs, List.map_fst_zip (by simp [all.length_eq])]
  · rw [run_staticValues all, staticValues_cons, Eval.run_bind_error (by rw [fails]), fails]
    exact .upTo rfl all fails

end Values

def FunctionDecl.blank : FunctionDecl := ⟨"", false, [], [], {}⟩

def ClassDecl.blank : ClassDecl := ⟨.cls, "", [], [], [], [], {}⟩

mutual

/-- An expression with nothing in its closures and in its classes. -/
def Expr.hollow : Expr → Expr
  | .closure .. => .closure false false [] [] [] {}
  | .arrow .. => .arrow false false [] (.malformed {}) {}
  | .anonymousClass .. => .anonymousClass [] .blank {}
  | .assign target value span => .assign target.hollow value.hollow span
  | .assignOp target op value span => .assignOp target.hollow op value.hollow span
  | .binary left op right span => .binary left.hollow op right.hollow span
  | .unary op operand span => .unary op operand.hollow span
  | .postIncrement target span => .postIncrement target.hollow span
  | .postDecrement target span => .postDecrement target.hollow span
  | .call callee args span => .call callee.hollow (hollowArgs args) span
  | .array items span => .array (hollowItems items) span
  | .index container offset span => .index container.hollow (hollowOption offset) span
  | .property target property span => .property target.hollow property.hollow span
  | .methodCall target method args span =>
    .methodCall target.hollow method.hollow (hollowArgs args) span
  | .staticCall cls method args span => .staticCall cls.hollow method.hollow (hollowArgs args) span
  | .classConstant cls name span => .classConstant cls.hollow name span
  | .constant name span => .constant name span
  | .new cls args span => .new cls.hollow (hollowArgs args) span
  | .var name span => .var name span
  | .int value span => .int value span
  | .float value span => .float value span
  | .string value span => .string value span
  | .interpolated parts span => .interpolated (hollowExprs parts) span
  | .magic kind span => .magic kind span
  | .ternary condition ifTrue ifFalse span =>
    .ternary condition.hollow (hollowOption ifTrue) ifFalse.hollow span
  | .matchArms subject arms span => .matchArms subject.hollow (hollowArms arms) span
  | .cast kind operand span => .cast kind operand.hollow span
  | .isset vars span => .isset (hollowExprs vars) span
  | .empty operand span => .empty operand.hollow span
  | .print operand span => .print operand.hollow span
  | .includeFile kind path span => .includeFile kind path.hollow span
  | .malformed span => .malformed span

def ClassRef.hollow : ClassRef → ClassRef
  | .named name => .named name
  | .computed expr => .computed expr.hollow

def hollowExprs : List Expr → List Expr
  | [] => []
  | e :: rest => e.hollow :: hollowExprs rest

def hollowOption : Option Expr → Option Expr
  | none => none
  | some e => some e.hollow

def hollowConditions : Option (List Expr) → Option (List Expr)
  | none => none
  | some es => some (hollowExprs es)

def hollowArgs : List Arg → List Arg
  | [] => []
  | ⟨name, value, unpack, span⟩ :: rest => ⟨name, value.hollow, unpack, span⟩ :: hollowArgs rest

def hollowItems : List ArrayItem → List ArrayItem
  | [] => []
  | ⟨key, value, byRef, unpack, span⟩ :: rest =>
    ⟨hollowOption key, value.hollow, byRef, unpack, span⟩ :: hollowItems rest

def hollowArms : List MatchArm → List MatchArm
  | [] => []
  | ⟨conditions, body, span⟩ :: rest =>
    ⟨hollowConditions conditions, body.hollow, span⟩ :: hollowArms rest

end

def VarDecl.hollow (v : VarDecl) : VarDecl := { v with default := hollowOption v.default }

def ConstItem.hollow (c : ConstItem) : ConstItem := { c with value := c.value.hollow }

mutual

def Stmt.hollow : Stmt → Stmt
  | .function _ => .function .blank
  | .cls _ => .cls .blank
  | .echo exprs span => .echo (hollowExprs exprs) span
  | .ret value span => .ret (hollowOption value) span
  | .branch condition thenBlock elseBlock span =>
    .branch condition.hollow (hollowBody thenBlock) (hollowBlock elseBlock) span
  | .whileLoop condition body span => .whileLoop condition.hollow (hollowBody body) span
  | .doWhile body condition span => .doWhile (hollowBody body) condition.hollow span
  | .forLoop init condition step body span =>
    .forLoop (hollowExprs init) (hollowExprs condition) (hollowExprs step) (hollowBody body) span
  | .foreach subject keyVar valueVar body span =>
    .foreach subject.hollow (hollowOption keyVar) valueVar.hollow (hollowBody body) span
  | .block body span => .block (hollowBody body) span
  | .namespaceBlock name body span => .namespaceBlock name (hollowBody body) span
  | .use imports kind span => .use imports kind span
  | .switch subject cases span => .switch subject.hollow (hollowCases cases) span
  | .tryCatch body catches finallyBlock span =>
    .tryCatch (hollowBody body) (hollowCatches catches) (hollowBlock finallyBlock) span
  | .throw value span => .throw value.hollow span
  | .const items span => .const (items.map ConstItem.hollow) span
  | .breakLoop level span => .breakLoop (hollowOption level) span
  | .continueLoop level span => .continueLoop (hollowOption level) span
  | .global vars span => .global (hollowExprs vars) span
  | .static vars span => .static (vars.map VarDecl.hollow) span
  | .unset vars span => .unset (hollowExprs vars) span
  | .expr value span => .expr value.hollow span
  | .inlineHtml value span => .inlineHtml value span
  | .nop span => .nop span

def hollowBody : List Stmt → List Stmt
  | [] => []
  | s :: rest => s.hollow :: hollowBody rest

def hollowBlock : Option (List Stmt) → Option (List Stmt)
  | none => none
  | some body => some (hollowBody body)

def hollowCases : List Case → List Case
  | [] => []
  | ⟨condition, body, span⟩ :: rest =>
    ⟨hollowOption condition, hollowBody body, span⟩ :: hollowCases rest

def hollowCatches : List Catch → List Catch
  | [] => []
  | ⟨types, var, body, span⟩ :: rest => ⟨types, var, hollowBody body, span⟩ :: hollowCatches rest

end

mutual

theorem Stmt.statics_hollow (s : Stmt) : s.hollow.statics = s.statics.map VarDecl.hollow := by
  cases s with
  | branch condition thenBlock elseBlock span =>
    show bodyStatics (hollowBody thenBlock) ++ blockStatics (hollowBlock elseBlock) =
      (bodyStatics thenBlock ++ blockStatics elseBlock).map VarDecl.hollow
    rw [bodyStatics_hollow thenBlock, blockStatics_hollow elseBlock, List.map_append]
  | whileLoop condition body span => exact bodyStatics_hollow body
  | doWhile body condition span => exact bodyStatics_hollow body
  | forLoop init condition step body span => exact bodyStatics_hollow body
  | foreach subject keyVar valueVar body span => exact bodyStatics_hollow body
  | block body span => exact bodyStatics_hollow body
  | namespaceBlock name body span => exact bodyStatics_hollow body
  | switch subject cases span => exact caseStatics_hollow cases
  | tryCatch body catches finallyBlock span =>
    show bodyStatics (hollowBody body) ++ catchStatics (hollowCatches catches) ++
        blockStatics (hollowBlock finallyBlock) =
      (bodyStatics body ++ catchStatics catches ++ blockStatics finallyBlock).map VarDecl.hollow
    rw [bodyStatics_hollow body, catchStatics_hollow catches, blockStatics_hollow finallyBlock,
      List.map_append, List.map_append]
  | _ => rfl

theorem bodyStatics_hollow (body : List Stmt) :
    bodyStatics (hollowBody body) = (bodyStatics body).map VarDecl.hollow := by
  cases body with
  | nil => rfl
  | cons s rest =>
    show s.hollow.statics ++ bodyStatics (hollowBody rest) =
      (s.statics ++ bodyStatics rest).map VarDecl.hollow
    rw [Stmt.statics_hollow s, bodyStatics_hollow rest, List.map_append]

theorem blockStatics_hollow (body : Option (List Stmt)) :
    blockStatics (hollowBlock body) = (blockStatics body).map VarDecl.hollow := by
  cases body with
  | none => rfl
  | some body => exact bodyStatics_hollow body

theorem caseStatics_hollow (cases : List Case) :
    caseStatics (hollowCases cases) = (caseStatics cases).map VarDecl.hollow := by
  match cases with
  | [] => rfl
  | ⟨condition, body, span⟩ :: rest =>
    show bodyStatics (hollowBody body) ++ caseStatics (hollowCases rest) =
      (bodyStatics body ++ caseStatics rest).map VarDecl.hollow
    rw [bodyStatics_hollow body, caseStatics_hollow rest, List.map_append]

theorem catchStatics_hollow (catches : List Catch) :
    catchStatics (hollowCatches catches) = (catchStatics catches).map VarDecl.hollow := by
  match catches with
  | [] => rfl
  | ⟨types, var, body, span⟩ :: rest =>
    show bodyStatics (hollowBody body) ++ catchStatics (hollowCatches rest) =
      (bodyStatics body ++ catchStatics rest).map VarDecl.hollow
    rw [bodyStatics_hollow body, catchStatics_hollow rest, List.map_append]

end

mutual

theorem Expr.value_hollow (scope : Scope) (e : Expr) : e.hollow.value scope = e.value scope := by
  cases e with
  | array items span =>
    simp only [Expr.hollow, Expr.value, Expr.tableOf_hollow scope items]
  | index container offset span =>
    cases offset with
    | none => rfl
    | some offset =>
      simp only [Expr.hollow, hollowOption, Expr.value, Expr.value_hollow scope container,
        Expr.value_hollow scope offset]
  | binary left op right span =>
    simp only [Expr.hollow, Expr.value, Expr.value_hollow scope left,
      Expr.value_hollow scope right]
  | unary op operand span =>
    simp only [Expr.hollow, Expr.value, Expr.value_hollow scope operand]
  | cast kind operand span =>
    simp only [Expr.hollow, Expr.value, Expr.value_hollow scope operand]
  | ternary condition ifTrue ifFalse span =>
    cases ifTrue with
    | none =>
      simp only [Expr.hollow, hollowOption, Expr.value, Expr.value_hollow scope condition,
        Expr.value_hollow scope ifFalse]
    | some ifTrue =>
      simp only [Expr.hollow, hollowOption, Expr.value, Expr.value_hollow scope condition,
        Expr.value_hollow scope ifTrue, Expr.value_hollow scope ifFalse]
  | classConstant cls name span => cases cls <;> rfl
  | _ => rfl

theorem Expr.tableOf_hollow (scope : Scope) (items : List ArrayItem) (table : Table Value) :
    Expr.tableOf scope (hollowItems items) table = Expr.tableOf scope items table := by
  match items with
  | [] => rfl
  | ⟨key, value, byRef, true, span⟩ :: rest =>
    simp only [hollowItems, Expr.tableOf, Expr.value_hollow scope value,
      Expr.tableOf_hollow scope rest]
  | ⟨none, value, byRef, false, span⟩ :: rest =>
    simp only [hollowItems, hollowOption, Expr.tableOf, Expr.value_hollow scope value,
      Expr.tableOf_hollow scope rest]
  | ⟨some key, value, byRef, false, span⟩ :: rest =>
    simp only [hollowItems, hollowOption, Expr.tableOf, Expr.value_hollow scope key,
      Expr.value_hollow scope value, Expr.tableOf_hollow scope rest]

end

namespace Registry

variable {r : Registry} {evaluator : Evaluator} {s : Subject}

theorem initialValue_hollow (v : VarDecl) :
    initialValue (r.valueOf evaluator s) v.hollow = initialValue (r.valueOf evaluator s) v := by
  obtain ⟨name, default, span⟩ := v
  cases default with
  | none => rfl
  | some e =>
    simp only [initialValue, VarDecl.hollow, hollowOption, valueOf_eq, Expr.value_hollow]

theorem staticValues_hollow (vars : List VarDecl) (known : Assoc String Value) :
    staticValues (r.valueOf evaluator s) (vars.map VarDecl.hollow) known =
      staticValues (r.valueOf evaluator s) vars known := by
  induction vars generalizing known with
  | nil => rfl
  | cons v rest ih =>
    have same : v.hollow.label = v.label := rfl
    simp only [List.map_cons, staticValues_cons, initialValue_hollow, same, ih]

theorem staticsOf_eq (body : List Stmt) :
    r.staticsOf evaluator s body = staticValues (r.valueOf evaluator s) (bodyStatics body) [] := by
  rw [staticsOf, staticDeclarations_eq]

theorem staticsOf_hollow (body : List Stmt) :
    r.staticsOf evaluator s (hollowBody body) = r.staticsOf evaluator s body := by
  rw [staticsOf_eq, staticsOf_eq, bodyStatics_hollow, staticValues_hollow]

/-- The static variables of a body are those that its statements declare, evaluated in order up to
the first failure; and two bodies that differ only inside closures, classes and functions have the
same ones. -/
theorem statics_of_statements (r : Registry) (evaluator : Evaluator) (s : Subject)
    (body : List Stmt) :
    (∀ m, Collects (r.valueOf evaluator s) (bodyStatics body) m
      ((r.staticsOf evaluator s body).run m)) ∧
    ∀ other, hollowBody other = hollowBody body →
      r.staticsOf evaluator s other = r.staticsOf evaluator s body := by
  constructor
  · intro m
    rw [staticsOf_eq]
    exact collects_staticValues (bodyStatics body) m
  · intro other same
    rw [← staticsOf_hollow other, same, staticsOf_hollow]

theorem closure_keeps_statics :
    let r := build false false [("LIMIT", .int 5)] []
    let s : Subject := .file ⟨"/app/a.php", []⟩
    let around (inside : List Stmt) : List Stmt :=
      [.block [.static [⟨"$n", none, {}⟩] {}] {},
        .expr (.closure false false [] [] inside {}) {},
        .static [⟨"$n", some (.constant (.parse "LIMIT") {}), {}⟩] {}]
    let other : List Stmt := [.static [⟨"$m", some (.int 1 {}), {}⟩] {}]
    hollowBody (around other) = hollowBody (around []) ∧
      r.staticsOf (r.force 0) s (around other) = r.staticsOf (r.force 0) s (around []) ∧
      ((r.staticsOf (r.force 0) s (around other)).run {}).1.toOption.map
        (·.map fun entry => (entry.1, entry.2.truth)) = some [("n", true)] := by
  intro r s around other
  have same : hollowBody (around other) = hollowBody (around []) := rfl
  have equal := (statics_of_statements r (r.force 0) s (around [])).2 (around other) same
  exact ⟨same, equal, by decide +kernel⟩

end Registry

end ConstExpr
