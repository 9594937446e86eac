import ConstExpr.Syntax.Event
import Mathlib.Data.List.Basic

/-!
What a tree contains, read off its constructors, and what a full traversal meets of it. A traversal
stops once at every expression, statement and name, each before those inside it, with one exception:
the expression that names the method of a method call is never reached.
-/

namespace ConstExpr

structure Occurrence where
  node : Node
  -- whether it belongs to the expression that names the method of a call
  hidden : Bool

def nameContents (hidden : Bool) (ns : List Name) : List Occurrence :=
  ns.map fun n => ⟨.name n, hidden⟩

def Adaptation.contents (hidden : Bool) : Adaptation → List Occurrence
  | .precedence method insteadOf _ =>
    nameContents hidden method.trait.toList ++ nameContents hidden insteadOf
  | .relabel method _ _ _ => nameContents hidden method.trait.toList

mutual

def Expr.contents (hidden : Bool) (e : Expr) : List Occurrence :=
  ⟨.expr e, hidden⟩ ::
    match e with
    | .assign target value _ => target.contents hidden ++ value.contents hidden
    | .assignOp target _ value _ => target.contents hidden ++ value.contents hidden
    | .binary left _ right _ => left.contents hidden ++ right.contents hidden
    | .unary _ operand _ => operand.contents hidden
    | .postIncrement target _ => target.contents hidden
    | .postDecrement target _ => target.contents hidden
    | .call callee args _ => callee.contents hidden ++ argContents hidden args
    | .array items _ => itemContents hidden items
    | .index container offset _ => container.contents hidden ++ optionContents hidden offset
    | .property target property _ => target.contents hidden ++ property.contents hidden
    | .methodCall target method args _ =>
      target.contents hidden ++ method.contents true ++ argContents hidden args
    | .staticCall cls method args _ =>
      cls.contents hidden ++ method.contents hidden ++ argContents hidden args
    | .classConstant cls _ _ => cls.contents hidden
    | .constant name _ => [⟨.name name, hidden⟩]
    | .new cls args _ => cls.contents hidden ++ argContents hidden args
    | .var _ _ => []
    | .int _ _ => []
    | .float _ _ => []
    | .string _ _ => []
    | .interpolated parts _ => exprContents hidden parts
    | .magic _ _ => []
    | .ternary condition ifTrue ifFalse _ =>
      condition.contents hidden ++ optionContents hidden ifTrue ++ ifFalse.contents hidden
    | .matchArms subject arms _ => subject.contents hidden ++ armContents hidden arms
    | .cast _ operand _ => operand.contents hidden
    | .isset vars _ => exprContents hidden vars
    | .empty operand _ => operand.contents hidden
    | .closure _ _ params _ body _ => paramContents hidden params ++ stmtContents hidden body
    | .arrow _ _ params body _ => paramContents hidden params ++ body.contents hidden
    | .anonymousClass args decl _ => argContents hidden args ++ decl.contents hidden
    | .print operand _ => operand.contents hidden
    | .includeFile _ path _ => path.contents hidden
    | .malformed _ => []

def ClassRef.contents (hidden : Bool) : ClassRef → List Occurrence
  | .named name => [⟨.name name, hidden⟩]
  | .computed expr => expr.contents hidden

def Stmt.contents (hidden : Bool) (s : Stmt) : List Occurrence :=
  ⟨.stmt s, hidden⟩ ::
    match s with
    | .echo exprs _ => exprContents hidden exprs
    | .ret value _ => optionContents hidden value
    | .branch condition thenBlock elseBlock _ =>
      condition.contents hidden ++ stmtContents hidden thenBlock ++ blockContents hidden elseBlock
    | .whileLoop condition body _ => condition.contents hidden ++ stmtContents hidden body
    | .doWhile body condition _ => stmtContents hidden body ++ condition.contents hidden
    | .forLoop init condition step body _ =>
      exprContents hidden init ++ exprContents hidden condition ++ exprContents hidden step ++
        stmtContents hidden body
    | .foreach subject keyVar valueVar body _ =>
      subject.contents hidden ++ optionContents hidden keyVar ++ valueVar.contents hidden ++
        stmtContents hidden body
    | .block body _ => stmtContents hidden body
    | .function decl => decl.contents hidden
    | .cls decl => decl.contents hidden
    | .namespaceBlock name body _ => nameContents hidden name.toList ++ stmtContents hidden body
    | .use imports _ _ => nameContents hidden (imports.map (·.name))
    | .switch subject cases _ => subject.contents hidden ++ caseContents hidden cases
    | .tryCatch body catches finallyBlock _ =>
      stmtContents hidden body ++ catchContents hidden catches ++ blockContents hidden finallyBlock
    | .throw value _ => value.contents hidden
    | .const items _ => constContents hidden items
    | .breakLoop level _ => optionContents hidden level
    | .continueLoop level _ => optionContents hidden level
    | .global vars _ => exprContents hidden vars
    | .static vars _ => varContents hidden vars
    | .unset vars _ => exprContents hidden vars
    | .expr value _ => value.contents hidden
    | .inlineHtml _ _ => []
    | .nop _ => []

def FunctionDecl.contents (hidden : Bool) : FunctionDecl → List Occurrence
  | ⟨_, _, params, body, _⟩ => paramContents hidden params ++ stmtContents hidden body

def ClassDecl.contents (hidden : Bool) : ClassDecl → List Occurrence
  | ⟨_, _, _, parents, interfaces, members, _⟩ =>
    nameContents hidden parents ++ nameContents hidden interfaces ++ memberContents hidden members

def Member.contents (hidden : Bool) : Member → List Occurrence
  | .property _ vars _ => varContents hidden vars
  | .method _ decl _ => decl.contents hidden
  | .const _ items _ => constContents hidden items
  | .traitUse traits adaptations _ =>
    nameContents hidden traits ++ adaptations.flatMap (Adaptation.contents hidden)
  | .enumCase _ value _ => optionContents hidden value

def exprContents (hidden : Bool) : List Expr → List Occurrence
  | [] => []
  | e :: rest => e.contents hidden ++ exprContents hidden rest

def optionContents (hidden : Bool) : Option Expr → List Occurrence
  | none => []
  | some e => e.contents hidden

def conditionContents (hidden : Bool) : Option (List Expr) → List Occurrence
  | none => []
  | some es => exprContents hidden es

def argContents (hidden : Bool) : List Arg → List Occurrence
  | [] => []
  | ⟨_, value, _, _⟩ :: rest => value.contents hidden ++ argContents hidden rest

def itemContents (hidden : Bool) : List ArrayItem → List Occurrence
  | [] => []
  | ⟨key, value, _, _, _⟩ :: rest =>
    optionContents hidden key ++ value.contents hidden ++ itemContents hidden rest

def armContents (hidden : Bool) : List MatchArm → List Occurrence
  | [] => []
  | ⟨conditions, body, _⟩ :: rest =>
    conditionContents hidden conditions ++ body.contents hidden ++ armContents hidden rest

def paramContents (hidden : Bool) : List Param → List Occurrence
  | [] => []
  | ⟨_, default, _, _, _⟩ :: rest => optionContents hidden default ++ paramContents hidden rest

def varContents (hidden : Bool) : List VarDecl → List Occurrence
  | [] => []
  | ⟨_, default, _⟩ :: rest => optionContents hidden default ++ varContents hidden rest

def constContents (hidden : Bool) : List ConstItem → List Occurrence
  | [] => []
  | ⟨_, value, _⟩ :: rest => value.contents hidden ++ constContents hidden rest

def caseContents (hidden : Bool) : List Case → List Occurrence
  | [] => []
  | ⟨condition, body, _⟩ :: rest =>
    optionContents hidden condition ++ stmtContents hidden body ++ caseContents hidden rest

def catchContents (hidden : Bool) : List Catch → List Occurrence
  | [] => []
  | ⟨types, _, body, _⟩ :: rest =>
    nameContents hidden types ++ stmtContents hidden body ++ catchContents hidden rest

def memberContents (hidden : Bool) : List Member → List Occurrence
  | [] => []
  | m :: rest => m.contents hidden ++ memberContents hidden rest

def stmtContents (hidden : Bool) : List Stmt → List Occurrence
  | [] => []
  | s :: rest => s.contents hidden ++ stmtContents hidden rest

def blockContents (hidden : Bool) : Option (List Stmt) → List Occurrence
  | none => []
  | some body => stmtContents hidden body

end

namespace Node

def isSyntax : Node → Bool
  | expr _ | stmt _ | name _ => true
  | _ => false

def isMethodCall : Node → Bool
  | expr (.methodCall ..) => true
  | _ => false

/-- All that a node contains, itself first where it is an expression, a statement or a name. -/
def contents (hidden : Bool) : Node → List Occurrence
  | statements body => stmtContents hidden body
  | stmt s => s.contents hidden
  | expr e => e.contents hidden
  | arg a => a.value.contents hidden
  | arrayItem i => optionContents hidden i.key ++ i.value.contents hidden
  | param p => optionContents hidden p.default
  | staticVar v | property v => optionContents hidden v.default
  | matchArm a => conditionContents hidden a.conditions ++ a.body.contents hidden
  | case c => optionContents hidden c.condition ++ stmtContents hidden c.body
  | catching c => nameContents hidden c.types ++ stmtContents hidden c.body
  | function f => f.contents hidden
  | cls c => c.contents hidden
  | member m => m.contents hidden
  | constItem c => c.value.contents hidden
  | adaptation a => a.contents hidden
  | name n => [⟨name n, hidden⟩]

/-- The children of a node together with the name of the method it calls; a mark stands at the
latter. -/
def parts : Node → List (Node × Bool)
  | expr (.methodCall target method args _) =>
    (expr target, false) :: (expr method, true) :: args.map fun a => (arg a, false)
  | n => n.children.map fun c => (c, false)

theorem exists_methodCall {n : Node} (calls : n.isMethodCall = true) :
    ∃ target method args span, n = expr (.methodCall target method args span) := by
  unfold isMethodCall at calls
  split at calls
  next target method args span => exact ⟨target, method, args, span, rfl⟩
  next => cases calls

theorem parts_of_calls_none {n : Node} (calls : n.isMethodCall = false) :
    n.parts = n.children.map fun c => (c, false) := by
  unfold parts
  split
  next => cases calls
  next => rfl

def own (hidden : Bool) (n : Node) : List Occurrence := if n.isSyntax then [⟨n, hidden⟩] else []

section Lists

variable (hidden : Bool)

theorem contents_map {α : Type} {listed : List α → List Occurrence} (place : α → Node)
    (none : listed [] = [])
    (next : ∀ a rest, listed (a :: rest) = (place a).contents hidden ++ listed rest)
    (members : List α) : listed members = (members.map place).flatMap (contents hidden) := by
  rw [List.flatMap_map]
  exact eq_flatMap_of_next none next members

theorem nameContents_eq (ns : List Name) :
    nameContents hidden ns = (ofNames ns).flatMap (contents hidden) :=
  contents_map hidden name rfl (fun _ _ => rfl) ns

theorem exprContents_eq (es : List Expr) :
    exprContents hidden es = (ofExprs es).flatMap (contents hidden) :=
  contents_map hidden expr rfl (fun _ _ => rfl) es

theorem stmtContents_eq (body : List Stmt) :
    stmtContents hidden body = (body.map stmt).flatMap (contents hidden) :=
  contents_map hidden stmt rfl (fun _ _ => rfl) body

theorem argContents_eq (args : List Arg) :
    argContents hidden args = (args.map arg).flatMap (contents hidden) :=
  contents_map hidden arg rfl (fun ⟨_, _, _, _⟩ _ => rfl) args

theorem itemContents_eq (items : List ArrayItem) :
    itemContents hidden items = (items.map arrayItem).flatMap (contents hidden) :=
  contents_map hidden arrayItem rfl (fun ⟨_, _, _, _, _⟩ _ => rfl) items

theorem armContents_eq (arms : List MatchArm) :
    armContents hidden arms = (arms.map matchArm).flatMap (contents hidden) :=
  contents_map hidden matchArm rfl (fun ⟨_, _, _⟩ _ => rfl) arms

theorem paramContents_eq (params : List Param) :
    paramContents hidden params = (params.map param).flatMap (contents hidden) :=
  contents_map hidden param rfl (fun ⟨_, _, _, _, _⟩ _ => rfl) params

theorem staticContents_eq (vars : List VarDecl) :
    varContents hidden vars = (vars.map staticVar).flatMap (contents hidden) :=
  contents_map hidden staticVar rfl (fun ⟨_, _, _⟩ _ => rfl) vars

theorem propertyContents_eq (vars : List VarDecl) :
    varContents hidden vars = (vars.map property).flatMap (contents hidden) :=
  contents_map hidden property rfl (fun ⟨_, _, _⟩ _ => rfl) vars

theorem constContents_eq (items : List ConstItem) :
    constContents hidden items = (items.map constItem).flatMap (contents hidden) :=
  contents_map hidden constItem rfl (fun ⟨_, _, _⟩ _ => rfl) items

theorem caseContents_eq (cases : List Case) :
    caseContents hidden cases = (cases.map case).flatMap (contents hidden) :=
  contents_map hidden case rfl (fun ⟨_, _, _⟩ _ => rfl) cases

theorem catchContents_eq (catches : List Catch) :
    catchContents hidden catches = (catches.map catching).flatMap (contents hidden) :=
  contents_map hidden catching rfl (fun ⟨_, _, _, _⟩ _ => rfl) catches

theorem memberContents_eq (members : List Member) :
    memberContents hidden members = (members.map member).flatMap (contents hidden) :=
  contents_map hidden member rfl (fun _ _ => rfl) members

theorem optionContents_eq (e : Option Expr) :
    optionContents hidden e = (ofOption e).flatMap (contents hidden) := by
  cases e <;> simp [optionContents, ofOption, contents]

theorem conditionContents_eq (es : Option (List Expr)) :
    conditionContents hidden es = (ofExprs (es.getD [])).flatMap (contents hidden) := by
  cases es with
  | none => rfl
  | some es => exact exprContents_eq hidden es

theorem blockContents_eq (body : Option (List Stmt)) :
    blockContents hidden body = (ofBlock body).flatMap (contents hidden) := by
  cases body <;> simp [blockContents, ofBlock, contents]

theorem classRefContents_eq (cls : ClassRef) :
    cls.contents hidden = (ofClassRef cls).flatMap (contents hidden) := by
  cases cls <;> simp [ClassRef.contents, ofClassRef, contents]

end Lists

theorem contents_adaptation (hidden : Bool) (a : Adaptation) :
    a.contents hidden = (ofAdaptation a).flatMap (contents hidden) := by
  cases a <;>
    simp [Adaptation.contents, ofAdaptation, ofNameOption, nameContents_eq, ofNames]

theorem contents_member (hidden : Bool) (m : Member) :
    m.contents hidden = (ofMember m).flatMap (contents hidden) := by
  cases m <;>
    simp [Member.contents, ofMember, contents, propertyContents_eq, constContents_eq,
      nameContents_eq, optionContents_eq, List.flatMap_map]

theorem contents_stmt (hidden : Bool) (s : Stmt) :
    s.contents hidden = ⟨stmt s, hidden⟩ :: (ofStmt s).flatMap (contents hidden) := by
  cases s <;>
    simp [Stmt.contents, ofStmt, contents, exprContents_eq, optionContents_eq, stmtContents_eq,
      blockContents_eq, nameContents_eq, caseContents_eq, catchContents_eq, constContents_eq,
      staticContents_eq, ofNameOption, ofNames, List.flatMap_map]

theorem contents_expr (hidden : Bool) {e : Expr} (calls : (expr e).isMethodCall = false) :
    e.contents hidden = ⟨expr e, hidden⟩ :: (ofExpr e).flatMap (contents hidden) := by
  cases e with
  | methodCall => cases calls
  | _ =>
    simp [Expr.contents, ofExpr, contents, exprContents_eq, optionContents_eq, stmtContents_eq,
      argContents_eq, itemContents_eq, armContents_eq, paramContents_eq, classRefContents_eq]

theorem contents_eq (hidden : Bool) (n : Node) :
    n.contents hidden = n.own hidden ++ n.parts.flatMap fun part =>
      part.1.contents (hidden || part.2) := by
  by_cases calls : n.isMethodCall
  · obtain ⟨target, method, args, span, rfl⟩ := exists_methodCall calls
    simp [parts, Expr.contents, argContents_eq, own, isSyntax, contents, List.flatMap_map]
  · have calls : n.isMethodCall = false := by simpa using calls
    have below : n.contents hidden = n.own hidden ++ n.children.flatMap (contents hidden) := by
      cases n with
      | statements body => exact stmtContents_eq hidden body
      | stmt s => exact contents_stmt hidden s
      | expr e => exact contents_expr hidden calls
      | member m => exact contents_member hidden m
      | adaptation a => exact contents_adaptation hidden a
      | function f =>
        obtain ⟨label, byRef, params, body, span⟩ := f
        simp [contents, FunctionDecl.contents, children, own, isSyntax, paramContents_eq]
      | cls c =>
        obtain ⟨kind, label, modifiers, parents, interfaces, members, span⟩ := c
        simp [contents, ClassDecl.contents, children, own, isSyntax, nameContents_eq,
          memberContents_eq]
      | _ =>
        simp [contents, children, own, isSyntax, optionContents_eq, conditionContents_eq,
          nameContents_eq]
    rw [below, parts_of_calls_none calls]
    simp [List.flatMap_map]

theorem sizeOf_lt_of_mem_parts {n : Node} {part : Node × Bool} (member : part ∈ n.parts) :
    sizeOf part.1 < sizeOf n := by
  by_cases calls : n.isMethodCall
  · obtain ⟨target, method, args, span, rfl⟩ := exists_methodCall calls
    have child : part.1 = expr method ∨
        part.1 ∈ (expr (.methodCall target method args span)).children := by
      simp only [parts, List.mem_cons, List.mem_map] at member
      rcases member with rfl | rfl | ⟨a, inside, rfl⟩
      · exact .inr (by simp [children, ofExpr])
      · exact .inl rfl
      · exact .inr (by simp [children, ofExpr, inside])
    rcases child with same | child
    · rw [same]
      simp only [expr.sizeOf_spec, Expr.methodCall.sizeOf_spec]
      omega
    · exact sizeOf_lt_of_mem_children child
  · rw [parts_of_calls_none (by simpa using calls)] at member
    obtain ⟨c, inside, rfl⟩ := List.mem_map.mp member
    exact sizeOf_lt_of_mem_children inside

theorem parts_induction {holds : Node → Prop}
    (step : ∀ n, (∀ part ∈ n.parts, holds part.1) → holds n) (n : Node) : holds n :=
  step n fun _ member =>
    have := sizeOf_lt_of_mem_parts member
    parts_induction step _
termination_by sizeOf n

theorem mem_contents_iff {n : Node} {hidden : Bool} {o : Occurrence} :
    o ∈ n.contents hidden ↔ (n.isSyntax = true ∧ o = ⟨n, hidden⟩) ∨
      ∃ part ∈ n.parts, o ∈ part.1.contents (hidden || part.2) := by
  rw [contents_eq, List.mem_append, List.mem_flatMap]
  cases shown : n.isSyntax <;> simp [own, shown]

theorem hidden_of_mem_contents {n : Node} {o : Occurrence} (member : o ∈ n.contents true) :
    o.hidden = true := by
  induction n using parts_induction with
  | step n ih =>
    rcases mem_contents_iff.mp member with ⟨-, rfl⟩ | ⟨part, inside, below⟩
    · rfl
    · exact ih part inside below

theorem flatMap_unmarked {β : Type} (n : Node) (f : Node → List β) :
    (n.parts.flatMap fun part => if part.2 then [] else f part.1) = n.children.flatMap f := by
  by_cases calls : n.isMethodCall
  · obtain ⟨target, method, args, span, rfl⟩ := exists_methodCall calls
    simp [parts, children, ofExpr, List.flatMap_map]
  · rw [parts_of_calls_none (by simpa using calls)]
    simp [List.flatMap_map]

/-- The nodes that are not hidden. -/
def reached (os : List Occurrence) : List Node := (os.filter (!·.hidden)).map (·.node)

theorem reached_flatMap {α : Type} (members : List α) (f : α → List Occurrence) :
    reached (members.flatMap f) = members.flatMap fun a => reached (f a) := by
  simp only [reached, List.filter_flatMap, List.map_flatMap]

theorem filter_preorder (n : Node) :
    (n.preorder fun _ => true).filter isSyntax = reached (n.contents false) := by
  induction n using parts_induction with
  | step n ih =>
    have here : reached (n.own false) = [n].filter isSyntax := by
      cases shown : n.isSyntax <;> simp [own, reached, shown]
    have below : reached (n.parts.flatMap fun part => part.1.contents (false || part.2)) =
        n.children.flatMap fun c => (c.preorder fun _ => true).filter isSyntax := by
      rw [reached_flatMap, ← flatMap_unmarked]
      refine List.flatMap_congr fun part member => ?_
      cases marked : part.2 with
      | true =>
        -- within the name of a method everything is hidden
        have none : (part.1.contents true).filter (!·.hidden) = [] :=
          List.filter_eq_nil_iff.mpr fun o inside => by simp [hidden_of_mem_contents inside]
        simp [reached, none]
      | false => simpa using (ih part member).symm
    rw [contents_eq, reached, List.filter_append, List.map_append, ← reached, ← reached, here,
      below, preorder_eq, if_pos rfl, ← List.filter_flatMap, ← List.filter_append,
      List.singleton_append]

theorem isMethodCall_of_marked {n c : Node} (marked : (c, true) ∈ n.parts) :
    n.isMethodCall = true := by
  by_contra calls
  rw [parts_of_calls_none (by simpa using calls)] at marked
  simp at marked

theorem exists_hidden_iff (n : Node) :
    (∃ o ∈ n.contents false, o.hidden = true) ↔
      ∃ o ∈ n.contents false, o.node.isMethodCall = true := by
  induction n using parts_induction with
  | step n ih =>
    constructor
    · rintro ⟨o, member, hidden⟩
      rcases mem_contents_iff.mp member with ⟨-, rfl⟩ | ⟨⟨c, marked⟩, among, below⟩
      · cases hidden
      · cases marked with
        | true =>
          have calls := isMethodCall_of_marked among
          obtain ⟨target, method, args, span, rfl⟩ := exists_methodCall calls
          exact ⟨_, mem_contents_iff.mpr (.inl ⟨rfl, rfl⟩), calls⟩
        | false =>
          obtain ⟨call, there, calls⟩ := (ih _ among).mp ⟨o, below, hidden⟩
          exact ⟨call, mem_contents_iff.mpr (.inr ⟨_, among, there⟩), calls⟩
    · rintro ⟨o, member, calls⟩
      rcases mem_contents_iff.mp member with ⟨-, rfl⟩ | ⟨⟨c, marked⟩, among, below⟩
      · obtain ⟨target, method, args, span, rfl⟩ := exists_methodCall calls
        have named : (expr method, true) ∈ (expr (.methodCall target method args span)).parts := by
          simp [parts]
        have there : ⟨expr method, true⟩ ∈ (expr method).contents true :=
          mem_contents_iff.mpr (.inl ⟨rfl, rfl⟩)
        exact ⟨_, mem_contents_iff.mpr (.inr ⟨_, named, there⟩), rfl⟩
      · cases marked with
        | true => exact ⟨o, member, hidden_of_mem_contents below⟩
        | false =>
          obtain ⟨other, there, hidden⟩ := (ih _ among).mpr ⟨o, below, calls⟩
          exact ⟨other, mem_contents_iff.mpr (.inr ⟨_, among, there⟩), hidden⟩

theorem flatMap_split {α β : Type} {f : α → List β} {members : List α} {before after : List β}
    {b : β} (joined : members.flatMap f = before ++ b :: after) :
    ∃ a ∈ members, ∃ front back, f a = front ++ b :: back ∧ back <+: after := by
  induction members generalizing before with
  | nil => simp at joined
  | cons a rest ih =>
    rw [List.flatMap_cons] at joined
    rcases List.append_eq_append_iff.mp joined with ⟨later, -, behind⟩ | ⟨here, first, behind⟩
    · obtain ⟨other, member, found⟩ := ih behind
      exact ⟨other, List.mem_cons_of_mem _ member, found⟩
    · cases here with
      | nil =>
        have behind : rest.flatMap f = [] ++ b :: after := behind.symm
        obtain ⟨other, member, found⟩ := ih behind
        exact ⟨other, List.mem_cons_of_mem _ member, found⟩
      | cons _ back =>
        obtain ⟨rfl, rfl⟩ := List.cons.inj behind
        exact ⟨a, List.mem_cons_self, before, back, first, List.prefix_append _ _⟩

theorem preorder_follows {descend : Node → Bool} {n m : Node} {before after : List Node}
    (met : n.preorder descend = before ++ m :: after) : m.preorder descend <+: m :: after := by
  induction n using children_induction generalizing before after with
  | step n ih =>
    -- a node that is met is the first one, or it is met below a child
    cases before with
    | nil =>
      have first : n = m := by
        rw [preorder_eq] at met
        exact (List.cons.inj met).1
      rw [← first, met, first]
      exact List.prefix_refl _
    | cons b before =>
      rw [preorder_eq] at met
      have below := (List.cons.inj met).2
      split at below
      · obtain ⟨c, child, front, back, found, short⟩ := flatMap_split below
        have inner := ih c child found
        exact inner.trans (List.cons_prefix_cons.mpr ⟨rfl, short⟩)
      · simp at below

/-- A full traversal stops once at every expression, statement and name outside the names of
methods, and at all there are exactly if the tree has no method call. Directly after each node
comes what it contains. -/
theorem traversal_meets_contents (body : List Stmt) :
    let visits := (statements body).preorder fun _ => true
    let tree := stmtContents false body
    visits.filter isSyntax = reached tree ∧
      (visits.filter isSyntax = tree.map (·.node) ↔ ∀ o ∈ tree, o.node.isMethodCall = false) ∧
      ∀ before n after, visits = before ++ n :: after →
        reached (n.contents false) <+: (n :: after).filter isSyntax := by
  intro visits tree
  have met : visits.filter isSyntax = reached tree := filter_preorder (statements body)
  refine ⟨met, ?_, ?_⟩
  · have shown : reached tree = tree.map (·.node) ↔ ∀ o ∈ tree, o.hidden = false := by
      constructor
      · intro all
        have long : (tree.filter (!·.hidden)).length = tree.length := by
          simpa [reached] using congrArg List.length all
        simpa using List.length_filter_eq_length_iff.mp long
      · intro all
        rw [reached, List.filter_eq_self.mpr (by simpa using all)]
    have calls := not_congr (exists_hidden_iff (statements body))
    rw [met, shown]
    simpa [contents] using calls
  · intro before n after split
    rw [← filter_preorder]
    exact (preorder_follows split).filter _

def nested : List Stmt :=
  -- `A::run(fn() => new \B)` in a closure that is the default of a static variable
  let created : Expr := .new (.named (.parse "\\B")) [] {}
  let call : Expr := .staticCall (.named (.parse "A")) (.string [114, 117, 110] {})
    [⟨none, .arrow false false [] created {}, false, {}⟩] {}
  [.static [⟨"x", some (.closure false false [] [] [.ret (some call) {}] {}), {}⟩] {}]

theorem nested_met :
    (∀ o ∈ stmtContents false nested, o.node.isMethodCall = false) ∧
      (stmtContents false nested).length = 9 ∧
      ((statements nested).preorder fun _ => true).filter isSyntax =
        (stmtContents false nested).map (·.node) := by
  have none : ((stmtContents false nested).all fun o => !o.node.isMethodCall) = true := by decide
  have calls : ∀ o ∈ stmtContents false nested, o.node.isMethodCall = false := by
    simpa using none
  exact ⟨calls, by decide, (traversal_meets_contents nested).2.1.mpr calls⟩

def computedMethod : List Stmt :=
  -- `$x->{RUN}()`
  [.expr (.methodCall (.var "x" {}) (.constant (.parse "RUN") {}) [] {}) {}]

theorem computedMethod_unmet :
    let visits := (statements computedMethod).preorder fun _ => true
    let tree := stmtContents false computedMethod
    (visits.filter (·.place = .expr)).length = 2 ∧
      (tree.filter (·.node.place = .expr)).length = 3 ∧
      (visits.filter (·.place = .name)).length = 0 ∧
      (tree.filter (·.node.place = .name)).length = 1 := by
  decide +kernel

end Node

end ConstExpr
