import ConstExpr.Proofs.Derivation
import Mathlib.Logic.Relation

/-!
Operands that are passed over. Outside of classes and without source files, an expression that has
a value when all its operands are evaluated has the same value when only those are that matter; and
an operand that was not evaluated can be any other expression.
-/

namespace ConstExpr

mutual

/-- The value of an expression where every operand is evaluated, whether it matters or not. -/
def Expr.eager (scope : Scope) : Expr → Eval Value
  | .array items _ => do
    let table ← Expr.eagerTable scope items .empty
    return .array table
  | .index container (some offset) _ => do
    let c ← container.eager scope
    let o ← offset.eager scope
    Eval.logged (c.element o)
  | .binary left op right _ => do
    let l ← left.eager scope
    let r ← right.eager scope
    Eval.logged (op.apply l r)
  | .unary op operand _ => do
    let v ← operand.eager scope
    Eval.logged (op.apply v)
  | .cast kind operand _ => do
    let v ← operand.eager scope
    Eval.logged (kind.apply v)
  | .ternary condition (some ifTrue) ifFalse _ => do
    let c ← condition.eager scope
    let yes ← ifTrue.eager scope
    let no ← ifFalse.eager scope
    return if c.truth then yes else no
  | .ternary condition none ifFalse _ => do
    let c ← condition.eager scope
    let no ← ifFalse.eager scope
    return if c.truth then c else no
  | e => e.value scope

def Expr.eagerTable (scope : Scope) : List ArrayItem → Table Value → Eval (Table Value)
  | [], table => pure table
  | ⟨_, value, _, true, _⟩ :: rest, table => do
    let v ← value.eager scope
    let longer ← Eval.logged (table.unpack v)
    Expr.eagerTable scope rest longer
  | ⟨some key, value, _, false, _⟩ :: rest, table => do
    let k ← key.eager scope
    let v ← value.eager scope
    let longer ← Eval.logged (table.store k v)
    Expr.eagerTable scope rest longer
  | ⟨none, value, _, false, _⟩ :: rest, table => do
    let v ← value.eager scope
    let longer ← Eval.logged (table.append v)
    Expr.eagerTable scope rest longer

end

/-- One expression is another with something replaced that is not evaluated, where it is known
which expressions have which values. -/
inductive Expr.Swaps (has : Expr → Value → Prop) : Expr → Expr → Prop
  -- the right operand, once the left one decides
  | decided {left op l w} (value : has left l) (enough : op.decided? l = some w)
      (right other : Expr) (span : Span) :
      Swaps has (.binary left op right span) (.binary left op other span)
  -- the branch that the condition does not choose
  | ifTrue {condition c} (value : has condition c) (fails : c.truth = false) (yes other no : Expr)
      (span : Span) :
      Swaps has (.ternary condition (some yes) no span) (.ternary condition (some other) no span)
  | ifFalse {condition c} (value : has condition c) (holds : c.truth = true) (yes : Option Expr)
      (no other : Expr) (span : Span) :
      Swaps has (.ternary condition yes no span) (.ternary condition yes other span)
  -- what is inside an expression without a value of its own
  | inert {e other : Expr} (dynamic : e.isStatic = false) (dynamic' : other.isStatic = false) :
      Swaps has e other
  -- one of these, further inside
  | left {left left' op right span} (inside : Swaps has left left') :
      Swaps has (.binary left op right span) (.binary left' op right span)
  | right {left op right right' span} (inside : Swaps has right right') :
      Swaps has (.binary left op right span) (.binary left op right' span)
  | unary {op operand operand' span} (inside : Swaps has operand operand') :
      Swaps has (.unary op operand span) (.unary op operand' span)
  | cast {kind operand operand' span} (inside : Swaps has operand operand') :
      Swaps has (.cast kind operand span) (.cast kind operand' span)
  | container {container container' offset span} (inside : Swaps has container container') :
      Swaps has (.index container (some offset) span) (.index container' (some offset) span)
  | offset {container offset offset' span} (inside : Swaps has offset offset') :
      Swaps has (.index container (some offset) span) (.index container (some offset') span)
  | condition {condition condition' yes no span} (inside : Swaps has condition condition') :
      Swaps has (.ternary condition yes no span) (.ternary condition' yes no span)
  | yes {condition yes yes' no span} (inside : Swaps has yes yes') :
      Swaps has (.ternary condition (some yes) no span) (.ternary condition (some yes') no span)
  | no {condition yes no no' span} (inside : Swaps has no no') :
      Swaps has (.ternary condition yes no span) (.ternary condition yes no' span)
  | key {before after key key' value byRef unpack span outer} (inside : Swaps has key key') :
      Swaps has (.array (before ++ ⟨some key, value, byRef, unpack, span⟩ :: after) outer)
        (.array (before ++ ⟨some key', value, byRef, unpack, span⟩ :: after) outer)
  | item {before after key value value' byRef unpack span outer} (inside : Swaps has value value') :
      Swaps has (.array (before ++ ⟨key, value, byRef, unpack, span⟩ :: after) outer)
        (.array (before ++ ⟨key, value', byRef, unpack, span⟩ :: after) outer)

@[simp] theorem Logged.value_pure {α : Type} (a : α) : (pure a : Logged α).value = a := rfl

theorem BinaryOp.apply_of_decided {op : BinaryOp} {left v : Value}
    (enough : op.decided? left = some v) (right : Value) : (op.apply left right).value = v := by
  cases op with
  | logic op =>
    cases truth : left.truth <;> cases op <;>
      simp_all [BinaryOp.decided?, BinaryOp.apply, Connective.holds]
  | coalesce =>
    cases null : left.isNull <;> simp_all [BinaryOp.decided?, BinaryOp.apply]
  | _ => cases enough

namespace Registry

def ValuesDerived (r : Registry) (evaluator : Evaluator) (s : Subject) : Prop :=
  ∀ e m v, ((e.value (r.scope evaluator s)).run m).1 = .ok v → r.Derives (.value s e v)

variable {r : Registry} {s : Subject} {evaluator : Evaluator}

mutual

theorem derives_of_eager (plain : r.ValuesDerived evaluator s) (e : Expr) {m : Memory} {v : Value}
    (done : ((e.eager (r.scope evaluator s)).run m).1 = .ok v) : r.Derives (.value s e v) := by
  cases e with
  | array items span =>
    obtain ⟨t, built, same⟩ := Eval.ok_of_bind done
    cases same
    exact .array (derives_of_eagerTable plain items built)
  | index container offset span =>
    cases offset with
    | none => exact plain _ m v done
    | some offset =>
      obtain ⟨c, whole, done⟩ := Eval.ok_of_bind done
      obtain ⟨o, part, same⟩ := Eval.ok_of_bind done
      cases same
      exact .index (derives_of_eager plain container whole) (derives_of_eager plain offset part)
  | binary left op right span =>
    obtain ⟨l, first, done⟩ := Eval.ok_of_bind done
    obtain ⟨x, second, same⟩ := Eval.ok_of_bind done
    cases same
    -- the right operand has a value here even where the left one decides without it
    have before := derives_of_eager plain left first
    cases enough : op.decided? l with
    | some w =>
      rw [BinaryOp.apply_of_decided enough]
      exact .decided before enough
    | none => exact .binary before enough (derives_of_eager plain right second)
  | unary op operand span =>
    obtain ⟨x, inner, same⟩ := Eval.ok_of_bind done
    cases same
    exact .unary (derives_of_eager plain operand inner)
  | cast kind operand span =>
    obtain ⟨x, inner, same⟩ := Eval.ok_of_bind done
    cases same
    exact .cast (derives_of_eager plain operand inner)
  | ternary condition ifTrue ifFalse span =>
    cases ifTrue with
    | some ifTrue =>
      obtain ⟨c, test, done⟩ := Eval.ok_of_bind done
      obtain ⟨yes, first, done⟩ := Eval.ok_of_bind done
      obtain ⟨no, second, same⟩ := Eval.ok_of_bind done
      cases same
      have tested := derives_of_eager plain condition test
      cases holds : c.truth with
      | true => exact .ifTrue tested holds (derives_of_eager plain ifTrue first)
      | false => exact .ifFalse tested holds (derives_of_eager plain ifFalse second)
    | none =>
      obtain ⟨c, test, done⟩ := Eval.ok_of_bind done
      obtain ⟨no, second, same⟩ := Eval.ok_of_bind done
      cases same
      have tested := derives_of_eager plain condition test
      cases holds : c.truth with
      | true => exact .ifItself tested holds
      | false => exact .ifFalse tested holds (derives_of_eager plain ifFalse second)
  | _ => exact plain _ m v done

theorem derives_of_eagerTable (plain : r.ValuesDerived evaluator s) (items : List ArrayItem)
    {t t' : Table Value} {m : Memory}
    (done : ((Expr.eagerTable (r.scope evaluator s) items t).run m).1 = .ok t') :
    r.Derives (.table s items t t') := by
  match items with
  | [] =>
    cases done
    exact .nil
  | ⟨key, value, byRef, true, span⟩ :: rest =>
    obtain ⟨v, item, done⟩ := Eval.ok_of_bind done
    exact .unpack (derives_of_eager plain value item) (derives_of_eagerTable plain rest done)
  | ⟨some key, value, byRef, false, span⟩ :: rest =>
    obtain ⟨k, index, done⟩ := Eval.ok_of_bind done
    obtain ⟨v, item, done⟩ := Eval.ok_of_bind done
    exact .keyed (derives_of_eager plain key index) (derives_of_eager plain value item)
      (derives_of_eagerTable plain rest done)
  | ⟨none, value, byRef, false, span⟩ :: rest =>
    obtain ⟨v, item, done⟩ := Eval.ok_of_bind done
    exact .plain (derives_of_eager plain value item) (derives_of_eagerTable plain rest done)

end

theorem derives_behind {rest rest' : List ArrayItem}
    (exchange : ∀ t t', r.Derives (.table s rest t t') → r.Derives (.table s rest' t t'))
    (before : List ArrayItem) {t t' : Table Value}
    (built : r.Derives (.table s (before ++ rest) t t')) :
    r.Derives (.table s (before ++ rest') t t') := by
  induction before generalizing t with
  | nil => exact exchange t t' built
  | cons item before ih =>
    cases built with
    | unpack value later => exact .unpack value (ih later)
    | keyed index value later => exact .keyed index value (ih later)
    | plain value later => exact .plain value (ih later)

theorem places_outside (outside : s.class? = none) : r.Places none s := by
  intro c inside
  rw [outside] at inside
  cases inside

structure Fileless (r : Registry) : Prop where
  coherent : r.Coherent
  undeclared : r.classes = []
  bare : r.namespaceConstants = []

theorem build_fileless (predefined builtin : Bool) (constants : List (String × Value)) :
    (build predefined builtin constants []).Fileless :=
  ⟨build_coherent predefined builtin constants [], rfl, rfl⟩

namespace Fileless

variable (fileless : r.Fileless)

include fileless

theorem internal_of_knows {c : Class} (known : r.Knows none c) :
    ∃ name, r.internal? name = some c := by
  rcases known with no | ⟨name, found⟩ | inside
  · cases no
  · refine ⟨name, ?_⟩
    rcases find_eq found with ⟨entry, here, -⟩ | inside
    · simp [fileless.undeclared, Assoc.get?] at here
    · exact inside
  · exact inside

theorem namesApart : r.NamesApart none := by
  intro c c' known known' same
  obtain ⟨name, inside⟩ := fileless.internal_of_knows known
  obtain ⟨name', inside'⟩ := fileless.internal_of_knows known'
  have key := fileless.coherent.internalKey _ _ (Assoc.mem_of_get? inside)
  have key' := fileless.coherent.internalKey _ _ (Assoc.mem_of_get? inside')
  rw [internal?, ← key, same, key'] at inside
  exact Option.some.inj (inside.symm.trans inside')

theorem not_declares {k : LazyConstant} : ¬r.Declares none k := by
  intro declared
  cases declared with
  | space found => simp [namespaceLazy?, fileless.bare, Assoc.get?] at found
  | cls known found =>
    obtain ⟨name, inside⟩ := fileless.internal_of_knows known
    obtain ⟨decl, -, origin, -⟩ := lazyConstant?_found found
    rw [fileless.coherent.internalOrigin _ _ (Assoc.mem_of_get? inside)] at origin
    cases origin

section Outside

variable (outside : s.class? = none)

include outside

theorem valuesDerived (evaluator : Evaluator) : r.ValuesDerived evaluator s := by
  intro e m v done
  exact derives_value (fun k declared => absurd declared fileless.not_declares) fileless.bare
    (places_outside outside) e done

theorem run_valueOf_iff (evaluator : Evaluator) (m : Memory) {e : Expr} {v : Value} :
    ((r.valueOf evaluator s e).run m).1 = .ok v ↔ r.Derives (.value s e v) := by
  rw [valueOf_eq]
  constructor
  · exact fileless.valuesDerived outside evaluator e m v
  · intro derived
    exact derived.computes (fun k declared => absurd declared fileless.not_declares)
      (fun k declared => absurd declared fileless.not_declares) fileless.namesApart fileless.bare
      (places_outside outside) m

theorem derives_unique {e : Expr} {v w : Value} (one : r.Derives (.value s e v))
    (other : r.Derives (.value s e w)) : v = w := by
  have first := (fileless.run_valueOf_iff outside (r.force 0) {}).mpr one
  have second := (fileless.run_valueOf_iff outside (r.force 0) {}).mpr other
  exact Except.ok.inj (first.symm.trans second)

theorem derives_of_swaps {e other : Expr}
    (swaps : Expr.Swaps (fun e v => r.Derives (.value s e v)) e other) {v : Value}
    (derived : r.Derives (.value s e v)) : r.Derives (.value s other v) := by
  induction swaps generalizing v with
  | decided value enough right other span =>
    cases derived with
    | decided before same => exact .decided before same
    | binary before undecided later =>
      -- the left operand has one value only, and that decides
      rw [fileless.derives_unique outside before value, enough] at undecided
      cases undecided
    | other dynamic => cases dynamic
  | ifTrue value fails yes other no span =>
    cases derived with
    | ifTrue test holds branch =>
      rw [fileless.derives_unique outside test value, fails] at holds
      cases holds
    | ifFalse test fails branch => exact .ifFalse test fails branch
    | other dynamic => cases dynamic
  | ifFalse value holds yes no other span =>
    cases derived with
    | ifTrue test holds branch => exact .ifTrue test holds branch
    | ifItself test holds => exact .ifItself test holds
    | ifFalse test fails branch =>
      rw [fileless.derives_unique outside test value, holds] at fails
      cases fails
    | other dynamic => cases dynamic
  | inert dynamic dynamic' =>
    rw [fileless.derives_unique outside derived (.other dynamic)]
    exact .other dynamic'
  | left inside ih =>
    cases derived with
    | decided before enough => exact .decided (ih before) enough
    | binary before undecided later => exact .binary (ih before) undecided later
    | other dynamic => cases dynamic
  | right inside ih =>
    cases derived with
    | decided before enough => exact .decided before enough
    | binary before undecided later => exact .binary before undecided (ih later)
    | other dynamic => cases dynamic
  | unary inside ih =>
    cases derived with
    | unary inner => exact .unary (ih inner)
    | other dynamic => cases dynamic
  | cast inside ih =>
    cases derived with
    | cast inner => exact .cast (ih inner)
    | other dynamic => cases dynamic
  | container inside ih =>
    cases derived with
    | index whole part => exact .index (ih whole) part
    | other dynamic => cases dynamic
  | offset inside ih =>
    cases derived with
    | index whole part => exact .index whole (ih part)
    | other dynamic => cases dynamic
  | condition inside ih =>
    cases derived with
    | ifTrue test holds branch => exact .ifTrue (ih test) holds branch
    | ifItself test holds => exact .ifItself (ih test) holds
    | ifFalse test fails branch => exact .ifFalse (ih test) fails branch
    | other dynamic => cases dynamic
  | yes inside ih =>
    cases derived with
    | ifTrue test holds branch => exact .ifTrue test holds (ih branch)
    | ifFalse test fails branch => exact .ifFalse test fails branch
    | other dynamic => cases dynamic
  | no inside ih =>
    cases derived with
    | ifTrue test holds branch => exact .ifTrue test holds branch
    | ifItself test holds => exact .ifItself test holds
    | ifFalse test fails branch => exact .ifFalse test fails (ih branch)
    | other dynamic => cases dynamic
  | key inside ih =>
    cases derived with
    | array built =>
      refine .array (derives_behind (fun t t' built => ?_) _ built)
      cases built with
      | unpack value later => exact .unpack value later
      | keyed index value later => exact .keyed (ih index) value later
    | other dynamic => cases dynamic
  | item inside ih =>
    cases derived with
    | array built =>
      refine .array (derives_behind (fun t t' built => ?_) _ built)
      cases built with
      | unpack value later => exact .unpack (ih value) later
      | keyed index value later => exact .keyed index (ih value) later
      | plain value later => exact .plain (ih value) later
    | other dynamic => cases dynamic

end Outside

end Fileless

/-- Without source files and outside of classes, an expression that has a value when all of its
operands are evaluated has that value; and it keeps its value, whatever it is, when operands that
are not evaluated are replaced, one after the other and at any depth. -/
theorem operands_passed_over (predefined builtin : Bool) (constants : List (String × Value))
    (evaluator : Evaluator) (s : Subject) (outside : s.class? = none) (m : Memory) (e : Expr)
    (v : Value) :
    let r := build predefined builtin constants []
    let has := fun e v => ((r.valueOf evaluator s e).run m).1 = .ok v
    (((e.eager (r.scope evaluator s)).run m).1 = .ok v → has e v) ∧
      (has e v → ∀ other, Relation.ReflTransGen (Expr.Swaps has) e other → has other v) := by
  intro r has
  have fileless : r.Fileless := build_fileless predefined builtin constants
  have meaning : has = fun e v => r.Derives (.value s e v) :=
    funext₂ fun e v => propext (fileless.run_valueOf_iff outside evaluator m)
  rw [meaning]
  constructor
  · exact derives_of_eager (fileless.valuesDerived outside evaluator) e
  · intro derived other steps
    induction steps with
    | refl => exact derived
    | tail _ swaps ih => exact fileless.derives_of_swaps outside swaps ih

theorem missing_parent_passed_over :
    let r := build true true [] []
    let s : Subject := .file ⟨"/app/a.php", []⟩
    let has := fun e v => ((r.valueOf (r.force 0) s e).run {}).1 = .ok v
    let either (right : Expr) : Expr :=
      .ternary (.binary (.int 0 {}) (.logic .and) right {}) none (.int 7 {}) {}
    let missing : Expr := .classConstant (.named (.parse "parent")) "X" {}
    has (either missing) (.int 7) ∧ has (either (.int 1 {})) (.int 7) ∧
      (((either missing).eager (r.scope (r.force 0) s)).run {}).1.toOption.isNone = true := by
  intro r s has either missing
  have all : (((either (.int 1 {})).eager (r.scope (r.force 0) s)).run {}).1 = .ok (.int 7) := rfl
  have lazy := (operands_passed_over true true [] (r.force 0) s rfl {} (either (.int 1 {}))
    (.int 7)).1 all
  have zero : has (.int 0 {}) (.int 0) := rfl
  have swaps : Expr.Swaps has (either (.int 1 {})) (either missing) :=
    .condition (.decided zero rfl (.int 1 {}) missing {})
  have kept := (operands_passed_over true true [] (r.force 0) s rfl {} (either (.int 1 {}))
    (.int 7)).2 lazy (either missing) (.single swaps)
  exact ⟨kept, lazy, by decide +kernel⟩

end Registry

end ConstExpr
