import ConstExpr.Proofs.Expansion

/-!
What an expression and a class constant mean, as rules: nothing is remembered, nothing is in
progress, and a search through ancestors does not look back. Where no namespace declares constants,
what an evaluator computes can be derived if that is so of single constants; and what can be derived
is computed, because a search that comes to an end never comes back to a class.
-/

namespace ConstExpr

def Expr.isStatic : Expr → Bool
  | .int .. | .float .. | .string .. | .magic .. | .constant .. | .classConstant (.named _) ..
  | .array .. | .index _ (some _) _ | .binary .. | .unary .. | .cast .. | .ternary .. => true
  | _ => false

theorem Expr.value_of_dynamic {e : Expr} (dynamic : e.isStatic = false) (scope : Scope) :
    e.value scope = pure .null := by
  rw [Expr.value]
  all_goals
    intros
    subst_vars
    simp [Expr.isStatic] at dynamic

inductive Judgement where
  | value (s : Subject) (e : Expr) (v : Value)
  -- the array that items turn a given one into
  | table (s : Subject) (items : List ArrayItem) (before after : Table Value)
  | constant (c : Class) (name : String) (o : Option Value)
  -- the constant of the first class to have one
  | first (cs : List Class) (name : String) (o : Option Value)

namespace Registry

def givenConstant (r : Registry) (name : Name) : Value :=
  -- without declared ones only keywords and given constants have a value
  let short := trimLeft '\\' name.text
  let given := (Builtin.keyword? short).or (Assoc.get? r.constants short)
  ((Builtin.keyword? name.text).or given).getD (.text name.text)

/-- The rules. A class is asked for its own constants first, then its parent, and once all its
interfaces are found, these in order. -/
inductive Derives (r : Registry) : Judgement → Prop
  | int {s i span} : Derives r (.value s (.int i span) (.int i))
  | float {s x span} : Derives r (.value s (.float x span) (.float x))
  | string {s b span} : Derives r (.value s (.string b span) (.str b))
  | magic {s kind span} : Derives r (.value s (.magic kind span) (kind.value span s))
  | named {s name span} : Derives r (.value s (.constant name span) (r.givenConstant name))
  | className {s cls name span} (asks : sameIgnoringCase name "class" = true)
      (full : cls.isFullyQualified = true) :
      Derives r (.value s (.classConstant (.named cls) name span) (.text cls.text))
  | classFound {s cls name span c} (asks : sameIgnoringCase name "class" = true)
      (short : cls.isFullyQualified = false) (found : r.resolve s cls = .ok c) :
      Derives r (.value s (.classConstant (.named cls) name span) (.text c.name))
  | classConstant {s cls name span c o} (asks : sameIgnoringCase name "class" = false)
      (found : r.resolve s cls = .ok c) (held : Derives r (.constant c name o)) :
      Derives r (.value s (.classConstant (.named cls) name span) (o.getD .null))
  | array {s items span t} (built : Derives r (.table s items .empty t)) :
      Derives r (.value s (.array items span) (.array t))
  | index {s container offset span c o} (whole : Derives r (.value s container c))
      (part : Derives r (.value s offset o)) :
      Derives r (.value s (.index container (some offset) span) (c.element o).value)
  | decided {s left op right span l v} (before : Derives r (.value s left l))
      (enough : op.decided? l = some v) : Derives r (.value s (.binary left op right span) v)
  | binary {s left op right span l v} (before : Derives r (.value s left l))
      (open_ : op.decided? l = none) (later : Derives r (.value s right v)) :
      Derives r (.value s (.binary left op right span) (op.apply l v).value)
  | unary {s op operand span v} (inner : Derives r (.value s operand v)) :
      Derives r (.value s (.unary op operand span) (op.apply v).value)
  | cast {s kind operand span v} (inner : Derives r (.value s operand v)) :
      Derives r (.value s (.cast kind operand span) (kind.apply v).value)
  | ifTrue {s condition yes no span c v} (test : Derives r (.value s condition c))
      (holds : c.truth = true) (branch : Derives r (.value s yes v)) :
      Derives r (.value s (.ternary condition (some yes) no span) v)
  | ifItself {s condition no span c} (test : Derives r (.value s condition c))
      (holds : c.truth = true) : Derives r (.value s (.ternary condition none no span) c)
  | ifFalse {s condition yes no span c v} (test : Derives r (.value s condition c))
      (fails : c.truth = false) (branch : Derives r (.value s no v)) :
      Derives r (.value s (.ternary condition yes no span) v)
  | other {s e} (dynamic : e.isStatic = false) : Derives r (.value s e .null)
  | nil {s t} : Derives r (.table s [] t t)
  | unpack {s key value byRef span rest t v t'} (item : Derives r (.value s value v))
      (later : Derives r (.table s rest (t.unpack v).value t')) :
      Derives r (.table s (⟨key, value, byRef, true, span⟩ :: rest) t t')
  | keyed {s key value byRef span rest t k v t'} (index : Derives r (.value s key k))
      (item : Derives r (.value s value v))
      (later : Derives r (.table s rest (t.store k v).value t')) :
      Derives r (.table s (⟨some key, value, byRef, false, span⟩ :: rest) t t')
  | plain {s value byRef span rest t v t'} (item : Derives r (.value s value v))
      (later : Derives r (.table s rest (t.append v).value t')) :
      Derives r (.table s (⟨none, value, byRef, false, span⟩ :: rest) t t')
  -- an initializer belongs to the class that declares the constant
  | declared {c name decl item v} (origin : c.decl? = some decl)
      (own : decl.constant? name = some item) (value : Derives r (.value (.cls c) item.value v)) :
      Derives r (.constant c name (some v))
  | builtin {c name v} (own : c.builtinConstant? name = some v) :
      Derives r (.constant c name (some v))
  | inherited {c name p v} (lacks : name ∉ c.ownConstantNames) (above : r.parent c = .ok p)
      (found : Derives r (.first p.toList name (some v))) : Derives r (.constant c name (some v))
  | implemented {c name p interfaces o} (lacks : name ∉ c.ownConstantNames)
      (above : r.parent c = .ok p) (missing : Derives r (.first p.toList name none))
      (all : r.interfaces c = .ok interfaces)
      (found : Derives r (.first (interfaces.map Prod.snd) name o)) : Derives r (.constant c name o)
  | nowhere {name} : Derives r (.first [] name none)
  | here {c cs name v} (found : Derives r (.constant c name (some v))) :
      Derives r (.first (c :: cs) name (some v))
  | next {c cs name o} (missing : Derives r (.constant c name none))
      (later : Derives r (.first cs name o)) : Derives r (.first (c :: cs) name o)

variable {r : Registry} {asked : Option Class}

section Own

variable {c : Class} {name : String}

theorem lazyConstant?_found {k : LazyConstant} (found : c.lazyConstant? name = some k) :
    ∃ decl item, c.decl? = some decl ∧ decl.constant? name = some item ∧ k.subject = .cls c ∧
      k.initializer = item.value := by
  unfold Class.lazyConstant? at found
  split at found
  next => cases found
  next decl file home origin =>
    obtain ⟨item, inside, rfl⟩ := Option.map_eq_some_iff.mp found
    exact ⟨decl, item, by simp [Class.decl?, origin], inside, rfl, rfl⟩

theorem exists_lazyConstant? {decl : ClassDecl} {item : ConstItem} (origin : c.decl? = some decl)
    (own : decl.constant? name = some item) :
    ∃ k, c.lazyConstant? name = some k ∧ k.subject = .cls c ∧ k.initializer = item.value := by
  cases found : c.lazyConstant? name with
  | none =>
    cases place : c.origin <;>
      simp_all [Class.decl?, Class.lazyConstant?]
  | some k =>
    obtain ⟨decl', item', origin', own', subject, initializer⟩ := lazyConstant?_found found
    obtain rfl := Option.some.inj (origin.symm.trans origin')
    obtain rfl := Option.some.inj (own.symm.trans own')
    exact ⟨k, rfl, subject, initializer⟩

theorem lazyConstant?_of_builtin {v : Value} (own : c.builtinConstant? name = some v) :
    c.lazyConstant? name = none := by
  unfold Class.builtinConstant? at own
  split at own
  next builtin => simp only [Class.lazyConstant?, builtin]
  next => cases own

theorem lacks_iff : name ∉ c.ownConstantNames ↔
    c.lazyConstant? name = none ∧ c.builtinConstant? name = none := by
  cases place : c.origin with
  | internal parent interfaces constants =>
    simp [Class.ownConstantNames, Class.lazyConstant?, Class.builtinConstant?, place,
      Assoc.get?_eq_none_iff]
  | declared decl file home =>
    simp [Class.ownConstantNames, Class.lazyConstant?, Class.builtinConstant?, place,
      ClassDecl.constant?]

end Own

theorem constantIn_eq (bare : r.namespaceConstants = []) (evaluator : Evaluator) (s : Subject)
    (name : Name) :
    ∃ resolution, r.constantIn evaluator s name = pure resolution ∧
      resolution.value = r.givenConstant name := by
  have spaced : ∀ key, r.namespaceConstant evaluator key = pure none := by
    intro key
    simp [namespaceConstant, namespaceLazy?, bare, Assoc.get?]
  have near : r.localConstant evaluator s name = pure none := by
    unfold localConstant
    split
    · rfl
    · split
      · exact spaced _
      · rfl
  have nowhere : ∀ text, r.constantKey? text = none := by
    intro text
    simp [constantKey?, bare, Assoc.keys]
  unfold constantIn givenConstant
  cases Builtin.keyword? name.text with
  | some v => exact ⟨_, rfl, rfl⟩
  | none =>
    simp only [near, pure_bind, globalConstant, nowhere]
    cases Builtin.keyword? (trimLeft '\\' name.text) with
    | some v => exact ⟨_, rfl, rfl⟩
    | none =>
      cases Assoc.get? r.constants (trimLeft '\\' name.text) with
      | some v => exact ⟨_, rfl, rfl⟩
      | none => exact ⟨_, rfl, rfl⟩

theorem valueOf_eq (evaluator : Evaluator) (s : Subject) (e : Expr) :
    r.valueOf evaluator s e = e.value (r.scope evaluator s) := by
  unfold valueOf evaluate Expr.resolve
  split
  next => simp only [Expr.value, Eval.map_eq_bind]
  next => simp only [Expr.value, Eval.map_eq_bind]
  next => simp

section Soundness

variable {evaluator : Evaluator} (sound : ∀ k, r.Declares asked k → ∀ m v,
  ((evaluator k).run m).1 = .ok v → r.Derives (.value k.subject k.initializer v))

include sound

theorem derives_ownConstant {c : Class} (known : r.Knows asked c) {name : String} {m : Memory}
    {o : Option Value} (done : ((ownConstant evaluator c name).run m).1 = .ok o) :
    (∃ v, o = some v ∧ r.Derives (.constant c name (some v))) ∨
      o = none ∧ name ∉ c.ownConstantNames := by
  unfold ownConstant at done
  cases found : c.lazyConstant? name with
  | some k =>
    simp only [found] at done
    obtain ⟨v, value, rfl⟩ := Eval.ok_of_map done
    obtain ⟨decl, item, origin, own, subject, initializer⟩ := lazyConstant?_found found
    have derived := sound k (.cls known found) m v value
    rw [subject, initializer] at derived
    exact .inl ⟨v, rfl, .declared origin own derived⟩
  | none =>
    simp only [found] at done
    obtain rfl : c.builtinConstant? name = o := Except.ok.inj done
    cases own : c.builtinConstant? name with
    | some v => exact .inl ⟨v, rfl, .builtin own⟩
    | none => exact .inr ⟨rfl, lacks_iff.mpr ⟨found, own⟩⟩

omit sound in
theorem derives_firstSome {name : String} {search : Class → Eval (Option Value)} {cs : List Class}
    (each : ∀ c ∈ cs, ∀ m o, ((search c).run m).1 = .ok o → r.Derives (.constant c name o))
    {m : Memory} {o : Option Value} (done : ((Eval.firstSome search cs).run m).1 = .ok o) :
    r.Derives (.first cs name o) := by
  induction cs generalizing m with
  | nil =>
    obtain rfl : none = o := Except.ok.inj done
    exact .nowhere
  | cons c rest ih =>
    obtain ⟨found, here, later⟩ := Eval.ok_of_bind done
    have derived := each c List.mem_cons_self m found here
    cases found with
    | some v =>
      obtain rfl : some v = o := Except.ok.inj later
      exact .here derived
    | none =>
      have others := ih (fun c member => each c (List.mem_cons_of_mem _ member)) later
      exact .next derived others

theorem derives_searchConstant {name : String} {fuel : Nat} {path : List String} {c : Class}
    (known : r.Knows asked c) {m : Memory} {o : Option Value}
    (done : ((r.searchConstant evaluator name fuel path c).run m).1 = .ok o) :
    r.Derives (.constant c name o) := by
  induction fuel generalizing path c m o with
  | zero => cases done
  | succ fuel ih =>
    simp only [searchConstant, climb] at done
    split at done
    · cases done
    · obtain ⟨own, here, done⟩ := Eval.ok_of_bind done
      rcases derives_ownConstant sound known here with ⟨v, rfl, derived⟩ | ⟨rfl, lacks⟩
      · obtain rfl : some v = o := Except.ok.inj done
        exact derived
      · obtain ⟨parent, above, done⟩ := Eval.ok_of_bind_lookup done
        obtain ⟨inherited, up, done⟩ := Eval.ok_of_bind done
        have parents := derives_firstSome
          (fun p member m o ended => ih (knows_of_mem_parent above member) ended) up
        cases inherited with
        | some v =>
          obtain rfl : some v = o := Except.ok.inj done
          exact .inherited lacks above parents
        | none =>
          obtain ⟨interfaces, named, done⟩ := Eval.ok_of_bind_lookup done
          have others := derives_firstSome
            (fun i member m o ended => ih (knows_of_interfaces named member) ended) done
          exact .implemented lacks above parents named others

theorem derives_classConstantIn {s : Subject} (placed : r.Places asked s) {cls : Name}
    {name : String} {m : Memory} {resolution : Resolution} (span : Span)
    (done : ((r.classConstantIn evaluator s cls name).run m).1 = .ok resolution) :
    r.Derives (.value s (.classConstant (.named cls) name span) resolution.value) := by
  dsimp only [classConstantIn] at done
  cases asks : sameIgnoringCase name "class" with
  | true =>
    cases full : cls.isFullyQualified with
    | true =>
      simp only [asks, full, Bool.and_self, if_true] at done
      rw [← Except.ok.inj done]
      exact .className asks full
    | false =>
      simp only [asks, full, Bool.and_false, Bool.false_eq_true, if_false, if_true] at done
      obtain ⟨c, found, done⟩ := Eval.ok_of_bind_lookup done
      rw [← Except.ok.inj done]
      exact .classFound asks full found
  | false =>
    simp only [asks, Bool.false_and, Bool.false_eq_true, if_false] at done
    obtain ⟨c, found, done⟩ := Eval.ok_of_bind_lookup done
    obtain ⟨o, searched, done⟩ := Eval.ok_of_bind done
    have held := derives_searchConstant sound (knows_of_resolve placed found) searched
    cases o with
    | some v =>
      rw [← Except.ok.inj done]
      exact .classConstant asks found held
    | none =>
      obtain ⟨_, _, done⟩ := Eval.ok_of_bind done
      rw [← Except.ok.inj done]
      exact .classConstant asks found held

theorem derives_value (bare : r.namespaceConstants = []) {s : Subject} (placed : r.Places asked s)
    (e : Expr) {m : Memory} {v : Value}
    (done : ((e.value (r.scope evaluator s)).run m).1 = .ok v) : r.Derives (.value s e v) := by
  -- by the cases of evaluation, with the items of arrays as a second motive
  refine Expr.value.induct
    (fun e => ∀ m v, ((e.value (r.scope evaluator s)).run m).1 = .ok v → r.Derives (.value s e v))
    (fun items t => ∀ m t', ((Expr.tableOf (r.scope evaluator s) items t).run m).1 = .ok t' →
      r.Derives (.table s items t t'))
    ?int ?float ?string ?magic ?constant ?classConstant ?array ?index ?binary ?unary ?cast
    ?ternary ?short ?other ?nil ?unpack ?keyed ?plain e m v done
  case int =>
    intro i span m v done
    rw [← Except.ok.inj done]
    exact .int
  case float =>
    intro x span m v done
    rw [← Except.ok.inj done]
    exact .float
  case string =>
    intro b span m v done
    rw [← Except.ok.inj done]
    exact .string
  case magic =>
    intro kind span m v done
    rw [← Except.ok.inj done]
    exact .magic
  case constant =>
    intro name span m v done
    obtain ⟨resolution, looked, rfl⟩ := Eval.ok_of_map done
    obtain ⟨given, same, value⟩ := constantIn_eq bare evaluator s name
    rw [show (r.scope evaluator s).constant name = pure given from same] at looked
    rw [← Except.ok.inj looked, value]
    exact .named
  case classConstant =>
    intro cls name span m v done
    obtain ⟨resolution, looked, rfl⟩ := Eval.ok_of_map done
    exact derives_classConstantIn sound placed span looked
  case array =>
    intro items span built m v done
    obtain ⟨t, items, rfl⟩ := Eval.ok_of_map done
    exact .array (built m t items)
  case index =>
    intro container offset span whole part m v done
    obtain ⟨c, first, done⟩ := Eval.ok_of_bind done
    obtain ⟨o, second, done⟩ := Eval.ok_of_bind done
    rw [← Except.ok.inj done]
    exact .index (whole m c first) (part _ o second)
  case binary =>
    intro left op right span before later m v done
    obtain ⟨l, first, done⟩ := Eval.ok_of_bind done
    cases enough : op.decided? l with
    | some w =>
      simp only [enough] at done
      rw [← Except.ok.inj done]
      exact .decided (before m l first) enough
    | none =>
      simp only [enough] at done
      obtain ⟨w, second, done⟩ := Eval.ok_of_bind done
      rw [← Except.ok.inj done]
      exact .binary (before m l first) enough (later _ w second)
  case unary =>
    intro op operand span inner m v done
    obtain ⟨w, first, done⟩ := Eval.ok_of_bind done
    rw [← Except.ok.inj done]
    exact .unary (inner m w first)
  case cast =>
    intro kind operand span inner m v done
    obtain ⟨w, first, done⟩ := Eval.ok_of_bind done
    rw [← Except.ok.inj done]
    exact .cast (inner m w first)
  case ternary =>
    intro condition yes no span test ifTrue ifFalse m v done
    obtain ⟨c, first, done⟩ := Eval.ok_of_bind done
    cases holds : c.truth with
    | true =>
      simp only [holds, if_true] at done
      exact .ifTrue (test m c first) holds (ifTrue _ v done)
    | false =>
      simp only [holds, Bool.false_eq_true, if_false] at done
      exact .ifFalse (test m c first) holds (ifFalse _ v done)
  case short =>
    intro condition no span test ifFalse m v done
    obtain ⟨c, first, done⟩ := Eval.ok_of_bind done
    cases holds : c.truth with
    | true =>
      simp only [holds, if_true] at done
      rw [← Except.ok.inj done]
      exact .ifItself (test m c first) holds
    | false =>
      simp only [holds, Bool.false_eq_true, if_false] at done
      exact .ifFalse (test m c first) holds (ifFalse _ v done)
  case other =>
    intro e int float string magic constant classConstant array index binary unary cast ternary
      short m v done
    have dynamic : e.isStatic = false := by
      unfold Expr.isStatic
      split
      · exact (int _ _ rfl).elim
      · exact (float _ _ rfl).elim
      · exact (string _ _ rfl).elim
      · exact (magic _ _ rfl).elim
      · exact (constant _ _ rfl).elim
      · exact (classConstant _ _ _ rfl).elim
      · exact (array _ _ rfl).elim
      · exact (index _ _ _ rfl).elim
      · exact (binary _ _ _ _ rfl).elim
      · exact (unary _ _ _ rfl).elim
      · exact (cast _ _ _ rfl).elim
      · next condition yes no span =>
        cases yes with
        | some yes => exact (ternary _ _ _ _ rfl).elim
        | none => exact (short _ _ _ rfl).elim
      · rfl
    rw [Expr.value_of_dynamic dynamic] at done
    rw [← Except.ok.inj done]
    exact .other dynamic
  case nil =>
    intro t m t' done
    rw [← Except.ok.inj done]
    exact .nil
  case unpack =>
    intro key value byRef span rest t item later m t' done
    obtain ⟨v, first, done⟩ := Eval.ok_of_bind done
    exact .unpack (item m v first) (later _ _ t' done)
  case keyed =>
    intro key value byRef span rest t index item later m t' done
    obtain ⟨k, first, done⟩ := Eval.ok_of_bind done
    obtain ⟨v, second, done⟩ := Eval.ok_of_bind done
    exact .keyed (index m k first) (item _ v second) (later _ _ t' done)
  case plain =>
    intro value byRef span rest t item later m t' done
    obtain ⟨v, first, done⟩ := Eval.ok_of_bind done
    exact .plain (item m v first) (later _ _ t' done)

end Soundness

theorem derives_expand (bare : r.namespaceConstants = []) (depth : Nat) (k : LazyConstant)
    (declared : r.Declares asked k) (m : Memory) (v : Value)
    (done : ((r.expand depth k).run m).1 = .ok v) :
    r.Derives (.value k.subject k.initializer v) := by
  induction depth generalizing k m v with
  | zero => cases done
  | succ depth ih =>
    rw [expand, valueOf_eq] at done
    exact derives_value ih bare declared.places k.initializer done

def NamesApart (r : Registry) (asked : Option Class) : Prop :=
  ∀ c c', r.Knows asked c → r.Knows asked c' → foldCase c.name = foldCase c'.name → c = c'

section Search

variable {evaluator : Evaluator} {name : String}

/-- The search for a constant that does not look back: only its depth is limited. -/
def freeSearch (r : Registry) (evaluator : Evaluator) (name : String) :
    Nat → Class → Eval (Option Value)
  | 0, _ => throw .outOfFuel
  | depth + 1, c => r.consult evaluator name c (r.freeSearch evaluator name depth)

variable (steady : ∀ k, r.Declares asked k → r.refinement.Rel (evaluator k) (evaluator k))

include steady

theorem freeSearch_refines (depth extra : Nat) {c : Class} (known : r.Knows asked c) :
    r.refinement.Rel (r.freeSearch evaluator name depth c)
      (r.freeSearch evaluator name (depth + extra) c) := by
  induction depth generalizing c with
  | zero => exact fun m m' going => absurd rfl going
  | succ depth ih =>
    rw [Nat.succ_add]
    exact r.refinement.consult steady known name fun _ there => ih there

theorem freeSearch_stuck {shallow deep : Nat} (less : shallow ≤ deep) {c : Class}
    (known : r.Knows asked c) {m : Memory}
    (stuck : ((r.freeSearch evaluator name deep c).run m).1 = .error .outOfFuel) (m' : Memory) :
    ((r.freeSearch evaluator name shallow c).run m').1 = .error .outOfFuel := by
  obtain ⟨extra, rfl⟩ := Nat.exists_eq_add_of_le less
  by_contra ends
  exact ends ((freeSearch_refines steady shallow extra known m' m ends).symm.trans stuck)

/-- A search that ends never comes back to a class it is in the middle of, for that one would end at
a lesser depth than itself. So looking back makes no difference to it. -/
theorem searchConstant_of_free (apart : r.NamesApart asked) {fuel : Nat} {path : List String}
    (walked : Simulation.Path r asked fuel path) {depth : Nat}
    (below : ∀ c, r.Knows asked c → foldCase c.name ∈ path → ∀ m,
      ((r.freeSearch evaluator name depth c).run m).1 = .error .outOfFuel)
    {c : Class} (known : r.Knows asked c) :
    r.refinement.Rel (r.freeSearch evaluator name depth c)
      (r.searchConstant evaluator name fuel path c) := by
  induction fuel generalizing path depth c with
  | zero => exact absurd walked Simulation.Path.fuel_pos
  | succ fuel ih =>
    intro m m' ends
    -- a class on the path would not end at this depth
    have new : foldCase c.name ∉ path := fun old => ends (below c known old m)
    -- whatever the class consults ends at a depth less than its least one, so not the class itself
    have some : ∃ least, ((r.freeSearch evaluator name least c).run m).1 ≠ .error .outOfFuel :=
      ⟨depth, ends⟩
    classical
    obtain ⟨least, enough, minimal⟩ := Nat.findX some
    have within : least ≤ depth := by
      by_contra above
      exact minimal depth (by omega) ends
    obtain ⟨extra, rfl⟩ := Nat.exists_eq_add_of_le within
    rw [freeSearch_refines steady least extra known m m enough]
    cases least with
    | zero => exact absurd rfl enough
    | succ inner =>
      have below' : ∀ c', r.Knows asked c' → foldCase c'.name ∈ foldCase c.name :: path → ∀ m,
          ((r.freeSearch evaluator name inner c').run m).1 = .error .outOfFuel := by
        intro c' there shown m''
        rcases List.mem_cons.mp shown with same | old
        · rw [apart c' c there known same]
          have stuck := not_not.mp (minimal inner (Nat.lt_succ_self inner))
          exact freeSearch_stuck steady (Nat.le_refl inner) known stuck m''
        · exact freeSearch_stuck steady (by omega) there (below c' there old m'') m''
      have walk : r.searchConstant evaluator name (fuel + 1) path c =
          r.consult evaluator name c
            (r.searchConstant evaluator name fuel (foldCase c.name :: path)) := by
        rw [searchConstant, climb, if_neg new]
      rw [walk]
      exact r.refinement.consult steady known name
        (fun a there => ih (walked.step known new) below' there) m m' enough

end Search

section Completeness

/-- What it means for an evaluator to compute what a judgement says. The depth of a search is left
open, since what is derived bounds it by no number known beforehand. -/
def Computes (r : Registry) (asked : Option Class) (evaluator : Evaluator) : Judgement → Prop
  | .value s e v => r.Places asked s → ∀ m, ((e.value (r.scope evaluator s)).run m).1 = .ok v
  | .table s items t t' => r.Places asked s →
      ∀ m, ((Expr.tableOf (r.scope evaluator s) items t).run m).1 = .ok t'
  | .constant c name o => r.Knows asked c →
      ∃ depth, ∀ m, ((r.freeSearch evaluator name depth c).run m).1 = .ok o
  | .first cs name o => (∀ c ∈ cs, r.Knows asked c) →
      ∃ depth, ∀ m, ((Eval.firstSome (r.freeSearch evaluator name depth) cs).run m).1 = .ok o

variable {evaluator : Evaluator}
  (steady : ∀ k, r.Declares asked k → r.refinement.Rel (evaluator k) (evaluator k))
  (full : ∀ k, r.Declares asked k → ∀ v,
    (∀ m, ((k.initializer.value (r.scope evaluator k.subject)).run m).1 = .ok v) →
    ∀ m, ((evaluator k).run m).1 = .ok v)
  (apart : r.NamesApart asked)

theorem ownConstant_of_lacks {c : Class} {name : String} (lacks : name ∉ c.ownConstantNames) :
    ownConstant evaluator c name = pure none := by
  obtain ⟨first, second⟩ := lacks_iff.mp lacks
  simp only [ownConstant, first, second]

include full in
theorem computes_declared {c : Class} (known : r.Knows asked c) {name : String} {decl : ClassDecl}
    {item : ConstItem} {v : Value} (origin : c.decl? = some decl)
    (own : decl.constant? name = some item)
    (value : r.Computes asked evaluator (.value (.cls c) item.value v)) (m : Memory) :
    ((ownConstant evaluator c name).run m).1 = .ok (some v) := by
  obtain ⟨k, found, subject, initializer⟩ := exists_lazyConstant? origin own
  have done : ∀ m, ((k.initializer.value (r.scope evaluator k.subject)).run m).1 = .ok v := by
    rw [subject, initializer]
    exact value (places_cls known)
  simp only [ownConstant, found]
  exact Eval.run_map_ok (full k (.cls known found) v done m) some

theorem consult_of_lacks {c : Class} {name : String} {parent : Option Class}
    {search : Class → Eval (Option Value)} (lacks : name ∉ c.ownConstantNames)
    (above : r.parent c = .ok parent) :
    r.consult evaluator name c search = Eval.firstSome search parent.toList >>= fun
      | some v => pure (some v)
      | none => Eval.ofLookup (r.interfaces c) >>= fun interfaces =>
        Eval.firstSome search (interfaces.map Prod.snd) := by
  unfold consult
  rw [ownConstant_of_lacks lacks, above]
  rfl

include steady in
theorem firstSome_refines {name : String} (depth extra : Nat) {cs : List Class}
    (known : ∀ c ∈ cs, r.Knows asked c) :
    r.refinement.Rel (Eval.firstSome (r.freeSearch evaluator name depth) cs)
      (Eval.firstSome (r.freeSearch evaluator name (depth + extra)) cs) :=
  r.refinement.firstSome fun c member => freeSearch_refines steady depth extra (known c member)

include steady apart in
theorem searchConstant_of_computes {c : Class} (known : r.Knows asked c) {name : String}
    {o : Option Value} (computed : r.Computes asked evaluator (.constant c name o)) (m : Memory) :
    ((r.searchConstant evaluator name r.hierarchyBound [] c).run m).1 = .ok o := by
  obtain ⟨depth, done⟩ := computed known
  have guarded : r.refinement.Rel (r.freeSearch evaluator name depth c)
      (r.searchConstant evaluator name r.hierarchyBound [] c) :=
    searchConstant_of_free steady apart (Simulation.Path.start r asked) (fun c _ no => by cases no)
      known
  exact (guarded m m (by simp [done m])).trans (done m)

theorem run_classConstantIn {s : Subject} {cls : Name} {name : String} {c : Class}
    {o : Option Value} (asks : sameIgnoringCase name "class" = false)
    (found : r.resolve s cls = .ok c)
    (searched : ∀ m, ((r.searchConstant evaluator name r.hierarchyBound [] c).run m).1 = .ok o)
    (m : Memory) :
    ∃ resolution, ((r.classConstantIn evaluator s cls name).run m).1 = .ok resolution ∧
      resolution.value = o.getD .null := by
  simp only [classConstantIn, asks, found, Bool.false_and, Bool.false_eq_true, if_false]
  show ∃ resolution, ((r.searchConstant evaluator name r.hierarchyBound [] c >>= _).run m).1 =
    .ok resolution ∧ _
  rw [Eval.run_bind_ok (searched m)]
  cases o with
  | some v => exact ⟨_, rfl, rfl⟩
  | none => exact ⟨_, rfl, rfl⟩

include steady full apart in
theorem Derives.computes (bare : r.namespaceConstants = []) {j : Judgement}
    (derived : r.Derives j) : r.Computes asked evaluator j := by
  induction derived with
  | int => exact fun _ m => rfl
  | float => exact fun _ m => rfl
  | string => exact fun _ m => rfl
  | magic => exact fun _ m => rfl
  | @named s name span =>
    intro _ m
    obtain ⟨given, same, value⟩ := constantIn_eq bare evaluator s name
    have looked : (((r.scope evaluator s).constant name).run m).1 = .ok given := by
      rw [show (r.scope evaluator s).constant name = pure given from same]
      rfl
    rw [← value]
    exact Eval.run_map_ok looked Resolution.value
  | @className s cls name span asks full =>
    intro _ m
    have looked : r.classConstantIn evaluator s cls name = pure { value := .text cls.text } := by
      simp only [classConstantIn, asks, full, Bool.and_self, if_true]
    simp only [Expr.value, scope, looked]
    rfl
  | @classFound s cls name span c asks short found =>
    intro _ m
    have looked : r.classConstantIn evaluator s cls name = pure { value := .text c.name } := by
      simp only [classConstantIn, asks, short, found, Bool.and_false, Bool.false_eq_true, if_false,
        if_true]
      rfl
    simp only [Expr.value, scope, looked]
    rfl
  | @classConstant s cls name span c o asks found held ih =>
    intro placed m
    obtain ⟨resolution, looked, value⟩ := run_classConstantIn asks found
      (searchConstant_of_computes steady apart (knows_of_resolve placed found) ih) m
    rw [← value]
    exact Eval.run_map_ok looked Resolution.value
  | array built ih => exact fun placed m => Eval.run_map_ok (ih placed m) Value.array
  | index whole part whole_ih part_ih =>
    intro placed m
    simp only [Expr.value]
    rw [Eval.run_bind_ok (whole_ih placed m), Eval.run_bind_ok (part_ih placed _)]
    rfl
  | decided before enough ih =>
    intro placed m
    simp only [Expr.value]
    rw [Eval.run_bind_ok (ih placed m), enough]
    rfl
  | binary before open_ later before_ih later_ih =>
    intro placed m
    simp only [Expr.value]
    rw [Eval.run_bind_ok (before_ih placed m), open_]
    rw [Eval.run_bind_ok (later_ih placed _)]
    rfl
  | unary inner ih =>
    intro placed m
    simp only [Expr.value]
    rw [Eval.run_bind_ok (ih placed m)]
    rfl
  | cast inner ih =>
    intro placed m
    simp only [Expr.value]
    rw [Eval.run_bind_ok (ih placed m)]
    rfl
  | ifTrue test holds branch test_ih branch_ih =>
    intro placed m
    simp only [Expr.value]
    rw [Eval.run_bind_ok (test_ih placed m), if_pos holds]
    exact branch_ih placed _
  | ifItself test holds ih =>
    intro placed m
    simp only [Expr.value]
    rw [Eval.run_bind_ok (ih placed m), if_pos holds]
    rfl
  | @ifFalse s condition yes no span c v test fails branch test_ih branch_ih =>
    intro placed m
    have not : ¬c.truth = true := by simp [fails]
    cases yes with
    | some yes =>
      simp only [Expr.value]
      rw [Eval.run_bind_ok (test_ih placed m), if_neg not]
      exact branch_ih placed _
    | none =>
      simp only [Expr.value]
      rw [Eval.run_bind_ok (test_ih placed m), if_neg not]
      exact branch_ih placed _
  | other dynamic =>
    intro _ m
    rw [Expr.value_of_dynamic dynamic]
    rfl
  | nil => exact fun _ m => rfl
  | unpack item later item_ih later_ih =>
    intro placed m
    simp only [Expr.tableOf]
    rw [Eval.run_bind_ok (item_ih placed m)]
    exact later_ih placed _
  | keyed index item later index_ih item_ih later_ih =>
    intro placed m
    simp only [Expr.tableOf]
    rw [Eval.run_bind_ok (index_ih placed m), Eval.run_bind_ok (item_ih placed _)]
    exact later_ih placed _
  | plain item later item_ih later_ih =>
    intro placed m
    simp only [Expr.tableOf]
    rw [Eval.run_bind_ok (item_ih placed m)]
    exact later_ih placed _
  | declared origin own value ih =>
    -- an own constant is found at once, however deep its initializer goes
    intro known
    refine ⟨1, fun m => ?_⟩
    rw [freeSearch, consult, Eval.run_bind_ok (computes_declared full known origin own ih m)]
    rfl
  | @builtin c name v own =>
    intro known
    refine ⟨1, fun m => ?_⟩
    have looked : ownConstant evaluator c name = pure (some v) := by
      simp only [ownConstant, lazyConstant?_of_builtin own, own]
    rw [freeSearch, consult, looked]
    rfl
  | inherited lacks above found ih =>
    intro known
    obtain ⟨depth, done⟩ := ih fun p member => knows_of_mem_parent above member
    refine ⟨depth + 1, fun m => ?_⟩
    rw [freeSearch, consult_of_lacks lacks above, Eval.run_bind_ok (done m)]
    rfl
  | @implemented c name p interfaces o lacks above missing all found missing_ih found_ih =>
    intro known
    have parents : ∀ a ∈ p.toList, r.Knows asked a := fun a member =>
      knows_of_mem_parent above member
    have others : ∀ a ∈ interfaces.map Prod.snd, r.Knows asked a := fun a member =>
      knows_of_interfaces all member
    obtain ⟨up, above_done⟩ := missing_ih parents
    obtain ⟨across, beside_done⟩ := found_ih others
    -- both searches end at the sum of the two depths
    refine ⟨up + across + 1, fun m => ?_⟩
    have first : ((Eval.firstSome (r.freeSearch evaluator name (up + across)) p.toList).run m).1 =
        .ok none :=
      (firstSome_refines steady up across parents m m (by simp [above_done])).trans (above_done m)
    rw [freeSearch, consult_of_lacks lacks above, Eval.run_bind_ok first, all]
    rw [Nat.add_comm up across]
    exact (firstSome_refines steady across up others m _ (by simp [beside_done])).trans
      (beside_done m)
  | nowhere => exact fun _ => ⟨0, fun m => rfl⟩
  | here found ih =>
    intro known
    obtain ⟨depth, done⟩ := ih (known _ List.mem_cons_self)
    refine ⟨depth, fun m => ?_⟩
    rw [Eval.firstSome, Eval.run_bind_ok (done m)]
    rfl
  | @next c cs name o missing later missing_ih later_ih =>
    intro known
    have here := known c List.mem_cons_self
    have rest : ∀ a ∈ cs, r.Knows asked a := fun a member => known a (List.mem_cons_of_mem _ member)
    obtain ⟨one, first_done⟩ := missing_ih here
    obtain ⟨two, rest_done⟩ := later_ih rest
    refine ⟨one + two, fun m => ?_⟩
    have first : ((r.freeSearch evaluator name (one + two) c).run m).1 = .ok none :=
      (freeSearch_refines steady one two here m m (by simp [first_done])).trans (first_done m)
    rw [Eval.firstSome, Eval.run_bind_ok first, Nat.add_comm one two]
    exact (firstSome_refines steady two one rest m _ (by simp [rest_done])).trans (rest_done m)

end Completeness

end Registry

end ConstExpr
