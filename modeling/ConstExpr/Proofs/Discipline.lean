import ConstExpr.Proofs.Bookkeeping
import ConstExpr.Proofs.Contract

/-!
Disciplines: a condition on values that every operation keeps, and one on failures that leaves open
only where a search through ancestors may come back to a class. Evaluation under a discipline has
fine values only, remembers fine values only, and fails as allowed.
-/

namespace ConstExpr

def Query.class? : Query → Option ClassSource
  | .eval source _ | .process source _ | .staticVars source | .collectStatics source _
  | .param source _ => source.class?
  | .constant source _ | .constants source | .property source _ => some source
  | _ => none

/-- The query hands in no class of its own: a class that it is about is given by name. -/
def Query.Named (q : Query) : Prop := ∀ given, q.class? = some given → ∃ name, given = .named name

/-- Whether a condition holds of all the values in an answer. -/
def Answer.All (fine : Value → Prop) : Answer → Prop
  | .resolution found => ∀ resolution ∈ found, fine resolution.value
  | .resolutions all => ∀ resolution ∈ all, fine resolution.value
  | .value found => ∀ v ∈ found, fine v
  | .values all => ∀ entry ∈ all, fine entry.2
  | _ => True

theorem Answer.All.mono {fine weaker : Value → Prop} {a : Answer} (all : a.All fine)
    (weakens : ∀ v, fine v → weaker v) : a.All weaker := by
  cases a with
  | resolution found => exact fun resolution member => weakens _ (all resolution member)
  | resolutions every => exact fun resolution member => weakens _ (all resolution member)
  | value found => exact fun v member => weakens v (all v member)
  | values every => exact fun entry member => weakens _ (all entry member)
  | _ => trivial

def Failure.isCircular : Failure → Bool
  | circularInheritance _ => true
  | _ => false

def Plain {α : Type} (x : Except Failure α) : Prop := ∀ f, x = .error f → f.isCircular = false

theorem Plain.ok {α : Type} (a : α) : Plain (.ok a : Except Failure α) := fun _ no => by cases no

theorem Plain.error {α : Type} {f : Failure} (plain : f.isCircular = false) :
    Plain (.error f : Except Failure α) := by
  rintro _ ⟨⟩
  exact plain

theorem Plain.bind {α β : Type} {x : Except Failure α} {f : α → Except Failure β} (here : Plain x)
    (later : ∀ a, Plain (f a)) : Plain (x >>= f) := by
  cases x with
  | error failure => exact .error (here failure rfl)
  | ok a => exact later a

theorem Plain.map {α β : Type} {x : Except Failure α} (f : α → β) (here : Plain x) :
    Plain (f <$> x) := by
  cases x with
  | error failure => exact .error (here failure rfl)
  | ok a => exact .ok (f a)

theorem Plain.mapM {α β : Type} {f : α → Except Failure β} (each : ∀ a, Plain (f a))
    (members : List α) : Plain (members.mapM f) := by
  induction members with
  | nil => exact .ok []
  | cons a rest ih =>
    rw [List.mapM_cons]
    exact (each a).bind fun b => ih.bind fun found => .ok (b :: found)

namespace Registry

section Lookups

variable (r : Registry)

theorem find_plain (name : String) : Plain (r.find name) := by
  unfold find
  split
  · exact .ok _
  · split
    · exact .ok _
    · exact .error rfl

theorem findLoaded_plain (name : String) : Plain (r.findLoaded name) := by
  unfold findLoaded
  split
  · exact .ok _
  · exact r.find_plain name

theorem parent_plain (c : Class) : Plain (r.parent c) := by
  unfold parent
  split
  · exact (r.findLoaded_plain _).map some
  · exact .ok none

theorem findAll_plain {find : String → Except Failure Class} (plain : ∀ name, Plain (find name))
    (names : List String) : Plain (findAll find names) := by
  refine Plain.bind (.mapM (fun name => ?_) names) fun pairs => .ok _
  exact (plain name).bind fun c => .ok (name, c)

theorem interfaces_plain (c : Class) : Plain (r.interfaces c) := by
  unfold interfaces
  split
  · exact findAll_plain r.find_plain _
  · exact findAll_plain r.findLoaded_plain _

theorem traits_plain (c : Class) : Plain (r.traits c) := by
  unfold traits
  split
  · exact findAll_plain r.find_plain _
  · exact .ok []

theorem resolve_plain (s : Subject) (name : Name) : Plain (r.resolve s name) := by
  unfold resolve
  split
  · exact r.findLoaded_plain _
  · split
    · split
      · exact .ok _
      · exact .error rfl
    · split
      · exact .ok _
      · exact .error rfl
    · split
      · exact .error rfl
      · refine (r.parent_plain _).bind fun p => ?_
        split
        · exact .ok _
        · exact .error rfl
    · exact r.find_plain _

theorem source_plain (source : ClassSource) : Plain (r.source source) := by
  cases source with
  | named name => exact r.find_plain name
  | declared name decl file => exact .ok _
  | internal name kind parent interfaces constants => exact .ok _

theorem function_plain (name : String) : Plain (r.function name) := by
  unfold function
  split
  · exact .ok _
  · exact .error rfl

theorem classDecl_plain (name : String) : Plain (r.classDecl name) := by
  unfold classDecl
  split
  · exact .ok _
  · exact .error rfl

theorem subjectOf_plain (source : SubjectSource) : Plain (r.subjectOf source) := by
  cases source with
  | cls c => exact (r.source_plain c).map _
  | method c name =>
    refine (r.source_plain c).bind fun c => ?_
    split
    · exact .ok _
    · exact .error rfl
  | anyMethod c name => exact (r.source_plain c).bind fun c => .ok _
  | function name => exact (r.function_plain name).map _
  | givenFunction f => exact .ok _
  | space n => exact .ok _
  | file name => exact .ok _
  | givenFile f => exact .ok _

theorem sameClass_plain (a b : String) : Plain (r.sameClass a b) :=
  (r.find_plain a).bind fun _ => (r.find_plain b).bind fun _ => .ok _

end Lookups

/-- An edge of the hierarchy: from a class to its parent, and to each of its interfaces. -/
def Above (r : Registry) (c a : Class) : Prop :=
  r.parent c = .ok (some a) ∨
    ∃ interfaces, r.interfaces c = .ok interfaces ∧ a ∈ interfaces.map Prod.snd

theorem above_of_mem_parent {r : Registry} {c a : Class} {parent : Option Class}
    (found : r.parent c = .ok parent) (member : a ∈ parent.toList) : r.Above c a := by
  obtain rfl : parent = some a := by simpa using member
  exact .inl found

theorem above_of_interfaces {r : Registry} {c a : Class} {interfaces : Assoc String Class}
    (found : r.interfaces c = .ok interfaces) (member : a ∈ interfaces.map Prod.snd) :
    r.Above c a :=
  .inr ⟨interfaces, found, member⟩

theorem above_iff {r : Registry} {c a : Class} {parent : Option Class}
    {interfaces : Assoc String Class} (found : r.parent c = .ok parent)
    (named : r.interfaces c = .ok interfaces) :
    r.Above c a ↔ a ∈ parent.toList ++ interfaces.map Prod.snd := by
  simp only [Above, found, named, List.mem_append, Option.mem_toList, Except.ok.injEq]
  constructor
  · rintro (above | ⟨_, rfl, member⟩)
    · exact .inl above
    · exact .inr member
  · rintro (above | member)
    · exact .inl above
    · exact .inr ⟨_, rfl, member⟩

theorem Above.knows {r : Registry} {asked : Option Class} {c a : Class} (above : r.Above c a) :
    r.Knows asked a := by
  rcases above with parent | ⟨interfaces, found, member⟩
  · exact knows_of_parent parent
  · exact knows_of_interfaces found member

/-- A condition on values that all operations keep, and one on failures. -/
structure Discipline (r : Registry) (asked : Option Class) where
  Fine : Value → Prop
  Allowed : Failure → Prop
  -- where a walk through ancestors can be: at a class, on a path of its descendants
  Walks : List String → Class → Prop
  plain : ∀ {v}, v.table? = none → Fine v
  given : ∀ {name v}, Assoc.get? r.constants name = some v → Fine v
  builtin : ∀ {c}, r.Knows asked c → ∀ {name v}, c.builtinConstant? name = some v → Fine v
  empty : Fine (.array .empty)
  unpack : ∀ {t v}, Fine (.array t) → Fine v → Fine (.array (t.unpack v).value)
  store : ∀ {t v}, Fine (.array t) → ∀ key, Fine v → Fine (.array (t.store key v).value)
  append : ∀ {t v}, Fine (.array t) → Fine v → Fine (.array (t.append v).value)
  element : ∀ {v}, Fine v → ∀ offset, Fine (v.element offset).value
  binary : ∀ {l v}, Fine l → ∀ op : BinaryOp, Fine v → Fine (op.apply l v).value
  unary : ∀ {v}, Fine v → ∀ op : UnaryOp, Fine (op.apply v).value
  cast : ∀ {v}, Fine v → ∀ kind : CastKind, Fine (kind.apply v).value
  other : ∀ {f}, f.isCircular = false → Allowed f
  start : ∀ {c}, r.Knows asked c → Walks [] c
  step : ∀ {path c a}, Walks path c → foldCase c.name ∉ path → r.Above c a →
    Walks (foldCase c.name :: path) a
  again : ∀ {path c}, Walks path c → foldCase c.name ∈ path →
    Allowed (.circularInheritance c.name)

namespace Discipline

variable {r : Registry} {asked : Option Class} (d : r.Discipline asked)

def contract : Contract where
  keeps m := ∀ entry ∈ m.values, d.Fine entry.2
  allows := d.Allowed
  noted _ _ kept := kept

theorem allows_plain {α : Type} {x : Except Failure α} (plain : Plain x) :
    ∀ f, x = .error f → d.contract.allows f :=
  fun f failed => d.other (plain f failed)

def FineIfAny (o : Option Value) : Prop := ∀ v ∈ o, d.Fine v

theorem fineIfAny_none : d.FineIfAny none := by simp [FineIfAny]

theorem fineIfAny_some {v : Value} (fine : d.Fine v) : d.FineIfAny (some v) := by
  simpa [FineIfAny] using fine

theorem decided {op : BinaryOp} {l v : Value} (fine : d.Fine l) (enough : op.decided? l = some v) :
    d.Fine v := by
  have either : v = l ∨ ∃ b, v = .bool b := by
    unfold BinaryOp.decided? at enough
    grind
  rcases either with rfl | ⟨b, rfl⟩
  · exact fine
  · exact d.plain rfl

theorem firstSome {α : Type} {f : α → Eval (Option Value)} {members : List α}
    (each : ∀ a ∈ members, d.contract.Ensures (f a) d.FineIfAny) :
    d.contract.Ensures (Eval.firstSome f members) d.FineIfAny := by
  refine (Contract.ensures_firstSome each).mono ?_
  rintro o (⟨v, rfl, a, -, fine⟩ | ⟨rfl, -⟩)
  · exact fine
  · exact d.fineIfAny_none

theorem value {scope : Scope}
    (constant : ∀ name, d.contract.Ensures (scope.constant name) fun v => d.Fine v.value)
    (classConstant : ∀ cls name,
      d.contract.Ensures (scope.classConstant cls name) fun v => d.Fine v.value)
    (magic : ∀ kind span, (scope.magic kind span).table? = none) (e : Expr) :
    d.contract.Ensures (e.value scope) d.Fine := by
  refine Expr.value.induct (fun e => d.contract.Ensures (e.value scope) d.Fine)
    (fun items _ => ∀ table, d.Fine (.array table) →
      d.contract.Ensures (Expr.tableOf scope items table) fun t => d.Fine (.array t))
    ?int ?float ?string ?magic ?constant ?classConstant ?array ?index ?binary ?unary ?cast
    ?ternary ?short ?other ?nil ?unpack ?keyed ?plain e
  case int => exact fun i span => Contract.ensures_pure (d.plain rfl)
  case float => exact fun x span => Contract.ensures_pure (d.plain rfl)
  case string => exact fun s span => Contract.ensures_pure (d.plain rfl)
  case magic => exact fun kind span => Contract.ensures_pure (d.plain (magic kind span))
  case constant => exact fun name span => (constant name).map fun _ fine => fine
  case classConstant => exact fun cls name span => (classConstant cls name).map fun _ fine => fine
  case array => exact fun items span table => (table .empty d.empty).map fun _ fine => fine
  case index =>
    intro container offset span whole part
    refine whole.bind fun c fine => part.bind fun o _ => ?_
    exact Contract.ensures_logged (d.element fine o)
  case binary =>
    intro left op right span before later
    refine before.bind fun l fine => ?_
    split
    next v enough => exact Contract.ensures_pure (d.decided fine enough)
    next => exact later.bind fun v fine' => Contract.ensures_logged (d.binary fine op fine')
  case unary =>
    exact fun op operand span inner =>
      inner.bind fun v fine => Contract.ensures_logged (d.unary fine op)
  case cast =>
    exact fun kind operand span inner =>
      inner.bind fun v fine => Contract.ensures_logged (d.cast fine kind)
  case ternary =>
    intro condition ifTrue ifFalse span test yes no
    refine test.bind fun c _ => ?_
    split
    · exact yes
    · exact no
  case short =>
    intro condition ifFalse span test no
    refine test.bind fun c fine => ?_
    split
    · exact Contract.ensures_pure fine
    · exact no
  case other =>
    intro e
    intros
    have null : e.value scope = pure .null := by rw [Expr.value] <;> assumption
    rw [null]
    exact Contract.ensures_pure (d.plain rfl)
  case nil => exact fun _ table fine => Contract.ensures_pure fine
  case unpack =>
    intro key value byRef span rest _ item later table fine
    refine item.bind fun v fine' => ?_
    exact (Contract.ensures_logged (d.unpack fine fine')).bind fun longer => later longer longer
  case keyed =>
    intro key value byRef span rest _ index item later table fine
    refine index.bind fun k _ => item.bind fun v fine' => ?_
    exact (Contract.ensures_logged (d.store fine k fine')).bind fun longer => later longer longer
  case plain =>
    intro value byRef span rest _ item later table fine
    refine item.bind fun v fine' => ?_
    exact (Contract.ensures_logged (d.append fine fine')).bind fun longer => later longer longer

theorem climb {α : Type} {good : α → Prop} {path : List String} {c : Class} (walks : d.Walks path c)
    {walk : List String → Eval α}
    (goes : foldCase c.name ∉ path → d.contract.Ensures (walk (foldCase c.name :: path)) good) :
    d.contract.Ensures (climb path c walk) good := by
  unfold Registry.climb
  split
  next shown => exact Contract.ensures_fail (d.again walks shown)
  next new => exact goes new

section Evaluators

variable {evaluator : Evaluator}
  (forced : ∀ k, r.Declares asked k → d.contract.Ensures (evaluator k) d.Fine)

include forced

theorem ownConstant {c : Class} (known : r.Knows asked c) (name : String) :
    d.contract.Ensures (ownConstant evaluator c name) d.FineIfAny := by
  unfold Registry.ownConstant
  split
  next k found => exact (forced k (.cls known found)).map fun v fine => d.fineIfAny_some fine
  next => exact Contract.ensures_pure fun v own => d.builtin known own

theorem ownConstants {c : Class} (known : r.Knows asked c) (names : List String)
    {values : Assoc String Value} (fine : ∀ entry ∈ values, d.Fine entry.2) :
    d.contract.Ensures (ownConstants evaluator c names values)
      fun all => ∀ entry ∈ all, d.Fine entry.2 := by
  induction names generalizing values with
  | nil => exact Contract.ensures_pure fine
  | cons name rest ih =>
    refine (d.ownConstant forced known name).bind fun found fine' => ?_
    cases found with
    | none => exact ih fine
    | some v =>
      refine ih fun entry member => ?_
      rcases Assoc.mem_put member with old | rfl
      · exact fine entry old
      · exact fine' v rfl

theorem consult {c : Class} (known : r.Knows asked c) (name : String)
    {search : Class → Eval (Option Value)}
    (searches : ∀ a, r.Above c a → d.contract.Ensures (search a) d.FineIfAny) :
    d.contract.Ensures (r.consult evaluator name c search) d.FineIfAny := by
  refine (d.ownConstant forced known name).bind fun own fine => ?_
  cases own with
  | some v => exact Contract.ensures_pure fine
  | none =>
    refine Contract.ensures_bindLookup (d.allows_plain (r.parent_plain c)) fun parent found => ?_
    have above := d.firstSome fun a member => searches a (above_of_mem_parent found member)
    refine above.bind fun inherited fine => ?_
    cases inherited with
    | some v => exact Contract.ensures_pure fine
    | none =>
      refine Contract.ensures_bindLookup (d.allows_plain (r.interfaces_plain c)) ?_
      intro interfaces named
      exact d.firstSome fun a member => searches a (above_of_interfaces named member)

theorem searchConstant (name : String) {fuel : Nat} {path : List String} {c : Class}
    (walks : d.Walks path c) (known : r.Knows asked c) :
    d.contract.Ensures (r.searchConstant evaluator name fuel path c) d.FineIfAny := by
  induction fuel generalizing path c with
  | zero => exact Contract.ensures_outOfFuel
  | succ fuel ih =>
    refine d.climb walks fun new => d.consult forced known name fun a above => ?_
    exact ih (d.step walks new above) above.knows

omit forced in
theorem union {own other : Assoc String Value} (fine : ∀ entry ∈ own, d.Fine entry.2)
    (fine' : ∀ entry ∈ other, d.Fine entry.2) :
    ∀ entry ∈ Assoc.union own other, d.Fine entry.2 := by
  unfold Assoc.union
  induction other generalizing own with
  | nil => exact fine
  | cons first rest ih =>
    refine ih (fun entry member => ?_) fun entry member =>
      fine' entry (List.mem_cons_of_mem _ member)
    dsimp only [Assoc.putNew] at member
    split at member
    · exact fine entry member
    · rcases List.mem_append.mp member with old | new
      · exact fine entry old
      · rw [List.mem_singleton.mp new]
        exact fine' first List.mem_cons_self

theorem gatherConstants {fuel : Nat} {path : List String} {c : Class} (walks : d.Walks path c)
    (known : r.Knows asked c) :
    d.contract.Ensures (r.gatherConstants evaluator fuel path c)
      fun all => ∀ entry ∈ all, d.Fine entry.2 := by
  induction fuel generalizing path c with
  | zero => exact Contract.ensures_outOfFuel
  | succ fuel ih =>
    refine d.climb walks fun new => ?_
    refine (d.ownConstants forced known _ (by simp)).bind fun own fine => ?_
    refine Contract.ensures_bindLookup (d.allows_plain (r.parent_plain c)) fun parent found => ?_
    refine Contract.ensures_bindLookup (d.allows_plain (r.interfaces_plain c)) ?_
    intro interfaces named
    have above : ∀ a ∈ parent.toList ++ interfaces.map Prod.snd, r.Above c a :=
      fun a member => (above_iff found named).mpr member
    refine (Contract.ensures_mapM_all fun a member =>
      ih (d.step walks new (above a member)) (above a member).knows).bind fun inherited fines => ?_
    refine Contract.ensures_pure ?_
    induction inherited generalizing own with
    | nil => exact fine
    | cons first rest later =>
      obtain ⟨here, others⟩ := List.forall_mem_cons.mp fines
      exact later _ (d.union fine here) others

theorem namespaceConstant (key : ConstantKey) :
    d.contract.Ensures (r.namespaceConstant evaluator key) d.FineIfAny := by
  unfold Registry.namespaceConstant
  split
  next k found => exact (forced k (.space found)).map fun v fine => d.fineIfAny_some fine
  next => exact Contract.ensures_pure d.fineIfAny_none

omit forced in
theorem keyword {name : String} {v : Value} (found : Builtin.keyword? name = some v) :
    d.Fine v := by
  have scalar : v.table? = none := by
    unfold Builtin.keyword? at found
    grind [Value.table?]
  exact d.plain scalar

theorem globalConstant (name : String) :
    d.contract.Ensures (r.globalConstant evaluator name) d.FineIfAny := by
  dsimp only [Registry.globalConstant]
  split
  next v found => exact Contract.ensures_pure (d.fineIfAny_some (d.keyword found))
  next =>
    split
    next v found => exact Contract.ensures_pure (d.fineIfAny_some (d.given found))
    next =>
      split
      next key _ => exact (d.namespaceConstant forced key).orNone d.fineIfAny_none
      next => exact Contract.ensures_pure d.fineIfAny_none

theorem constantIn (s : Subject) (name : Name) :
    d.contract.Ensures (r.constantIn evaluator s name) fun v => d.Fine v.value := by
  unfold Registry.constantIn
  split
  next v found => exact Contract.ensures_pure (d.keyword found)
  next =>
    have near : d.contract.Ensures (r.localConstant evaluator s name) d.FineIfAny := by
      unfold Registry.localConstant
      split
      · exact Contract.ensures_pure d.fineIfAny_none
      · split
        · exact d.namespaceConstant forced _
        · exact Contract.ensures_pure d.fineIfAny_none
    refine near.bind fun here fine => ?_
    cases here with
    | some v => exact Contract.ensures_pure (fine v rfl)
    | none =>
      refine (d.globalConstant forced name.text).bind fun there fine => ?_
      cases there with
      | some v => exact Contract.ensures_pure (fine v rfl)
      | none => exact Contract.ensures_pure (d.plain rfl)

theorem classConstantIn {s : Subject} (placed : r.Places asked s) (cls : Name) (name : String) :
    d.contract.Ensures (r.classConstantIn evaluator s cls name) fun v => d.Fine v.value := by
  dsimp only [Registry.classConstantIn]
  split
  · exact Contract.ensures_pure (d.plain rfl)
  · refine Contract.ensures_bindLookup (d.allows_plain (r.resolve_plain s cls)) fun c found => ?_
    split
    · exact Contract.ensures_pure (d.plain rfl)
    · have known := knows_of_resolve placed found
      refine (d.searchConstant forced name (d.start known) known).bind fun value fine => ?_
      cases value with
      | some v => exact Contract.ensures_pure (fine v rfl)
      | none =>
        have noted : d.contract.Ensures (Eval.warn (.undefinedConstant c.name name))
            fun _ => True := by
          rw [Eval.warn_eq_logged]
          exact Contract.ensures_logged trivial
        exact noted.bind fun _ _ => Contract.ensures_pure (d.plain rfl)

theorem evaluate {s : Subject} (placed : r.Places asked s) (e : Expr) :
    d.contract.Ensures (r.evaluate evaluator s e) fun v => d.Fine v.value := by
  have constant := d.constantIn forced s
  have classConstant := d.classConstantIn forced placed
  have magic : ∀ kind span, ((r.scope evaluator s).magic kind span).table? = none := by
    intro kind span
    show (kind.value span s).table? = none
    cases kind <;> cases s <;> rfl
  unfold Registry.evaluate Expr.resolve
  split
  next name span => exact constant name
  next cls name span => exact classConstant cls name
  next => exact (d.value constant classConstant magic e).bind fun v fine =>
      Contract.ensures_pure fine

theorem valueOf {s : Subject} (placed : r.Places asked s) (e : Expr) :
    d.contract.Ensures (r.valueOf evaluator s e) d.Fine :=
  (d.evaluate forced placed e).map fun _ fine => fine

theorem searchProperty (name : String) {fuel : Nat} {path : List String} {c : Class}
    (walks : d.Walks path c) (known : r.Knows asked c) :
    d.contract.Ensures (r.searchProperty evaluator name fuel path c) d.FineIfAny := by
  induction fuel generalizing path c with
  | zero => exact Contract.ensures_outOfFuel
  | succ fuel ih =>
    refine d.climb walks fun new => ?_
    split
    next var _ =>
      split
      next e _ => exact (d.valueOf forced (places_cls known) e).map fun _ fine =>
          d.fineIfAny_some fine
      next => exact Contract.ensures_pure (d.fineIfAny_some (d.plain rfl))
    next =>
      refine Contract.ensures_bindLookup (d.allows_plain (r.parent_plain c)) fun parent found => ?_
      cases parent with
      | none => exact Contract.ensures_pure d.fineIfAny_none
      | some p =>
        have above : r.Above c p := .inl found
        exact ih (d.step walks new above) above.knows

theorem staticsOf {s : Subject} (placed : r.Places asked s) (body : List Stmt) :
    d.contract.Ensures (r.staticsOf evaluator s body)
      fun all => ∀ entry ∈ all, d.Fine entry.2 := by
  unfold Registry.staticsOf
  have start : ∀ entry ∈ ([] : Assoc String Value), d.Fine entry.2 := by simp
  generalize staticDeclarations body = vars
  generalize ([] : Assoc String Value) = values at start
  induction vars generalizing values with
  | nil => exact Contract.ensures_pure start
  | cons v rest ih =>
    have later : ∀ value, d.Fine value → d.contract.Ensures
        (staticValues (r.valueOf evaluator s) rest (Assoc.put values (trimLeft '$' v.name) value))
        fun all => ∀ entry ∈ all, d.Fine entry.2 := by
      refine fun value fine => ih _ fun entry member => ?_
      rcases Assoc.mem_put member with old | rfl
      · exact start entry old
      · exact fine
    unfold staticValues
    cases v.default with
    | none => exact (Contract.ensures_pure (d.plain rfl)).bind later
    | some e => exact (d.valueOf forced placed e).bind later

end Evaluators

theorem reply (q : Query) (d : r.Discipline (r.classAsked q)) {evaluator : Evaluator}
    (forced : ∀ k, r.Declares (r.classAsked q) k → d.contract.Ensures (evaluator k) d.Fine) :
    d.contract.Ensures (r.reply evaluator q) (Answer.All d.Fine) := by
  have placed : ∀ {source s}, r.subjectOf source = .ok s →
      r.Places ((r.subjectOf source).toOption.bind Subject.class?) s := by
    intro source s found c inside
    exact .inl (by simp [found, Except.toOption, inside])
  have asked : ∀ {source c}, r.source source = .ok c → r.Knows (r.source source).toOption c := by
    intro source c found
    exact .inl (by simp [found, Except.toOption])
  have subject := fun source => d.allows_plain (r.subjectOf_plain source)
  have cls := fun source => d.allows_plain (r.source_plain source)
  have looked : ∀ {α : Type} {x : Except Failure α} {f : α → Answer}, Plain x →
      (∀ a, (f a).All d.Fine) → d.contract.Ensures (f <$> Eval.ofLookup x) (Answer.All d.Fine) :=
    fun plain all => (Contract.ensures_lookup (d.allows_plain plain)).map fun a _ => all a
  cases q with
  | eval source e =>
    refine Contract.ensures_bindLookup (subject source) fun s found => ?_
    refine (d.evaluate forced (placed found) e).bind fun v fine => Contract.ensures_pure ?_
    rintro _ ⟨⟩
    exact fine
  | process source es =>
    refine Contract.ensures_bindLookup (subject source) fun s found => ?_
    exact (Contract.ensures_mapM_all fun e _ => d.evaluate forced (placed found) e).bind
      fun all fines => Contract.ensures_pure fines
  | subject source => exact looked (r.subjectOf_plain source) fun _ => trivial
  | cls source => exact looked (r.source_plain source) fun _ => trivial
  | classDecl name => exact looked (r.classDecl_plain name) fun _ => trivial
  | loadedClass name => exact Contract.ensures_pure trivial
  | lookupClass name => exact looked (r.findLoaded_plain name) fun _ => trivial
  | resolveClass source name =>
    refine Contract.ensures_bindLookup (subject source) fun s _ => ?_
    exact Contract.ensures_bindLookup (d.allows_plain (r.resolve_plain s name)) fun c _ =>
      Contract.ensures_pure trivial
  | sameClass a b => exact looked (r.sameClass_plain a b) fun _ => trivial
  | parent source =>
    refine Contract.ensures_bindLookup (cls source) fun c _ => ?_
    exact Contract.ensures_bindLookup (d.allows_plain (r.parent_plain c)) fun p _ =>
      Contract.ensures_pure trivial
  | interfaces source =>
    refine Contract.ensures_bindLookup (cls source) fun c _ => ?_
    exact looked (r.interfaces_plain c) fun _ => trivial
  | traits source =>
    refine Contract.ensures_bindLookup (cls source) fun c _ => ?_
    exact looked (r.traits_plain c) fun _ => trivial
  | declInterfaces decl => exact looked (findAll_plain r.find_plain _) fun _ => trivial
  | declTraits decl =>
    exact Contract.ensures_bindLookup (d.allows_plain (findAll_plain r.find_plain _)) fun _ _ =>
      Contract.ensures_pure trivial
  | constant source name =>
    refine Contract.ensures_bindLookup (cls source) fun c found => ?_
    exact (d.searchConstant forced name (d.start (asked found)) (asked found)).map
      fun _ fine => fine
  | constants source =>
    refine Contract.ensures_bindLookup (cls source) fun c found => ?_
    exact (d.gatherConstants forced (d.start (asked found)) (asked found)).map fun _ fine => fine
  | property source name =>
    refine Contract.ensures_bindLookup (cls source) fun c found => ?_
    exact (d.searchProperty forced _ (d.start (asked found)) (asked found)).map fun _ fine => fine
  | method source name =>
    exact Contract.ensures_bindLookup (cls source) fun c _ => Contract.ensures_pure trivial
  | function name => exact looked (r.function_plain name) fun _ => trivial
  | file name => exact Contract.ensures_pure trivial
  | namespaceConstant file space name =>
    exact (d.namespaceConstant forced _).map fun _ fine => fine
  | globalConstant name => exact (d.globalConstant forced name).map fun _ fine => fine
  | staticVars source =>
    refine Contract.ensures_bindLookup (subject source) fun s found => ?_
    split
    · exact (d.staticsOf forced (placed found) _).map fun _ fine => fine
    · exact Contract.ensures_pure (by simp [Answer.All])
  | collectStatics source body =>
    refine Contract.ensures_bindLookup (subject source) fun s found => ?_
    exact (d.staticsOf forced (placed found) body).map fun _ fine => fine
  | param source name =>
    refine Contract.ensures_bindLookup (subject source) fun s found => ?_
    split
    next e _ =>
      refine (d.evaluate forced (placed found) e).map fun v fine => ?_
      rintro _ ⟨⟩
      exact fine
    next => exact Contract.ensures_pure (by simp [Answer.All])

theorem force (fuel : Nat) {k : LazyConstant} (declared : r.Declares asked k) :
    d.contract.Ensures (r.force fuel k) d.Fine := by
  induction fuel generalizing k with
  | zero => exact Contract.ensures_outOfFuel
  | succ fuel ih =>
    -- a constant that depends on itself is no circular inheritance
    have cycle : d.Allowed k.cycle := by
      apply d.other
      cases declared with
      | space found =>
        obtain ⟨initializer, -, rfl⟩ := Option.map_eq_some_iff.mp found
        rfl
      | cls known found =>
        unfold Class.lazyConstant? at found
        split at found
        next => cases found
        next =>
          obtain ⟨item, -, rfl⟩ := Option.map_eq_some_iff.mp found
          rfl
    refine Contract.ensures_memoize (fun m v kept known => kept _ (Assoc.mem_of_get? known)) cycle
      (fun m kept => kept) ?_
      (d.valueOf (fun _ other => ih other) declared.places k.initializer)
    intro m result kept fine
    cases result with
    | error h => exact kept
    | ok v =>
      intro entry member
      rcases Assoc.mem_put member with old | rfl
      · exact kept entry old
      · exact fine v rfl

end Discipline

/-- Under a discipline a query is answered with fine values, and leaves fine values remembered. -/
theorem answer_disciplined {r : Registry} (q : Query) (d : r.Discipline (r.classAsked q)) :
    d.contract.Ensures (r.answer q) (Answer.All d.Fine) :=
  Discipline.reply q d fun _ declared => d.force _ declared

theorem class_of_classAsked {r : Registry} {q : Query} {c : Class}
    (asks : r.classAsked q = some c) :
    ∃ given, q.class? = some given ∧ r.source given = .ok c := by
  have subject : ∀ {source : SubjectSource},
      (r.subjectOf source).toOption.bind Subject.class? = some c →
      ∃ given, source.class? = some given ∧ r.source given = .ok c := by
    intro source inside
    cases found : r.subjectOf source with
    | error f => simp [found, Except.toOption] at inside
    | ok s => exact subjectOf_class found (by simpa [found, Except.toOption] using inside)
  have cls : ∀ {source : ClassSource}, (r.source source).toOption = some c →
      ∃ given, some source = some given ∧ r.source given = .ok c := by
    intro source inside
    cases found : r.source source with
    | error f => simp [found, Except.toOption] at inside
    | ok c' =>
      obtain rfl : c' = c := by simpa [found, Except.toOption] using inside
      exact ⟨source, rfl, found⟩
  cases q with
  | eval source _ => exact subject asks
  | process source _ => exact subject asks
  | staticVars source => exact subject asks
  | collectStatics source _ => exact subject asks
  | param source _ => exact subject asks
  | constant source _ => exact cls asks
  | constants source => exact cls asks
  | property source _ => exact cls asks
  | _ => cases asks

end Registry

end ConstExpr
