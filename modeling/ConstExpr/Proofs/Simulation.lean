import ConstExpr.Proofs.Reach
import ConstExpr.Proofs.Run

/-!
Simulations: relations between computations that are respected by the few steps evaluation is made
of. A simulation that two evaluators respect on the constants evaluation comes across is respected
by the answers to every query.
-/

namespace ConstExpr

namespace Registry

/-- A relation between computations that is respected by the steps evaluation is made of. Failures
are passed over only where a namespace declares the constant. -/
structure Simulation (r : Registry) where
  Rel : {α : Type} → Eval α → Eval α → Prop
  ofPure {α : Type} (a : α) : Rel (pure a) (pure a)
  ofBind {α β : Type} {x y : Eval α} {f g : α → Eval β} (here : Rel x y)
    (later : ∀ a, Rel (f a) (g a)) : Rel (x >>= f) (y >>= g)
  ofFail {α : Type} (f : Failure) : Rel (Eval.fail f : Eval α) (Eval.fail f)
  ofLogged {α : Type} (x : Logged α) : Rel (Eval.logged x) (Eval.logged x)
  ofOrNone {x y : Eval (Option Value)} {key : ConstantKey}
    (declared : key ∈ Assoc.keys r.namespaceConstants) (here : Rel x y) :
    Rel (Eval.orNone x) (Eval.orNone y)

namespace Simulation

variable {r : Registry} (sim : r.Simulation) {α β : Type}

theorem map {x y : Eval α} (f : α → β) (here : sim.Rel x y) : sim.Rel (f <$> x) (f <$> y) :=
  sim.ofBind here fun a => sim.ofPure (f a)

theorem lookup (x : Except Failure α) : sim.Rel (Eval.ofLookup x) (Eval.ofLookup x) := by
  cases x with
  | ok a => exact sim.ofPure a
  | error f => exact sim.ofFail f

theorem bindLookup {x : Except Failure α} {f g : α → Eval β}
    (later : ∀ a, x = .ok a → sim.Rel (f a) (g a)) :
    sim.Rel (Eval.ofLookup x >>= f) (Eval.ofLookup x >>= g) := by
  cases x with
  | ok a =>
    have first : ∀ h : α → Eval β, (Eval.ofLookup (.ok a) >>= h) = h a := fun _ => rfl
    rw [first, first]
    exact later a rfl
  | error failure =>
    have first : ∀ h : α → Eval β,
        (Eval.ofLookup (.error failure) >>= h) = Eval.fail failure := fun _ => rfl
    rw [first, first]
    exact sim.ofFail failure

theorem firstSome {f g : α → Eval (Option β)} {members : List α}
    (each : ∀ a ∈ members, sim.Rel (f a) (g a)) :
    sim.Rel (Eval.firstSome f members) (Eval.firstSome g members) := by
  induction members with
  | nil => exact sim.ofPure none
  | cons a rest ih =>
    refine sim.ofBind (each a List.mem_cons_self) fun found => ?_
    cases found with
    | some b => exact sim.ofPure (some b)
    | none => exact ih fun b member => each b (List.mem_cons_of_mem _ member)

theorem mapM {f g : α → Eval β} {members : List α} (each : ∀ a ∈ members, sim.Rel (f a) (g a)) :
    sim.Rel (members.mapM f) (members.mapM g) := by
  induction members with
  | nil => exact sim.ofPure []
  | cons a rest ih =>
    rw [List.mapM_cons, List.mapM_cons]
    refine sim.ofBind (each a List.mem_cons_self) fun b => ?_
    refine sim.ofBind (ih fun c member => each c (List.mem_cons_of_mem _ member)) fun found => ?_
    exact sim.ofPure (b :: found)

theorem value {first second : Scope}
    (constant : ∀ name, sim.Rel (first.constant name) (second.constant name))
    (classConstant : ∀ cls name, sim.Rel (first.classConstant cls name)
      (second.classConstant cls name))
    (magic : first.magic = second.magic) (e : Expr) :
    sim.Rel (e.value first) (e.value second) := by
  refine Expr.value.induct (fun e => sim.Rel (e.value first) (e.value second))
    (fun items _ => ∀ table, sim.Rel (Expr.tableOf first items table)
      (Expr.tableOf second items table))
    ?int ?float ?string ?magic ?constant ?classConstant ?array ?index ?binary ?unary ?cast
    ?ternary ?short ?other ?nil ?unpack ?keyed ?plain e
  -- constants are where scopes differ; all else follows the recursion of evaluation
  case int => exact fun i span => sim.ofPure _
  case float => exact fun x span => sim.ofPure _
  case string => exact fun s span => sim.ofPure _
  case magic =>
    intro kind span
    simp only [Expr.value, magic]
    exact sim.ofPure _
  case constant => exact fun name span => sim.map _ (constant name)
  case classConstant => exact fun cls name span => sim.map _ (classConstant cls name)
  case array => exact fun items span table => sim.map _ (table .empty)
  case index =>
    intro container offset span whole part
    exact sim.ofBind whole fun c => sim.ofBind part fun o => sim.ofLogged _
  case binary =>
    intro left op right span before later
    refine sim.ofBind before fun l => ?_
    cases op.decided? l with
    | some v => exact sim.ofPure v
    | none => exact sim.ofBind later fun r => sim.ofLogged _
  case unary => exact fun op operand span inner => sim.ofBind inner fun v => sim.ofLogged _
  case cast => exact fun kind operand span inner => sim.ofBind inner fun v => sim.ofLogged _
  case ternary =>
    intro condition ifTrue ifFalse span test yes no
    refine sim.ofBind test fun c => ?_
    split
    · exact yes
    · exact no
  case short =>
    intro condition ifFalse span test no
    refine sim.ofBind test fun c => ?_
    split
    · exact sim.ofPure c
    · exact no
  case other =>
    intro e
    intros
    have null : ∀ scope, e.value scope = pure .null := fun scope => by
      rw [Expr.value] <;> assumption
    rw [null, null]
    exact sim.ofPure Value.null
  case nil => exact fun table table' => sim.ofPure table'
  case unpack =>
    intro key value byRef span rest table item later table'
    refine sim.ofBind item fun v => sim.ofBind (sim.ofLogged _) fun longer => later longer longer
  case keyed =>
    intro key value byRef span rest table index item later table'
    refine sim.ofBind index fun k => sim.ofBind item fun v => ?_
    exact sim.ofBind (sim.ofLogged _) fun longer => later longer longer
  case plain =>
    intro value byRef span rest table item later table'
    refine sim.ofBind item fun v => sim.ofBind (sim.ofLogged _) fun longer => later longer longer

/-- A path that leaves fuel enough for every name it does not show yet. -/
structure Path (r : Registry) (asked : Option Class) (fuel : Nat) (path : List String) : Prop where
  distinct : path.Nodup
  shown : path ⊆ r.lineage asked
  long : r.hierarchyBound ≤ fuel + path.length

theorem Path.start (r : Registry) (asked : Option Class) : Path r asked r.hierarchyBound [] :=
  ⟨List.nodup_nil, List.nil_subset _, Nat.le_refl _⟩

theorem Path.step {asked : Option Class} {fuel : Nat} {path : List String} {c : Class}
    (walked : Path r asked (fuel + 1) path) (known : r.Knows asked c)
    (new : foldCase c.name ∉ path) : Path r asked fuel (foldCase c.name :: path) where
  distinct := List.nodup_cons.mpr ⟨new, walked.distinct⟩
  shown := List.cons_subset.mpr ⟨known.mem_lineage, walked.shown⟩
  long := by
    have long := walked.long
    simp only [List.length_cons]
    omega

theorem Path.fuel_pos {asked : Option Class} {path : List String} : ¬Path r asked 0 path := by
  intro walked
  have short := length_path_lt walked.distinct walked.shown
  have long := walked.long
  omega

theorem climb {asked : Option Class} {fuel : Nat} {path : List String}
    (walked : Path r asked (fuel + 1) path) {c : Class} (known : r.Knows asked c)
    {f g : List String → Eval α}
    (walk : ∀ path, Path r asked fuel path → sim.Rel (f path) (g path)) :
    sim.Rel (climb path c f) (climb path c g) := by
  unfold Registry.climb
  by_cases again : foldCase c.name ∈ path
  · simp only [if_pos again]
    exact sim.ofFail _
  · simp only [if_neg again]
    exact walk _ (walked.step known again)

section Evaluators

variable {asked : Option Class} {first second : Evaluator}
  (related : ∀ k, r.Declares asked k → sim.Rel (first k) (second k))

include related

theorem ownConstant {c : Class} (known : r.Knows asked c) (name : String) :
    sim.Rel (ownConstant first c name) (ownConstant second c name) := by
  unfold Registry.ownConstant
  cases found : c.lazyConstant? name with
  | none => exact sim.ofPure _
  | some k => exact sim.map _ (related k (.cls known found))

theorem ownConstants {c : Class} (known : r.Knows asked c) (names : List String)
    (values : Assoc String Value) :
    sim.Rel (ownConstants first c names values) (ownConstants second c names values) := by
  induction names generalizing values with
  | nil => exact sim.ofPure values
  | cons name rest ih =>
    refine sim.ofBind (sim.ownConstant related known name) fun found => ?_
    cases found with
    | some v => exact ih _
    | none => exact ih _

theorem consult {c : Class} (known : r.Knows asked c) (name : String)
    {f g : Class → Eval (Option Value)} (search : ∀ a, r.Knows asked a → sim.Rel (f a) (g a)) :
    sim.Rel (r.consult first name c f) (r.consult second name c g) := by
  refine sim.ofBind (sim.ownConstant related known name) fun own => ?_
  cases own with
  | some v => exact sim.ofPure (some v)
  | none =>
    refine sim.bindLookup fun parent above => ?_
    refine sim.ofBind (sim.firstSome fun p member => search p (knows_of_mem_parent above member))
      fun inherited => ?_
    cases inherited with
    | some v => exact sim.ofPure (some v)
    | none =>
      refine sim.bindLookup fun interfaces named => ?_
      exact sim.firstSome fun i member => search i (knows_of_interfaces named member)

theorem searchConstant (name : String) {fuel : Nat} {path : List String}
    (walked : Path r asked fuel path) {c : Class} (known : r.Knows asked c) :
    sim.Rel (r.searchConstant first name fuel path c)
      (r.searchConstant second name fuel path c) := by
  induction fuel generalizing path c with
  | zero =>
    -- a path as long as the bound would show a name twice
    exact absurd walked Path.fuel_pos
  | succ fuel ih =>
    refine sim.climb walked known fun path walked => ?_
    exact sim.consult related known name fun a known => ih walked known

theorem gatherConstants {fuel : Nat} {path : List String} (walked : Path r asked fuel path)
    {c : Class} (known : r.Knows asked c) :
    sim.Rel (r.gatherConstants first fuel path c) (r.gatherConstants second fuel path c) := by
  induction fuel generalizing path c with
  | zero => exact absurd walked Path.fuel_pos
  | succ fuel ih =>
    refine sim.climb walked known fun path walked => ?_
    refine sim.ofBind (sim.ownConstants related known _ _) fun own => ?_
    refine sim.bindLookup fun parent above => ?_
    refine sim.bindLookup fun interfaces named => ?_
    have up : ∀ a ∈ parent.toList ++ interfaces.map Prod.snd, r.Knows asked a := by
      intro a member
      rcases List.mem_append.mp member with one | other
      · exact knows_of_mem_parent above one
      · exact knows_of_interfaces named other
    refine sim.ofBind (sim.mapM fun a member => ih walked (up a member)) fun inherited => ?_
    exact sim.ofPure _

theorem namespaceConstant (key : ConstantKey) :
    sim.Rel (r.namespaceConstant first key) (r.namespaceConstant second key) := by
  unfold Registry.namespaceConstant
  cases found : r.namespaceLazy? key with
  | none => exact sim.ofPure none
  | some k => exact sim.map _ (related k (.space found))

theorem globalConstant (name : String) :
    sim.Rel (r.globalConstant first name) (r.globalConstant second name) := by
  dsimp only [Registry.globalConstant]
  cases Builtin.keyword? (trimLeft '\\' name) with
  | some v => exact sim.ofPure (some v)
  | none =>
    cases Assoc.get? r.constants (trimLeft '\\' name) with
    | some v => exact sim.ofPure (some v)
    | none =>
      cases found : r.constantKey? (trimLeft '\\' name) with
      | none => exact sim.ofPure none
      | some key =>
        exact sim.ofOrNone (List.mem_of_find?_eq_some found) (sim.namespaceConstant related key)

theorem constantIn (s : Subject) (name : Name) :
    sim.Rel (r.constantIn first s name) (r.constantIn second s name) := by
  unfold Registry.constantIn
  cases Builtin.keyword? name.text with
  | some v => exact sim.ofPure _
  | none =>
    have near : sim.Rel (r.localConstant first s name) (r.localConstant second s name) := by
      unfold Registry.localConstant
      split
      · exact sim.ofPure none
      · cases s.file? with
        | none => exact sim.ofPure none
        | some file => exact sim.namespaceConstant related _
    refine sim.ofBind near fun here => ?_
    cases here with
    | some v => exact sim.ofPure _
    | none =>
      refine sim.ofBind (sim.globalConstant related name.text) fun there => ?_
      cases there with
      | some v => exact sim.ofPure _
      | none => exact sim.ofPure _

theorem classConstantIn {s : Subject} (placed : r.Places asked s) (cls : Name) (name : String) :
    sim.Rel (r.classConstantIn first s cls name) (r.classConstantIn second s cls name) := by
  dsimp only [Registry.classConstantIn]
  split
  · exact sim.ofPure _
  · refine sim.bindLookup fun c found => ?_
    split
    · exact sim.ofPure _
    · have known := knows_of_resolve placed found
      refine sim.ofBind (sim.searchConstant related name (Path.start r asked) known) fun value => ?_
      cases value with
      | some v => exact sim.ofPure _
      | none =>
        rw [Eval.warn_eq_logged]
        exact sim.ofBind (sim.ofLogged _) fun _ => sim.ofPure _

theorem evaluate {s : Subject} (placed : r.Places asked s) (e : Expr) :
    sim.Rel (r.evaluate first s e) (r.evaluate second s e) := by
  have constant := sim.constantIn related s
  have classConstant := sim.classConstantIn related placed
  have magic : (r.scope first s).magic = (r.scope second s).magic := rfl
  have whole : sim.Rel (e.value (r.scope first s)) (e.value (r.scope second s)) :=
    sim.value constant classConstant magic e
  unfold Registry.evaluate
  unfold Expr.resolve
  split
  next name span => exact constant name
  next cls name span => exact classConstant cls name
  next => exact sim.map _ whole

theorem valueOf {s : Subject} (placed : r.Places asked s) (e : Expr) :
    sim.Rel (r.valueOf first s e) (r.valueOf second s e) :=
  sim.map _ (sim.evaluate related placed e)

theorem searchProperty (name : String) {fuel : Nat} {path : List String}
    (walked : Path r asked fuel path) {c : Class} (known : r.Knows asked c) :
    sim.Rel (r.searchProperty first name fuel path c)
      (r.searchProperty second name fuel path c) := by
  induction fuel generalizing path c with
  | zero => exact absurd walked Path.fuel_pos
  | succ fuel ih =>
    refine sim.climb walked known fun path walked => ?_
    cases c.decl?.bind (·.property? name) with
    | some var =>
      dsimp only
      cases var.default with
      | none => exact sim.ofPure _
      | some e => exact sim.map _ (sim.valueOf related (places_cls known) e)
    | none =>
      refine sim.bindLookup fun parent above => ?_
      cases parent with
      | none => exact sim.ofPure none
      | some p => exact ih walked (knows_of_parent above)

theorem staticsOf {s : Subject} (placed : r.Places asked s) (body : List Stmt) :
    sim.Rel (r.staticsOf first s body) (r.staticsOf second s body) := by
  unfold Registry.staticsOf
  generalize staticDeclarations body = vars
  generalize ([] : Assoc String Value) = known
  induction vars generalizing known with
  | nil => exact sim.ofPure known
  | cons v rest ih =>
    unfold staticValues
    cases v.default with
    | none => exact sim.ofBind (sim.ofPure _) fun value => ih _
    | some e => exact sim.ofBind (sim.valueOf related placed e) fun value => ih _

end Evaluators

theorem reply (q : Query) {first second : Evaluator}
    (related : ∀ k, r.Declares (r.classAsked q) k → sim.Rel (first k) (second k)) :
    sim.Rel (r.reply first q) (r.reply second q) := by
  have placed : ∀ {source s}, r.subjectOf source = .ok s →
      r.Places ((r.subjectOf source).toOption.bind Subject.class?) s := by
    intro source s found c inside
    exact .inl (by simp [found, Except.toOption, inside])
  have asked : ∀ {source c}, r.source source = .ok c → r.Knows (r.source source).toOption c := by
    intro source c found
    exact .inl (by simp [found, Except.toOption])
  cases q with
  | eval source e =>
    refine sim.bindLookup fun s found => ?_
    exact sim.ofBind (sim.evaluate related (placed found) e) fun v => sim.ofPure _
  | process source es =>
    refine sim.bindLookup fun s found => ?_
    refine sim.ofBind (sim.mapM fun e _ => sim.evaluate related (placed found) e) fun vs => ?_
    exact sim.ofPure _
  | subject source => exact sim.map _ (sim.lookup _)
  | cls source => exact sim.map _ (sim.lookup _)
  | classDecl name => exact sim.map _ (sim.lookup _)
  | loadedClass name => exact sim.ofPure _
  | lookupClass name => exact sim.map _ (sim.lookup _)
  | resolveClass source name =>
    refine sim.bindLookup fun s _ => sim.bindLookup fun c _ => ?_
    exact sim.ofPure _
  | sameClass a b => exact sim.map _ (sim.lookup _)
  | parent source =>
    refine sim.bindLookup fun c _ => sim.bindLookup fun p _ => ?_
    exact sim.ofPure _
  | interfaces source => exact sim.bindLookup fun c _ => sim.map _ (sim.lookup _)
  | traits source => exact sim.bindLookup fun c _ => sim.map _ (sim.lookup _)
  | declInterfaces d => exact sim.map _ (sim.lookup _)
  | declTraits d => exact sim.bindLookup fun traits _ => sim.ofPure _
  | constant source name =>
    refine sim.bindLookup fun c found => ?_
    exact sim.map _ (sim.searchConstant related name (Path.start r _) (asked found))
  | constants source =>
    refine sim.bindLookup fun c found => ?_
    exact sim.map _ (sim.gatherConstants related (Path.start r _) (asked found))
  | property source name =>
    refine sim.bindLookup fun c found => ?_
    exact sim.map _ (sim.searchProperty related _ (Path.start r _) (asked found))
  | method source name => exact sim.bindLookup fun c _ => sim.ofPure _
  | function name => exact sim.map _ (sim.lookup _)
  | file name => exact sim.ofPure _
  | namespaceConstant file space name => exact sim.map _ (sim.namespaceConstant related _)
  | globalConstant name => exact sim.map _ (sim.globalConstant related name)
  | staticVars source =>
    refine sim.bindLookup fun s found => ?_
    cases callable? s with
    | none => exact sim.ofPure _
    | some decl => exact sim.map _ (sim.staticsOf related (placed found) _)
  | collectStatics source body =>
    refine sim.bindLookup fun s found => ?_
    exact sim.map _ (sim.staticsOf related (placed found) _)
  | param source name =>
    refine sim.bindLookup fun s found => ?_
    cases (callable? s).bind (defaultOf? ·.params name) with
    | none => exact sim.ofPure _
    | some e => exact sim.map _ (sim.evaluate related (placed found) e)

end Simulation

end Registry

end ConstExpr
