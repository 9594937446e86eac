import ConstExpr.Proofs.Derivation
import ConstExpr.Registry.Index

/-!
Evaluation with a level: how deep inside an expression it stands, one at the expression as a whole.
A constant is noted at that level only. Such an evaluation does what plain evaluation does, at every
level, and below the first it leaves the level and the note as they were, however it ends.
-/

namespace ConstExpr

/-- Where evaluation stands in an expression, and the constant noted for the whole. -/
structure Standing where
  level : Nat := 0
  constant : Option ConstantName := none

def Standing.meet (st : Standing) (c : Option ConstantName) : Standing :=
  if st.level = 1 then { st with constant := c.or st.constant } else st

/-- A computation that knows where in an expression it stands. -/
abbrev Levelled := ExceptT Halt (StateM (Memory × Standing))

namespace Levelled

variable {α β : Type}

def lift (x : Eval α) : Levelled α :=
  ExceptT.mk fun (m, st) => ((x.run m).1, ((x.run m).2, st))

def deeper (x : Levelled α) : Levelled α :=
  ExceptT.mk fun (m, st) =>
    let (result, (after, left)) := x.run (m, { st with level := st.level + 1 })
    (result, (after, { left with level := left.level - 1 }))

def note (c : ConstantName) : Levelled Unit :=
  ExceptT.mk fun (m, st) => (.ok (), (m, st.meet (some c)))

end Levelled

namespace Registry

open Levelled

def constantAt (r : Registry) (evaluator : Evaluator) (s : Subject) (name : Name) :
    Levelled Value :=
  match Builtin.keyword? name.text with
  | some v => return v
  | none => do
    match ← lift (r.localConstant evaluator s name) with
    | some v =>
      note (.resolved (qualify s.namespaceName name.text))
      return v
    | none =>
      match ← lift (r.globalConstant evaluator name.text) with
      | some v =>
        note (.resolved name.text)
        return v
      | none =>
        note (.literal name.text)
        return .text name.text

def classConstantAt (r : Registry) (evaluator : Evaluator) (s : Subject) (cls : Name)
    (name : String) : Levelled Value :=
  let asksName := sameIgnoringCase name "class"
  if asksName && cls.isFullyQualified then return .text cls.text
  else do
    let c ← lift (Eval.ofLookup (r.resolve s cls))
    if asksName then return .text c.name
    else
      note (.resolved (cls.text ++ "::" ++ name))
      match ← lift (r.searchConstant evaluator name r.hierarchyBound [] c) with
      | some v => return v
      | none =>
        lift (Eval.warn (.undefinedConstant c.name name))
        return .null

mutual

/-- The value of an expression at the level where evaluation stands. -/
def valueAt (r : Registry) (evaluator : Evaluator) (s : Subject) : Expr → Levelled Value
  | .int i _ => pure (.int i)
  | .float x _ => pure (.float x)
  | .string b _ => pure (.str b)
  | .magic kind span => pure (kind.value span s)
  | .constant name _ => r.constantAt evaluator s name
  | .classConstant (.named cls) name _ => r.classConstantAt evaluator s cls name
  | .array items _ => do
    let table ← r.tableAt evaluator s items .empty
    return .array table
  | .index container (some offset) _ => do
    let c ← deeper (r.valueAt evaluator s container)
    let o ← deeper (r.valueAt evaluator s offset)
    lift (Eval.logged (c.element o))
  | .binary left op right _ => do
    let l ← deeper (r.valueAt evaluator s left)
    match op.decided? l with
    | some v => return v
    | none =>
      let v ← deeper (r.valueAt evaluator s right)
      lift (Eval.logged (op.apply l v))
  | .unary op operand _ => do
    let v ← deeper (r.valueAt evaluator s operand)
    lift (Eval.logged (op.apply v))
  | .cast kind operand _ => do
    let v ← deeper (r.valueAt evaluator s operand)
    lift (Eval.logged (kind.apply v))
  | .ternary condition (some ifTrue) ifFalse _ => do
    let c ← deeper (r.valueAt evaluator s condition)
    if c.truth then deeper (r.valueAt evaluator s ifTrue)
    else deeper (r.valueAt evaluator s ifFalse)
  | .ternary condition none ifFalse _ => do
    let c ← deeper (r.valueAt evaluator s condition)
    if c.truth then return c else deeper (r.valueAt evaluator s ifFalse)
  | _ => pure .null

def tableAt (r : Registry) (evaluator : Evaluator) (s : Subject) :
    List ArrayItem → Table Value → Levelled (Table Value)
  | [], table => pure table
  | ⟨_, value, _, true, _⟩ :: rest, table => do
    let v ← deeper (r.valueAt evaluator s value)
    let longer ← lift (Eval.logged (table.unpack v))
    r.tableAt evaluator s rest longer
  | ⟨some key, value, _, false, _⟩ :: rest, table => do
    let k ← deeper (r.valueAt evaluator s key)
    let v ← deeper (r.valueAt evaluator s value)
    let longer ← lift (Eval.logged (table.store k v))
    r.tableAt evaluator s rest longer
  | ⟨none, value, _, false, _⟩ :: rest, table => do
    let v ← deeper (r.valueAt evaluator s value)
    let longer ← lift (Eval.logged (table.append v))
    r.tableAt evaluator s rest longer

end

/-- The value of a whole expression, with what was noted on the way. -/
def process (r : Registry) (evaluator : Evaluator) (s : Subject) (e : Expr) : Eval Resolution :=
  ExceptT.mk fun m =>
    let (result, (after, st)) := (deeper (r.valueAt evaluator s e)).run (m, {})
    (result.map fun v => { value := v, constant := st.constant }, after)

/-- The value of a constant where every initializer is evaluated with a level of its own. -/
def forceAt (r : Registry) : Nat → Evaluator
  | 0, _ => throw .outOfFuel
  | fuel + 1, k =>
    Eval.memoize k.slot k.cycle
      (Resolution.value <$> r.process (r.forceAt fuel) k.subject k.initializer)

end Registry

/-- Whether an expression is a reference to a constant: by a name that is no keyword, or in a class
under a name other than the word `class`. -/
def Expr.namesConstant : Expr → Bool
  | .constant name _ => foldCase name.text ∉ ["true", "false", "null"]
  | .classConstant (.named _) name _ => !sameIgnoringCase name "class"
  | _ => false

def Expr.isLookup : Expr → Bool
  | .constant .. | .classConstant (.named _) .. => true
  | _ => false

namespace Levelled

variable {α β : Type} {st : Standing}

def Keeps (st : Standing) (x : Eval α) (y : Levelled α) : Prop :=
  ∀ m, y.run (m, st) = ((x.run m).1, ((x.run m).2, st))

theorem keeps_pure (a : α) : Keeps st (pure a) (pure a) := fun _ => rfl

theorem keeps_lift (x : Eval α) : Keeps st x (lift x) := fun _ => rfl

theorem Keeps.bind {x : Eval α} {y : Levelled α} (here : Keeps st x y) {f : α → Eval β}
    {g : α → Levelled β} (later : ∀ a, Keeps st (f a) (g a)) : Keeps st (x >>= f) (y >>= g) := by
  intro m
  show StateT.bind (ExceptT.run y) (ExceptT.bindCont g) (m, st) = _
  simp only [StateT.bind]
  rw [here m]
  cases result : (x.run m).1 with
  | error h =>
    rw [Eval.run_bind_error result]
    rfl
  | ok a =>
    rw [Eval.run_bind_ok result]
    exact later a _

theorem Keeps.deeper {x : Eval α} {y : Levelled α}
    (inner : Keeps { st with level := st.level + 1 } x y) : Keeps st x (deeper y) := by
  intro m
  simp only [Levelled.deeper, ExceptT.run_mk, inner m, Nat.add_sub_cancel]

/-- The second computation has the value of the resolution that the first has, and meets its
constant on the way to it. -/
def Records (st : Standing) (x : Eval Resolution) (y : Levelled Value) : Prop :=
  ∀ m, ∃ left, y.run (m, st) = ((x.run m).1.map Resolution.value, ((x.run m).2, left)) ∧
    (∀ resolution, (x.run m).1 = .ok resolution → left = st.meet resolution.constant) ∧
    left.level = st.level ∧ (st.level ≠ 1 → left = st)

theorem records_value (v : Value) : Records st (pure { value := v }) (pure v) := by
  intro m
  refine ⟨st, rfl, ?_, rfl, fun _ => rfl⟩
  rintro _ ⟨⟩
  simp [Standing.meet]

theorem Records.lift_bind {x : Eval α} {f : α → Eval Resolution} {g : α → Levelled Value}
    (later : ∀ a, Records st (f a) (g a)) : Records st (x >>= f) (lift x >>= g) := by
  intro m
  cases first : (x.run m).1 with
  | error h =>
    refine ⟨st, ?_, ?_, rfl, fun _ => rfl⟩
    · show StateT.bind (ExceptT.run (lift x)) (ExceptT.bindCont g) (m, st) = _
      simp only [StateT.bind, keeps_lift x m, first, Eval.run_bind_error first]
      rfl
    · rw [Eval.run_bind_error first]
      rintro resolution ⟨⟩
  | ok a =>
    have rest : (lift x >>= g).run (m, st) = (g a).run ((x.run m).2, st) := by
      show StateT.bind (ExceptT.run (lift x)) (ExceptT.bindCont g) (m, st) = _
      simp only [StateT.bind, keeps_lift x m, first]
      rfl
    rw [rest, Eval.run_bind_ok first]
    exact later a _

theorem records_note {c : ConstantName} {x : Eval Resolution} {y : Levelled Value}
    (same : ∀ st, Keeps st (Resolution.value <$> x) y)
    (named : ∀ m resolution, (x.run m).1 = .ok resolution → resolution.constant = some c) :
    Records st x (note c >>= fun _ => y) := by
  intro m
  refine ⟨st.meet (some c), ?_, ?_, ?_, ?_⟩
  · show y.run (m, st.meet (some c)) = _
    rw [same, Eval.run_map]
  · intro resolution done
    rw [named m resolution done]
  · unfold Standing.meet
    split <;> rfl
  · intro below
    rw [Standing.meet, if_neg below]

theorem Records.keeps {x : Eval Resolution} {y : Levelled Value} (noted : Records st x y)
    (below : st.level ≠ 1) : Keeps st (Resolution.value <$> x) y := by
  intro m
  obtain ⟨left, run, -, -, stays⟩ := noted m
  rw [run, stays below, Eval.run_map]

end Levelled

namespace Registry

open Levelled

variable {r : Registry} {evaluator : Evaluator} {s : Subject} {st : Standing}

theorem constantAt_records (name : Name) :
    Records st (r.constantIn evaluator s name) (r.constantAt evaluator s name) := by
  unfold constantIn constantAt
  cases Builtin.keyword? name.text with
  | some v => exact records_value v
  | none =>
    refine Records.lift_bind fun near => ?_
    cases near with
    | some v =>
      refine records_note (fun _ => keeps_pure v) ?_
      rintro m _ ⟨⟩
      rfl
    | none =>
      refine Records.lift_bind fun far => ?_
      cases far with
      | some v =>
        refine records_note (fun _ => keeps_pure v) ?_
        rintro m _ ⟨⟩
        rfl
      -- a constant that is not defined stands for its own name, and is noted all the same
      | none =>
        refine records_note (fun _ => keeps_pure (Value.text name.text)) ?_
        rintro m _ ⟨⟩
        rfl

theorem classConstantAt_records (cls : Name) (name : String) :
    Records st (r.classConstantIn evaluator s cls name)
      (r.classConstantAt evaluator s cls name) := by
  dsimp only [classConstantIn, classConstantAt]
  split
  · exact records_value _
  · refine Records.lift_bind fun c => ?_
    split
    · exact records_value _
    · refine records_note (fun st => ?_) ?_
      · rw [map_bind]
        refine (keeps_lift _).bind fun found => ?_
        cases found with
        | some v => exact keeps_pure v
        | none => exact (keeps_lift _).bind fun _ => keeps_pure Value.null
      · intro m resolution done
        obtain ⟨found, -, done⟩ := Eval.ok_of_bind done
        cases found with
        | some v =>
          cases done
          rfl
        | none =>
          obtain ⟨_, -, done⟩ := Eval.ok_of_bind done
          cases done
          rfl

def Unnoted (r : Registry) (evaluator : Evaluator) (s : Subject) (e : Expr) : Prop :=
  ∀ st : Standing, 1 ≤ st.level → (st.level = 1 → e.isLookup = false) →
    Keeps st (e.value (r.scope evaluator s)) (r.valueAt evaluator s e)

theorem Unnoted.below {e : Expr} (unnoted : r.Unnoted evaluator s e) (inside : 1 ≤ st.level) :
    Keeps st (e.value (r.scope evaluator s)) (deeper (r.valueAt evaluator s e)) := by
  apply Keeps.deeper
  apply unnoted
  · simp
  · intro top
    have : st.level + 1 = 1 := top
    omega

theorem unnoted (e : Expr) : r.Unnoted evaluator s e := by
  refine Expr.value.induct (r.Unnoted evaluator s)
    (fun items _ => ∀ st : Standing, 1 ≤ st.level → ∀ table,
      Keeps st (Expr.tableOf (r.scope evaluator s) items table) (r.tableAt evaluator s items table))
    ?int ?float ?string ?magic ?constant ?classConstant ?array ?index ?binary ?unary ?cast
    ?ternary ?short ?other ?nil ?unpack ?keyed ?plain e
  case int => exact fun i span st _ _ => keeps_pure _
  case float => exact fun x span st _ _ => keeps_pure _
  case string => exact fun b span st _ _ => keeps_pure _
  case magic => exact fun kind span st _ _ => keeps_pure _
  -- a lookup is at level one only if it is the whole, which the last hypothesis rules out
  case constant =>
    intro name span st _ whole
    exact (constantAt_records name).keeps fun top => by cases whole top
  case classConstant =>
    intro cls name span st _ whole
    exact (classConstantAt_records cls name).keeps fun top => by cases whole top
  case array =>
    intro items span table st inside _
    exact (table st inside .empty).bind fun t => keeps_pure _
  case index =>
    intro container offset span whole part st inside _
    exact (whole.below inside).bind fun c => (part.below inside).bind fun o => keeps_lift _
  case binary =>
    intro left op right span before later st inside _
    refine (before.below inside).bind fun l => ?_
    cases op.decided? l with
    | some v => exact keeps_pure v
    | none => exact (later.below inside).bind fun v => keeps_lift _
  case unary =>
    intro op operand span inner st inside _
    exact (inner.below inside).bind fun v => keeps_lift _
  case cast =>
    intro kind operand span inner st inside _
    exact (inner.below inside).bind fun v => keeps_lift _
  case ternary =>
    intro condition ifTrue ifFalse span test yes no st inside _
    refine (test.below inside).bind fun c => ?_
    split
    · exact yes.below inside
    · exact no.below inside
  case short =>
    intro condition ifFalse span test no st inside _
    refine (test.below inside).bind fun c => ?_
    split
    · exact keeps_pure c
    · exact no.below inside
  case other =>
    intro e
    intros
    intro st _ _
    have plain : e.value (r.scope evaluator s) = pure .null := by rw [Expr.value] <;> assumption
    have levelled : r.valueAt evaluator s e = pure .null := by rw [valueAt] <;> assumption
    rw [plain, levelled]
    exact keeps_pure Value.null
  case nil => exact fun table st _ table' => keeps_pure table'
  case unpack =>
    intro key value byRef span rest table item later st inside table'
    refine (item.below inside).bind fun v => ?_
    exact (keeps_lift _).bind fun longer => later longer st inside longer
  case keyed =>
    intro key value byRef span rest table index item later st inside table'
    refine (index.below inside).bind fun k => (item.below inside).bind fun v => ?_
    exact (keeps_lift _).bind fun longer => later longer st inside longer
  case plain =>
    intro value byRef span rest table item later st inside table'
    refine (item.below inside).bind fun v => ?_
    exact (keeps_lift _).bind fun longer => later longer st inside longer

theorem resolve_of_not_lookup {scope : Scope} {e : Expr} (plain : e.isLookup = false) :
    e.resolve scope = (fun v => { value := v }) <$> e.value scope := by
  unfold Expr.resolve
  split
  next => cases plain
  next => cases plain
  next => rfl

theorem evaluate_records (e : Expr) :
    Records { level := 1 } (r.evaluate evaluator s e) (r.valueAt evaluator s e) := by
  unfold evaluate
  cases lookup : e.isLookup with
  | true =>
    unfold Expr.isLookup at lookup
    split at lookup
    next name span => exact constantAt_records name
    next cls name span => exact classConstantAt_records cls name
    next => cases lookup
  | false =>
    rw [resolve_of_not_lookup lookup]
    intro m
    refine ⟨_, ?_, ?_, rfl, fun _ => rfl⟩
    · rw [unnoted e _ (Nat.le_refl 1) fun _ => lookup, Eval.run_map]
      cases (e.value (r.scope evaluator s)).run m |>.1 <;> rfl
    · intro resolution done
      obtain ⟨v, -, rfl⟩ := Eval.ok_of_map done
      rfl

theorem process_eq (e : Expr) : r.process evaluator s e = r.evaluate evaluator s e := by
  apply ExceptT.ext
  funext m
  have records : Records { level := 1 } (r.evaluate evaluator s e) (r.valueAt evaluator s e) :=
    evaluate_records e
  obtain ⟨left, run, noted, -, -⟩ := records m
  simp only [process, deeper, ExceptT.run_mk, Nat.zero_add, run]
  cases result : ((r.evaluate evaluator s e).run m).1 with
  | error h => exact Prod.ext result.symm rfl
  | ok resolution =>
    refine Prod.ext ?_ rfl
    rw [noted resolution result]
    exact result.symm ▸ congrArg Except.ok (by simp [Standing.meet])

theorem forceAt_eq (fuel : Nat) : r.forceAt fuel = r.force fuel := by
  induction fuel with
  | zero => rfl
  | succ fuel ih =>
    funext k
    rw [forceAt, force, ih, process_eq]
    rfl

theorem keyword?_isSome (name : String) :
    (Builtin.keyword? name).isSome = true ↔ foldCase name ∈ ["true", "false", "null"] := by
  unfold Builtin.keyword?
  split <;> simp_all

structure Names (resolution : Resolution) (named : Bool) : Prop where
  some_iff : resolution.constant.isSome = true ↔ named = true
  literal : ∀ n, resolution.constant = some (.literal n) → resolution.value = .text n

theorem names_plain (v : Value) : Names { value := v } false := ⟨by simp, by simp⟩

theorem names_resolved (v : Value) (n : String) :
    Names { value := v, constant := some (.resolved n) } true := ⟨by simp, by simp⟩

theorem names_literal (n : String) :
    Names { value := .text n, constant := some (.literal n) } true := ⟨by simp, by simp⟩

theorem constantIn_names {name : Name} {m : Memory} {resolution : Resolution}
    (done : ((r.constantIn evaluator s name).run m).1 = .ok resolution) (span : Span) :
    Names resolution (Expr.constant name span).namesConstant := by
  have word := keyword?_isSome name.text
  unfold constantIn at done
  cases keyword : Builtin.keyword? name.text with
  | some v =>
    have plain : (Expr.constant name span).namesConstant = false := by
      simpa only [Expr.namesConstant, decide_eq_false_iff_not, not_not] using
        word.mp (by rw [keyword]; rfl)
    rw [keyword] at done
    cases done
    exact plain ▸ names_plain v
  | none =>
    have named : (Expr.constant name span).namesConstant = true := by
      simp only [Expr.namesConstant, decide_eq_true_eq, ← word, keyword]
      simp
    rw [keyword] at done
    rw [named]
    obtain ⟨near, -, done⟩ := Eval.ok_of_bind done
    cases near with
    | some v =>
      cases done
      exact names_resolved v _
    | none =>
      obtain ⟨far, -, done⟩ := Eval.ok_of_bind done
      cases far with
      | some v =>
        cases done
        exact names_resolved v _
      | none =>
        cases done
        exact names_literal _

theorem classConstantIn_names {cls : Name} {name : String} {m : Memory} {resolution : Resolution}
    (done : ((r.classConstantIn evaluator s cls name).run m).1 = .ok resolution) (span : Span) :
    Names resolution (Expr.classConstant (.named cls) name span).namesConstant := by
  dsimp only [classConstantIn] at done
  rw [Expr.namesConstant]
  cases asks : sameIgnoringCase name "class" with
  | true =>
    rw [asks] at done
    cases full : cls.isFullyQualified with
    | true =>
      rw [full] at done
      cases done
      exact names_plain _
    | false =>
      rw [full] at done
      obtain ⟨c, -, done⟩ := Eval.ok_of_bind done
      cases done
      exact names_plain _
  | false =>
    rw [asks] at done
    obtain ⟨c, -, done⟩ := Eval.ok_of_bind done
    obtain ⟨found, -, done⟩ := Eval.ok_of_bind done
    cases found with
    | some v =>
      cases done
      exact names_resolved v _
    | none =>
      obtain ⟨_, -, done⟩ := Eval.ok_of_bind done
      cases done
      exact names_resolved _ _

theorem evaluate_names {e : Expr} {m : Memory} {resolution : Resolution}
    (done : ((r.evaluate evaluator s e).run m).1 = .ok resolution) :
    Names resolution e.namesConstant := by
  unfold evaluate at done
  cases lookup : e.isLookup with
  | true =>
    unfold Expr.isLookup at lookup
    split at lookup
    next name span => exact constantIn_names done span
    next cls name span => exact classConstantIn_names done span
    next => cases lookup
  | false =>
    have plain : e.namesConstant = false := by
      unfold Expr.namesConstant
      split
      next => cases lookup
      next => cases lookup
      next => rfl
    rw [resolve_of_not_lookup lookup] at done
    obtain ⟨v, -, rfl⟩ := Eval.ok_of_map done
    exact plain ▸ names_plain v

/-- A resolution names a constant exactly if the expression as a whole refers to one, and a constant
that is not defined has its own name as its value. One level down, or further, evaluation has the
same value and leaves level and note as they were, whether it succeeds or fails; and so it is for
the initializers that are evaluated on the way, each with a level of its own. -/
theorem constant_noted_for_whole (r : Registry) (evaluator : Evaluator) (s : Subject) (e : Expr) :
    (∀ m resolution, ((r.process evaluator s e).run m).1 = .ok resolution →
      (resolution.constant.isSome = true ↔ e.namesConstant = true) ∧
        ∀ n, resolution.constant = some (.literal n) → resolution.value = .text n) ∧
      r.process evaluator s e = r.evaluate evaluator s e ∧
      (∀ st : Standing, 1 ≤ st.level → ∀ m,
        (deeper (r.valueAt evaluator s e)).run (m, st) =
          (((r.valueOf evaluator s e).run m).1, (((r.valueOf evaluator s e).run m).2, st))) ∧
      ∀ fuel, r.forceAt fuel = r.force fuel := by
  refine ⟨?_, process_eq e, ?_, forceAt_eq⟩
  · intro m resolution done
    rw [process_eq] at done
    have names := evaluate_names done
    exact ⟨names.some_iff, names.literal⟩
  · intro st inside m
    rw [valueOf_eq]
    exact (unnoted e).below inside m

def limited : Registry :=
  build false false [("LIMIT", .int 5)]
    [("/app/a.php", [.cls ⟨.cls, "A", [], [], [],
      [.const [] [⟨"X", .constant (.parse "LIMIT") {}, {}⟩] {}], {}⟩])]

theorem limited_noted :
    let s : Subject := .file ⟨"/app/a.php", [""]⟩
    let x : Expr := .classConstant (.named (.parse "A")) "X" {}
    let either : Expr := .ternary x none (.constant (.parse "LIMIT") {}) {}
    (∃ resolution, ((limited.process (limited.forceAt 3) s x).run {}).1 = .ok resolution ∧
        resolution.constant = some (.resolved "A::X") ∧ x.namesConstant = true) ∧
      ∃ resolution, ((limited.process (limited.forceAt 3) s either).run {}).1 = .ok resolution ∧
        resolution.constant = none ∧ either.namesConstant = false := by
  intro s x either
  have ofOption : ∀ {e c}, ((limited.process (limited.forceAt 3) s e).run {}).1.toOption.map
      (·.constant) = some c → ∃ resolution,
        ((limited.process (limited.forceAt 3) s e).run {}).1 = .ok resolution ∧
          resolution.constant = c := by
    intro e c found
    cases result : ((limited.process (limited.forceAt 3) s e).run {}).1 with
    | error h => simp [result, Except.toOption] at found
    | ok resolution => exact ⟨resolution, rfl, by simpa [result, Except.toOption] using found⟩
  obtain ⟨whole, done, named⟩ := ofOption (e := x) (c := some (.resolved "A::X"))
    (by decide +kernel)
  obtain ⟨part, done', plain⟩ := ofOption (e := either) (c := none) (by decide +kernel)
  have noted := ((constant_noted_for_whole limited _ s x).1 _ _ done).1
  have silent := ((constant_noted_for_whole limited _ s either).1 _ _ done').1
  refine ⟨⟨whole, done, named, noted.mp (by simp [named])⟩, part, done', plain, ?_⟩
  exact Bool.eq_false_iff.mpr fun some => by simpa [plain] using silent.mpr some

end Registry

end ConstExpr
