import ConstExpr.Proofs.Derivation
import ConstExpr.Proofs.Discipline
import ConstExpr.Proofs.SelfReference
import ConstExpr.Proofs.Termination
import Mathlib

/-!
Evaluation and the rules agree. Where no namespace declares constants and names tell classes apart,
a query at any point of a session has a value exactly when the rules derive it, and fails otherwise.
-/

namespace ConstExpr

/-- A class by name, or one of its own under a name that is not in use in the registry. -/
def ClassSource.Apart (r : Registry) : ClassSource → Prop
  | .named _ => True
  | .declared name _ _ | .internal name _ _ _ _ =>
    symbolKey name ∉ Assoc.keys r.classes ∧ symbolKey name ∉ Assoc.keys r.internals

def SubjectSource.Apart (r : Registry) (source : SubjectSource) : Prop :=
  ∀ given, source.class? = some given → given.Apart r

theorem Query.Named.apart {r : Registry} {source : SubjectSource} {e : Expr}
    (named : (Query.eval source e).Named) : source.Apart r := by
  intro given same
  obtain ⟨name, rfl⟩ := named given same
  trivial

namespace Registry

variable {r : Registry} {asked : Option Class}

section Names

def registered? (r : Registry) (key : String) : Option Class :=
  match Assoc.get? r.classes key with
  | some entry => some (kept (key, entry))
  | none => Assoc.get? r.internals key

/-- No declared class has the name of a built-in one. -/
def Unambiguous (r : Registry) : Prop :=
  ∀ key ∈ Assoc.keys r.classes, key ∉ Assoc.keys r.internals

def Separate (r : Registry) (asked : Option Class) : Prop :=
  ∀ c, asked = some c → (∃ name, r.find name = .ok c) ∨ r.registered? (foldCase c.name) = none

theorem registered?_of_internal (coherent : r.Coherent) (unambiguous : r.Unambiguous)
    {name : String} {c : Class} (inside : r.internal? name = some c) :
    r.registered? (foldCase c.name) = some c := by
  have key := coherent.internalKey _ _ (Assoc.mem_of_get? inside)
  have builtin : symbolKey name ∈ Assoc.keys r.internals :=
    List.mem_map_of_mem (Assoc.mem_of_get? inside)
  have free : Assoc.get? r.classes (symbolKey name) = none :=
    Assoc.get?_eq_none_iff.mpr fun taken => unambiguous _ taken builtin
  rw [registered?, key, free]
  exact inside

theorem registered?_of_find (coherent : r.Coherent) (unambiguous : r.Unambiguous) {name : String}
    {c : Class} (found : r.find name = .ok c) : r.registered? (foldCase c.name) = some c := by
  rcases find_eq found with ⟨entry, here, rfl⟩ | inside
  · have key : foldCase (kept (symbolKey name, entry)).name = symbolKey name :=
      coherent.classKey _ _ (Assoc.mem_of_get? here)
    rw [registered?, key, here]
  · exact registered?_of_internal coherent unambiguous inside

theorem Separate.namesApart (coherent : r.Coherent) (unambiguous : r.Unambiguous)
    (separate : r.Separate asked) : r.NamesApart asked := by
  intro c c' known known' same
  -- a class that is not the one kept under its name is the one asked about
  have kept : ∀ {c}, r.Knows asked c →
      r.registered? (foldCase c.name) = some c ∨
        asked = some c ∧ r.registered? (foldCase c.name) = none := by
    rintro c (asks | ⟨name, found⟩ | ⟨name, inside⟩)
    · rcases separate c asks with ⟨name, found⟩ | free
      · exact .inl (registered?_of_find coherent unambiguous found)
      · exact .inr ⟨asks, free⟩
    · exact .inl (registered?_of_find coherent unambiguous found)
    · exact .inl (registered?_of_internal coherent unambiguous inside)
  rcases kept known with one | ⟨asks, free⟩
  · rcases kept known' with other | ⟨-, free⟩
    · rw [← same, one] at other
      exact Option.some.inj other
    · rw [← same, one] at free
      cases free
  · rcases kept known' with other | ⟨asks', -⟩
    · rw [← same, free] at other
      cases other
    · exact Option.some.inj (asks.symm.trans asks')

theorem separate_source {source : ClassSource} (apart : source.Apart r) {c : Class}
    (found : r.source source = .ok c) : r.Separate (some c) := by
  have free : ∀ {key}, key ∉ Assoc.keys r.classes ∧ key ∉ Assoc.keys r.internals →
      r.registered? key = none := by
    rintro key ⟨classes, internals⟩
    rw [registered?, Assoc.get?_eq_none_iff.mpr classes]
    exact Assoc.get?_eq_none_iff.mpr internals
  rintro _ ⟨⟩
  cases source with
  | named name => exact .inl ⟨name, found⟩
  | declared name decl file =>
    cases found
    exact .inr (free apart)
  | internal name kind parent interfaces constants =>
    cases found
    exact .inr (free apart)

theorem separate_subject {source : SubjectSource} (apart : source.Apart r) :
    r.Separate ((r.subjectOf source).toOption.bind Subject.class?) := by
  intro c inside
  cases found : r.subjectOf source with
  | error f => simp [found, Except.toOption] at inside
  | ok s =>
    have inside : s.class? = some c := by simpa [found, Except.toOption] using inside
    obtain ⟨given, same, here⟩ := subjectOf_class found inside
    exact separate_source (apart given same) here c rfl

end Names

section Meaning

variable (bare : r.namespaceConstants = []) {depth : Nat}
  (enough : ∀ k, r.Declares asked k → r.outcome depth k = r.limit k)
  (apart : r.NamesApart asked)

include bare enough apart

theorem Derives.computes_expand {j : Judgement} (derived : r.Derives j) :
    r.Computes asked (r.expand depth) j := by
  refine derived.computes (fun k declared => expand_refines depth 0 declared) ?_ apart bare
  intro k declared v done m
  have deeper : r.outcome (depth + 1) k = .ok v := by
    rw [outcome, expand, valueOf_eq]
    exact done {}
  have ends : r.outcome (depth + 1) k ≠ .error .outOfFuel := by simp [deeper]
  rw [expand_run depth declared, enough k declared, limit_eq declared ends, deeper]

theorem derives_value_iff {s : Subject} (placed : r.Places asked s) {e : Expr} {v : Value}
    (m : Memory) :
    ((r.valueOf (r.expand depth) s e).run m).1 = .ok v ↔ r.Derives (.value s e v) := by
  rw [valueOf_eq]
  constructor
  · exact derives_value (derives_expand bare depth) bare placed e
  · exact fun derived => derived.computes_expand bare enough apart placed m

theorem derives_constant_iff {c : Class} (known : r.Knows asked c) {name : String}
    {o : Option Value} (m : Memory) :
    ((r.searchConstant (r.expand depth) name r.hierarchyBound [] c).run m).1 = .ok o ↔
      r.Derives (.constant c name o) := by
  constructor
  · exact derives_searchConstant (derives_expand bare depth) known
  · intro derived
    exact searchConstant_of_computes (fun k declared => expand_refines depth 0 declared) apart
      known (derived.computes_expand bare enough apart) m

end Meaning

section Sessions

/-- Where no namespace declares constants, no failure is passed over. -/
def quiet (r : Registry) (bare : r.namespaceConstants = []) : r.Simulation where
  Rel x _ := ∀ m : Memory, (x.run m).2.masked = m.masked
  ofPure a m := rfl
  ofBind {_ _ x _ f _} here later m := by
    cases first : (x.run m).1 with
    | error h =>
      rw [Eval.run_bind_error first]
      exact here m
    | ok a =>
      rw [Eval.run_bind_ok first]
      exact (later a _).trans (here m)
  ofFail f m := rfl
  ofLogged x m := rfl
  ofOrNone declared _ := by simp [bare, Assoc.keys] at declared

theorem force_quiet (bare : r.namespaceConstants = []) (fuel : Nat) {k : LazyConstant}
    (declared : r.Declares asked k) : (r.quiet bare).Rel (r.force fuel k) (r.force fuel k) := by
  induction fuel generalizing k with
  | zero => exact fun m => rfl
  | succ fuel ih =>
    intro m
    have initializer := (r.quiet bare).valueOf (fun _ other => ih other) declared.places
      k.initializer (m.start k.slot)
    simp only [force]
    cases known : Assoc.get? m.values k.slot with
    | some v => rw [Eval.run_memoize_known known]
    | none =>
      by_cases started : k.slot ∈ m.pending
      · rw [Eval.run_memoize_cycle known started]
      · rw [Eval.run_memoize_start known started, Memory.masked_finish, initializer,
          Memory.masked_start]

theorem answer_calm (coherent : r.Coherent) (bare : r.namespaceConstants = []) (q : Query)
    (m : Memory) : (r.answer q).Calm m :=
  ⟨(answer_halts coherent q m 0).1,
    (r.quiet bare).reply q (fun _ declared => force_quiet bare _ declared) m⟩

theorem Adds.mono {m : Memory} (faithful : r.Adds none {} m) : r.Adds asked {} m := by
  intro slot v known
  rcases faithful slot v known with old | ⟨k, declared, own, value⟩
  · exact .inl old
  · exact .inr ⟨k, declared.mono, own, value⟩

theorem Adds.settle (coherent : r.Coherent) (admits : r.Admits asked) {m : Memory}
    (faithful : r.Adds asked {} m) : r.Adds none {} m.settle := by
  intro slot v known
  rw [Memory.settle, Assoc.get?_filter m.values (fun slot => !slot.isDetached)] at known
  split at known
  next stays =>
    rcases faithful slot v known with old | ⟨k, declared, rfl, value⟩
    · exact .inl old
    · have registered := (declares_none_iff coherent admits).mpr ⟨declared, by simpa using stays⟩
      exact .inr ⟨k, registered, rfl, value⟩
  next => cases known

theorem after_faithful (coherent : r.Coherent) (bare : r.namespaceConstants = [])
    (history : List Query) :
    (r.after history).pending = [] ∧ r.Adds none {} (r.after history) := by
  refine after_invariant (P := fun m => m.pending = [] ∧ r.Adds none {} m) ⟨rfl, .refl {}⟩ ?_
    history
  rintro m q ⟨idle, faithful⟩
  have admits := r.admits_classAsked q
  have told := ((r.telling (r.classAsked q)).reply q fun _ declared =>
    force_told coherent admits (r.depthBound (r.classAsked q)) declared).2 m {} faithful.mono
    (idle ▸ .nil) (answer_calm coherent bare q m)
  exact ⟨told.2.2.2.trans idle, told.2.2.1.settle coherent admits⟩

/-- At any point of a session, evaluation has the answers of expansion. -/
theorem answer_ok_iff (coherent : r.Coherent) (bare : r.namespaceConstants = [])
    (history : List Query) (q : Query) {depth : Nat}
    (enough : ∀ k, r.Declares (r.classAsked q) k → r.outcome depth k = r.limit k) (a : Answer) :
    ((r.answer q).run (r.after history)).1 = .ok a ↔
      ((r.reply (r.expand depth) q).run {}).1 = .ok a := by
  have admits := r.admits_classAsked q
  obtain ⟨idle, faithful⟩ := after_faithful coherent bare history
  have calm := answer_calm coherent bare q (r.after history)
  constructor
  · intro done
    obtain ⟨told, alike, -, -⟩ := ((r.telling (r.classAsked q)).reply q fun _ declared =>
      force_told coherent admits (r.depthBound (r.classAsked q)) declared).2 _ {} faithful.mono
      (idle ▸ .nil) calm
    rw [show (r.reply _ q).run _ = (r.answer q).run _ from rfl, done] at alike
    -- an answer is no self-reference, so the oracle has it from expansion
    have decided := (r.deciding.reply q fun k declared =>
      oracle_decides _ declared (enough k declared)).2 {} {} told
    rw [alike.eq_ok] at decided
    rcases decided with ⟨f, no, -⟩ | same
    · cases no
    · exact same
  · intro done
    have grounded := (r.grounding coherent admits depth).reply q fun _ declared =>
      force_grounded coherent admits (r.depthBound (r.classAsked q)) depth declared
    have clear : r.Clear (r.classAsked q) depth (r.after history) := by
      intro k _ started
      rw [idle] at started
      cases started
    have same := (grounded (r.after history) {} (faithful.mono.agrees coherent admits) clear calm.1
      (by simp [done])).1
    exact same.trans done

end Sessions

theorem build_bare {predefined builtin : Bool} {constants : List (String × Value)}
    {files : List (String × List Stmt)}
    (bare : ∀ file ∈ files, ∀ s ∈ declarations file.2, ∀ items span, s ≠ .const items span) :
    (build predefined builtin constants files).namespaceConstants = [] := by
  refine build_invariant (P := fun r => r.namespaceConstants = []) (fun _ _ held => held) rfl ?_
  intro r space file member s declared held
  unfold enter
  split
  next => exact held
  next => exact held
  next items span => exact absurd rfl (bare file member _ declared items span)
  next => exact held

theorem failed_iff (coherent : r.Coherent) (q : Query) (m : Memory) :
    (∃ f, ((r.answer q).run m).1 = .error (.failed f)) ↔ ¬∃ a, ((r.answer q).run m).1 = .ok a := by
  have going := (answer_halts coherent q m 0).1
  rcases result : ((r.answer q).run m).1 with (f | _) | a
  · simp
  · exact absurd result going
  · simp

theorem reply_eval_iff (evaluator : Evaluator) (source : SubjectSource) (e : Expr) (m : Memory)
    (a : Answer) :
    ((r.reply evaluator (.eval source e)).run m).1 = .ok a ↔ ∃ s, r.subjectOf source = .ok s ∧
      ∃ resolution, ((r.evaluate evaluator s e).run m).1 = .ok resolution ∧
        a = .resolution (some resolution) := by
  constructor
  · intro done
    obtain ⟨s, found, done⟩ := Eval.ok_of_bind_lookup done
    obtain ⟨resolution, value, done⟩ := Eval.ok_of_bind done
    exact ⟨s, found, resolution, value, (Except.ok.inj done).symm⟩
  · rintro ⟨s, found, resolution, value, rfl⟩
    simp only [reply, found]
    show ((r.evaluate evaluator s e >>= _).run m).1 = _
    rw [Eval.run_bind_ok value]
    rfl

theorem reply_constant_iff (evaluator : Evaluator) (source : ClassSource) (name : String)
    (m : Memory) (a : Answer) :
    ((r.reply evaluator (.constant source name)).run m).1 = .ok a ↔ ∃ c, r.source source = .ok c ∧
      ∃ o, ((r.searchConstant evaluator name r.hierarchyBound [] c).run m).1 = .ok o ∧
        a = .value o := by
  constructor
  · intro done
    obtain ⟨c, found, done⟩ := Eval.ok_of_bind_lookup done
    obtain ⟨o, value, rfl⟩ := Eval.ok_of_map done
    exact ⟨c, found, o, value, rfl⟩
  · rintro ⟨c, found, o, value, rfl⟩
    simp only [reply, found]
    exact Eval.run_map_ok value Answer.value

section Answers

variable (coherent : r.Coherent) (bare : r.namespaceConstants = []) (unambiguous : r.Unambiguous)
  (history : List Query)

include coherent bare unambiguous

theorem answer_eval_iff {source : SubjectSource} (apart : source.Apart r) (e : Expr) (v : Value) :
    (∃ resolution, ((r.answer (.eval source e)).run (r.after history)).1 =
        .ok (.resolution (some resolution)) ∧ resolution.value = v) ↔
      ∃ s, r.subjectOf source = .ok s ∧ r.Derives (.value s e v) := by
  obtain ⟨depth, enough⟩ := exists_depth coherent (r.classAsked (.eval source e))
  have separate : r.Separate (r.classAsked (.eval source e)) := separate_subject apart
  have placed : ∀ s, r.subjectOf source = .ok s → r.Places (r.classAsked (.eval source e)) s := by
    intro s found c inside
    exact .inl (by simp [classAsked, found, Except.toOption, inside])
  have derives : ∀ s, r.subjectOf source = .ok s →
      (((r.valueOf (r.expand depth) s e).run {}).1 = .ok v ↔ r.Derives (.value s e v)) :=
    fun s found => derives_value_iff bare enough (separate.namesApart coherent unambiguous)
      (placed s found) {}
  simp only [answer_ok_iff coherent bare history _ enough, reply_eval_iff]
  constructor
  · rintro ⟨resolution, ⟨s, found, resolution', value, same⟩, rfl⟩
    cases same
    exact ⟨s, found, (derives s found).mp (Eval.run_map_ok value Resolution.value)⟩
  · rintro ⟨s, found, derived⟩
    obtain ⟨resolution, value, same⟩ := Eval.ok_of_map ((derives s found).mpr derived)
    exact ⟨resolution, ⟨s, found, resolution, value, rfl⟩, same⟩

theorem answer_constant_iff {source : ClassSource} (apart : source.Apart r) (name : String)
    (o : Option Value) :
    ((r.answer (.constant source name)).run (r.after history)).1 = .ok (.value o) ↔
      ∃ c, r.source source = .ok c ∧ r.Derives (.constant c name o) := by
  obtain ⟨depth, enough⟩ := exists_depth coherent (r.classAsked (.constant source name))
  have known : ∀ c, r.source source = .ok c → r.Knows (r.classAsked (.constant source name)) c := by
    intro c found
    exact .inl (by simp [classAsked, found, Except.toOption])
  have separate : r.Separate (r.classAsked (.constant source name)) := by
    intro c inside
    cases found : r.source source with
    | error f => simp [classAsked, found, Except.toOption] at inside
    | ok c' =>
      obtain rfl : c' = c := by simpa [classAsked, found, Except.toOption] using inside
      exact separate_source apart found c' rfl
  have derives : ∀ c, r.source source = .ok c →
      (((r.searchConstant (r.expand depth) name r.hierarchyBound [] c).run {}).1 = .ok o ↔
        r.Derives (.constant c name o)) :=
    fun c found => derives_constant_iff bare enough (separate.namesApart coherent unambiguous)
      (known c found) {}
  simp only [answer_ok_iff coherent bare history _ enough, reply_constant_iff]
  constructor
  · rintro ⟨c, found, o', value, same⟩
    cases same
    exact ⟨c, found, (derives c found).mp value⟩
  · rintro ⟨c, found, derived⟩
    exact ⟨c, found, o, (derives c found).mpr derived, rfl⟩

theorem answer_eval_failed_iff {source : SubjectSource} (apart : source.Apart r) (e : Expr) :
    (∃ f, ((r.answer (.eval source e)).run (r.after history)).1 = .error (.failed f)) ↔
      ¬∃ s v, r.subjectOf source = .ok s ∧ r.Derives (.value s e v) := by
  have derived := answer_eval_iff coherent bare unambiguous history apart e
  rw [failed_iff coherent]
  refine not_congr ⟨?_, ?_⟩
  · rintro ⟨a, done⟩
    obtain ⟨s, found, resolution, -, rfl⟩ := (reply_eval_iff _ _ _ _ _).mp done
    obtain ⟨s, found, value⟩ := (derived resolution.value).mp ⟨resolution, done, rfl⟩
    exact ⟨s, resolution.value, found, value⟩
  · rintro ⟨s, v, found, value⟩
    obtain ⟨resolution, done, -⟩ := (derived v).mpr ⟨s, found, value⟩
    exact ⟨_, done⟩

theorem answer_constant_failed_iff {source : ClassSource} (apart : source.Apart r)
    (name : String) :
    (∃ f, ((r.answer (.constant source name)).run (r.after history)).1 = .error (.failed f)) ↔
      ¬∃ c o, r.source source = .ok c ∧ r.Derives (.constant c name o) := by
  have derived := answer_constant_iff coherent bare unambiguous history apart name
  rw [failed_iff coherent]
  refine not_congr ⟨?_, ?_⟩
  · rintro ⟨a, done⟩
    obtain ⟨c, found, o, -, rfl⟩ := (reply_constant_iff _ _ _ _ _).mp done
    obtain ⟨c, found, value⟩ := (derived o).mp done
    exact ⟨c, o, found, value⟩
  · rintro ⟨c, o, found, value⟩
    exact ⟨_, (derived o).mpr ⟨c, found, value⟩⟩

end Answers

/-- At any point of a session a query about the registry for the value of an expression or for a
class constant has exactly the answers that can be derived, and fails where none can be. -/
theorem named_answers_derived (predefined builtin : Bool) (constants : List (String × Value))
    (files : List (String × List Stmt))
    (bare : ∀ file ∈ files, ∀ s ∈ declarations file.2, ∀ items span, s ≠ .const items span)
    (unambiguous : (build predefined builtin constants files).Unambiguous)
    (history : List Query) :
    let r := build predefined builtin constants files
    (∀ source e, (Query.eval source e).Named →
      let result := (r.step (r.after history) (.eval source e)).1.result
      (∀ v, (∃ resolution, result = .ok (.resolution (some resolution)) ∧ resolution.value = v) ↔
        ∃ s, r.subjectOf source = .ok s ∧ r.Derives (.value s e v)) ∧
      ((∃ f, result = .error (.failed f)) ↔
        ¬∃ s v, r.subjectOf source = .ok s ∧ r.Derives (.value s e v))) ∧
    ∀ cls name,
      let result := (r.step (r.after history) (.constant (.named cls) name)).1.result
      (∀ o, result = .ok (.value o) ↔
        ∃ c, r.find cls = .ok c ∧ r.Derives (.constant c name o)) ∧
      ((∃ f, result = .error (.failed f)) ↔
        ¬∃ c o, r.find cls = .ok c ∧ r.Derives (.constant c name o)) := by
  intro r
  have coherent : r.Coherent := build_coherent predefined builtin constants files
  have bare : r.namespaceConstants = [] := build_bare bare
  have apart : ∀ cls, (ClassSource.named cls).Apart r := fun _ => trivial
  refine ⟨fun source e named => ⟨?_, ?_⟩, fun cls name => ⟨?_, ?_⟩⟩
  · exact answer_eval_iff coherent bare unambiguous history named.apart e
  · exact answer_eval_failed_iff coherent bare unambiguous history named.apart e
  · exact answer_constant_iff coherent bare unambiguous history (apart cls) name
  · exact answer_constant_failed_iff coherent bare unambiguous history (apart cls) name

/-- The same with classes that a query hands in, as long as their names are not in use in the
registry. -/
theorem answers_what_is_derived (predefined builtin : Bool) (constants : List (String × Value))
    (files : List (String × List Stmt))
    (bare : ∀ file ∈ files, ∀ s ∈ declarations file.2, ∀ items span, s ≠ .const items span)
    (unambiguous : (build predefined builtin constants files).Unambiguous)
    (history : List Query) :
    let r := build predefined builtin constants files
    (∀ source e, SubjectSource.Apart r source →
      let result := (r.step (r.after history) (.eval source e)).1.result
      (∀ v, (∃ resolution, result = .ok (.resolution (some resolution)) ∧ resolution.value = v) ↔
        ∃ s, r.subjectOf source = .ok s ∧ r.Derives (.value s e v)) ∧
      ((∃ f, result = .error (.failed f)) ↔
        ¬∃ s v, r.subjectOf source = .ok s ∧ r.Derives (.value s e v))) ∧
    ∀ source name, ClassSource.Apart r source →
      let result := (r.step (r.after history) (.constant source name)).1.result
      (∀ o, result = .ok (.value o) ↔
        ∃ c, r.source source = .ok c ∧ r.Derives (.constant c name o)) ∧
      ((∃ f, result = .error (.failed f)) ↔
        ¬∃ c o, r.source source = .ok c ∧ r.Derives (.constant c name o)) := by
  intro r
  have coherent : r.Coherent := build_coherent predefined builtin constants files
  have bare : r.namespaceConstants = [] := build_bare bare
  refine ⟨fun source e apart => ⟨?_, ?_⟩, fun source name apart => ⟨?_, ?_⟩⟩
  · exact answer_eval_iff coherent bare unambiguous history apart e
  · exact answer_eval_failed_iff coherent bare unambiguous history apart e
  · exact answer_constant_iff coherent bare unambiguous history apart name
  · exact answer_constant_failed_iff coherent bare unambiguous history apart name

def classWith (name : String) (parents : List Name) (constants : List ConstItem) : Stmt :=
  .cls ⟨.cls, name, [], parents, [], [.const [] constants {}], {}⟩

def entwined : List (String × List Stmt) :=
  -- A::X is B::Y, and B extends A
  [("/app/a.php", [
    classWith "A" [] [⟨"X", .classConstant (.named (.parse "B")) "Y" {}, {}⟩],
    classWith "B" [.parse "\\A"] [⟨"Y", .int 7 {}, {}⟩]])]

theorem derives_entwined :
    (∀ file ∈ entwined, ∀ s ∈ declarations file.2, ∀ items span, s ≠ .const items span) ∧
      let r := build false true [] entwined
      r.Unambiguous ∧ ∃ c, r.source (.named "B") = .ok c ∧
        r.Derives (.constant c "X" (some (.int 7))) := by
  have bare : ∀ file ∈ entwined, ∀ s ∈ declarations file.2, ∀ items span,
      s ≠ .const items span := by
    intro file member s declared items span
    obtain rfl := List.mem_singleton.mp member
    have classes : ∃ c, s = .cls c := by
      simp only [declarations, classWith, Stmt.flatten, List.flatMap_cons, List.flatMap_nil,
        List.append_nil, List.cons_append, List.nil_append, List.mem_cons, List.not_mem_nil,
        or_false] at declared
      rcases declared with rfl | rfl <;> exact ⟨_, rfl⟩
    obtain ⟨c, rfl⟩ := classes
    simp
  have unambiguous : (build false true [] entwined).Unambiguous := by
    have disjoint : (Assoc.keys (build false true [] entwined).classes).all (fun key =>
        !(Assoc.keys (build false true [] entwined).internals).contains key) = true := by cbv
    simpa [Unambiguous] using disjoint
  refine ⟨bare, unambiguous, ?_⟩
  have answers := (answers_what_is_derived false true [] entwined bare unambiguous
    [.constant (.named "A") "X"]).2 (.named "B") "X" trivial
  exact (answers.1 (some (.int 7))).mp (by cbv)

end Registry

end ConstExpr
