import ConstExpr.Proofs.Comparison
import ConstExpr.Proofs.Derivation
import ConstExpr.Proofs.Discipline
import Mathlib

/-!
Every array that evaluation comes up with is in order: those it answers with, and those it
remembers. Only values from outside need to be given so: the constants known beforehand, and those
of a built-in class that a query hands in. In particular keys are unique at every depth, as
comparisons ask of their operands.
-/

namespace ConstExpr

def ClassSource.values : ClassSource → List Value
  | .internal _ _ _ _ constants => constants.map Prod.snd
  | _ => []

/-- The values that a query hands in. -/
def Query.values (q : Query) : List Value := (q.class?.map ClassSource.values).getD []

theorem Class.mem_of_builtinConstant? {name key : String} {kind : ClassKind}
    {parent : Option String} {interfaces : List String} {constants : List (String × Value)}
    {v : Value}
    (found : (Class.internal name kind parent interfaces constants).builtinConstant? key = some v) :
    (key, v) ∈ constants := by
  have entered : (key, v) ∈ Assoc.ofPairs constants := Assoc.mem_of_get? found
  rcases Assoc.mem_putAll entered with none | given
  · cases none
  · exact given

namespace Registry

/-- What a registry has beforehand is well formed. -/
structure Stocked (r : Registry) : Prop where
  constants : ∀ entry ∈ r.constants, entry.2.WellFormed
  internals : ∀ entry ∈ r.internals, ∀ name v, entry.2.builtinConstant? name = some v → v.WellFormed

theorem builtin_constants_scalar : ∀ entry ∈ Builtin.constants, entry.2.table? = none := by
  have all : (Builtin.constants.all fun entry => entry.2.table?.isNone) = true := by decide
  intro entry member
  have scalar := List.all_eq_true.mp all entry member
  exact Option.isNone_iff_eq_none.mp scalar

theorem builtin_classes_scalar : ∀ c ∈ Builtin.classes, ∀ name v,
    c.builtinConstant? name = some v → v.table? = none := by
  have all : (Builtin.classes.all fun c => c.ownConstantNames.all fun name =>
      ((c.builtinConstant? name).bind Value.table?).isNone) = true := by decide
  intro c member name v found
  have own : name ∈ c.ownConstantNames := by
    by_contra lacks
    rw [(lacks_iff.mp lacks).2] at found
    cases found
  have scalar := List.all_eq_true.mp (List.all_eq_true.mp all c member) name own
  rw [found] at scalar
  exact Option.isNone_iff_eq_none.mp scalar

theorem build_stocked (predefined builtin : Bool) {constants : List (String × Value)}
    (given : ∀ entry ∈ constants, entry.2.WellFormed) (files : List (String × List Stmt)) :
    (build predefined builtin constants files).Stocked := by
  have start : (build predefined builtin constants []).Stocked := by
    constructor
    · intro entry member
      rcases Assoc.mem_putAll member with known | new
      · cases predefined with
        | true => exact .scalar (builtin_constants_scalar entry known)
        | false => cases known
      · exact given entry new
    · intro entry member name v found
      cases builtin with
      | false => cases member
      | true =>
        rcases Assoc.mem_putAll member with none | known
        · cases none
        · obtain ⟨c, inside, same⟩ := List.mem_map.mp known
          have own : entry.2 = c := (congrArg Prod.snd same).symm
          rw [own] at found
          exact .scalar (builtin_classes_scalar c inside name v found)
  apply build_invariant (fun _ _ held => ⟨held.constants, held.internals⟩) start
  intro r space file _ s _ held
  unfold enter
  split
  next => exact ⟨held.constants, held.internals⟩
  next => exact ⟨held.constants, held.internals⟩
  next => exact ⟨held.constants, held.internals⟩
  next => exact held

variable {r : Registry}

theorem Stocked.builtin (stocked : r.Stocked) {q : Query}
    (handed : ∀ v ∈ q.values, v.WellFormed) {c : Class} (known : r.Knows (r.classAsked q) c)
    {name : String} {v : Value} (own : c.builtinConstant? name = some v) : v.WellFormed := by
  have inside : ∀ {found}, r.internal? found = some c → v.WellFormed := fun here =>
    stocked.internals _ (Assoc.mem_of_get? here) name v own
  have named : ∀ {found}, r.find found = .ok c → v.WellFormed := by
    intro found here
    rcases find_eq here with ⟨entry, -, rfl⟩ | builtin
    · cases own
    · exact inside builtin
  rcases known with asks | ⟨found, here⟩ | ⟨found, here⟩
  · obtain ⟨given, same, source⟩ := class_of_classAsked asks
    cases given with
    | named found => exact named source
    | declared => cases source; cases own
    | internal =>
      cases source
      have member := List.mem_map_of_mem (f := Prod.snd) (Class.mem_of_builtinConstant? own)
      apply handed
      rw [Query.values, same]
      exact member
  · exact named here
  · exact inside here

def wellFormedness (stocked : r.Stocked) {q : Query}
    (handed : ∀ v ∈ q.values, v.WellFormed) : r.Discipline (r.classAsked q) where
  Fine := Value.WellFormed
  Allowed _ := True
  Walks _ _ := True
  plain := .scalar
  given found := stocked.constants _ (Assoc.mem_of_get? found)
  builtin known _ _ own := stocked.builtin handed known own
  empty := .empty
  unpack formed inner := formed.unpack inner
  store formed key inner := formed.store key inner
  append formed inner := formed.append inner
  element formed _ := formed.element
  binary left op right := left.binary op right
  unary formed op := formed.unary op
  cast formed kind := formed.cast kind
  other _ := trivial
  start _ := trivial
  step _ _ _ := trivial
  again _ _ := trivial

theorem answer_wellFormed (stocked : r.Stocked) {q : Query}
    (handed : ∀ v ∈ q.values, v.WellFormed) {m : Memory}
    (kept : ∀ entry ∈ m.values, entry.2.WellFormed) :
    (∀ entry ∈ ((r.answer q).run m).2.values, entry.2.WellFormed) ∧
      ∀ a, ((r.answer q).run m).1 = .ok a → a.All Value.WellFormed := by
  obtain ⟨after, answered, -⟩ := answer_disciplined q (wellFormedness stocked handed) m kept
  exact ⟨after, answered⟩

theorem after_wellFormed (stocked : r.Stocked) {history : List Query}
    (handed : ∀ q ∈ history, ∀ v ∈ q.values, v.WellFormed) :
    ∀ entry ∈ (r.after history).values, entry.2.WellFormed := by
  apply after_invariant_of (P := fun m => ∀ entry ∈ m.values, entry.2.WellFormed)
  · intro entry none
    cases none
  · -- between queries values are only forgotten
    intro m q member kept entry remembered
    have after := (answer_wellFormed stocked (handed q member) kept).1
    exact after entry (List.mem_of_mem_filter remembered)

/-- At any point of a session the values remembered and those that a query answers with are well
formed, if those given by value and those handed in are. -/
theorem answers_wellFormed (predefined builtin : Bool) (constants : List (String × Value))
    (files : List (String × List Stmt)) (given : ∀ entry ∈ constants, entry.2.WellFormed)
    (history : List Query) (handed : ∀ q ∈ history, ∀ v ∈ q.values, v.WellFormed) (q : Query)
    (hands : ∀ v ∈ q.values, v.WellFormed) :
    let r := build predefined builtin constants files
    let m := r.after history
    (∀ entry ∈ m.values, entry.2.WellFormed) ∧
      (∀ entry ∈ ((r.answer q).run m).2.values, entry.2.WellFormed) ∧
      ∀ a, (r.step m q).1.result = .ok a → a.All Value.WellFormed := by
  intro r m
  have stocked : r.Stocked := build_stocked predefined builtin given files
  have before : ∀ entry ∈ m.values, entry.2.WellFormed := after_wellFormed stocked handed
  exact ⟨before, answer_wellFormed stocked hands before⟩

/-- Array keys of all these values are unique at every depth, which is what symmetric equality and
converse orderings ask of both operands. -/
theorem answers_keyed (predefined builtin : Bool) (constants : List (String × Value))
    (files : List (String × List Stmt)) (given : ∀ entry ∈ constants, entry.2.WellFormed)
    (history : List Query) (handed : ∀ q ∈ history, ∀ v ∈ q.values, v.WellFormed) (q : Query)
    (hands : ∀ v ∈ q.values, v.WellFormed) :
    let r := build predefined builtin constants files
    let m := r.after history
    (∀ entry ∈ m.values, entry.2.Keyed) ∧
      ∀ a, (r.step m q).1.result = .ok a → a.All Value.Keyed := by
  intro r m
  have stocked : r.Stocked := build_stocked predefined builtin given files
  have before : ∀ entry ∈ m.values, entry.2.WellFormed := after_wellFormed stocked handed
  refine ⟨fun entry member => (before entry member).keyed, fun a answered => ?_⟩
  exact ((answer_wellFormed stocked hands before).2 a answered).mono fun _ formed => formed.keyed

def pair : Value := .array ⟨[(.str [120], .int 1), (.int 5, .int 2)], 6⟩

def extended (name : String) : Expr :=
  .array [⟨none, .constant (.parse name) {}, false, true, {}⟩,
    ⟨some (.string [55] {}), .int 3 {}, false, false, {}⟩] {}

theorem pair_wellFormed : pair.WellFormed := by
  have normal : (Key.str [120]).Normal := by
    intro i same
    have read := Word.ofText?_text i
    have unread : Word.ofText? [120] = none := by decide
    rw [← same, unread] at read
    cases read
  apply Value.WellFormed.array
  · constructor
    · decide
    · intro key member
      rcases List.mem_cons.mp member with first | rest
      · rw [first]
        exact normal
      · rw [List.mem_singleton.mp rest]
        trivial
    · decide
  · intro entry member
    rcases List.mem_cons.mp member with rfl | rest
    · exact .scalar rfl
    · rw [List.mem_singleton.mp rest]
      exact .scalar rfl

theorem extended_pair_wellFormed :
    (∀ entry ∈ [("LIST", pair)], entry.2.WellFormed) ∧
      let r := build false false [("LIST", pair)] []
      let ask : Query := .eval (.givenFile bootstrap) (extended "LIST")
      ∃ t : Table Value, t.nextFree = 8 ∧ (Value.array t).WellFormed ∧
        (r.step (r.after [ask]) ask).1.result = .ok (.resolution (some { value := .array t })) := by
  have given : ∀ entry ∈ [("LIST", pair)], entry.2.WellFormed := by
    intro entry member
    rw [List.mem_singleton.mp member]
    exact pair_wellFormed
  refine ⟨given, ?_⟩
  intro r ask
  let t : Table Value := ⟨[(.str [120], .int 1), (.int 0, .int 2), (.int 7, .int 3)], 8⟩
  have result : (r.step (r.after [ask]) ask).1.result =
      .ok (.resolution (some { value := .array t })) := by cbv
  have none : ∀ v ∈ ask.values, v.WellFormed := by
    intro v no
    cases no
  have all := (answers_wellFormed false false [("LIST", pair)] [] given [ask]
    (by simpa using none) ask none).2.2 _ result
  exact ⟨t, rfl, all _ rfl, result⟩

/-- A built-in class that is handed in keeps its constants as they are, here one with the text of a
word as a string key. -/
theorem handed_in_as_given :
    let r := build false false [] []
    let odd : Value := .array ⟨[(.str [53], .int 1)], 0⟩
    let ask : Query := .eval (.cls (.internal "Box" .cls none [] [("X", odd)]))
      (.classConstant (.named (.parse "self")) "X" {})
    ∃ resolution, (r.step {} ask).1.result = .ok (.resolution (some resolution)) ∧
      ¬resolution.value.WellFormed := by
  intro r odd ask
  refine ⟨{ value := odd, constant := some (.resolved "self::X") }, by cbv, ?_⟩
  intro formed
  obtain ⟨orderly, -⟩ := Value.wellFormed_array.mp formed
  have normal := orderly.normal (.str [53]) (by decide) 5
  exact normal (by decide)

end Registry

end ConstExpr
