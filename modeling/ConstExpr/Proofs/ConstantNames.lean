import ConstExpr.Proofs.NameText
import ConstExpr.Proofs.RegistrationOrder
import ConstExpr.Proofs.Run

/-!
Short and full names of constants. A constant is found by its short name inside its namespace and
file, and by its full name anywhere. Where one file declares it and nothing known beforehand has its
full name, both mean the same constant; they only differ once its value cannot be computed.
-/

namespace ConstExpr

theorem foldl_iff {σ β : Type} {f : σ → β → σ} {P : σ → Prop} {Q : β → Prop}
    (step : ∀ s b, P (f s b) ↔ P s ∨ Q b) (l : List β) (s : σ) :
    P (l.foldl f s) ↔ P s ∨ ∃ b ∈ l, Q b := by
  induction l generalizing s with
  | nil => simp
  | cons b rest ih => simp [ih, step, or_assoc]

theorem and_mem_flatMap {α β : Type} {p : Prop} {a : α} {l : List β} {g : β → List α} :
    p ∧ a ∈ l.flatMap g ↔ ∃ b ∈ l, p ∧ a ∈ g b := by
  rw [List.mem_flatMap]
  constructor
  · rintro ⟨held, b, member, inside⟩
    exact ⟨b, member, held, inside⟩
  · rintro ⟨b, member, held, inside⟩
    exact ⟨held, b, member, inside⟩

def ConstantKey.symbol (key : ConstantKey) : Symbol := .constant key.space key.name

namespace Registry

variable {r : Registry} {key : ConstantKey}

section Declared

variable {file space : String}

def HasConstant (r : Registry) (key : ConstantKey) : Prop := key ∈ Assoc.keys r.namespaceConstants

theorem hasConstant_enter (r : Registry) (s : Stmt) : (r.enter file space s).HasConstant key ↔
    r.HasConstant key ∨ key.file = file ∧ key.symbol ∈ s.symbols space := by
  cases s with
  | const items span =>
    have entered := foldl_iff (P := fun m : Assoc ConstantKey Initializer => key ∈ Assoc.keys m)
      (Q := fun item => key = .of file space item.name)
      (fun m item => Assoc.mem_keys_put (a := ⟨space, item.value⟩)) items r.namespaceConstants
    have own : ∀ item : ConstItem, key = .of file space item.name ↔
        key.file = file ∧ .constant (foldCase (trimBoth '\\' space)) item.name = key.symbol := by
      intro item
      cases key
      simp [ConstantKey.of, ConstantKey.symbol, eq_comm]
    refine entered.trans (or_congr_right ?_)
    simp only [own, Stmt.symbols, List.mem_map]
    constructor
    · rintro ⟨item, member, home, same⟩
      exact ⟨home, item, member, same⟩
    · rintro ⟨home, item, member, same⟩
      exact ⟨item, member, home, same⟩
  | _ => simp [enter, HasConstant, Stmt.symbols, ConstantKey.symbol]

theorem hasConstant_enterNamespace (r : Registry) (part : String × List Stmt) :
    (r.enterNamespace file part.1 part.2).HasConstant key ↔ r.HasConstant key ∨
      key.file = file ∧ key.symbol ∈ (flattenAll part.2).flatMap (Stmt.symbols part.1) := by
  have opened : (r.openNamespace file part.1).HasConstant key ↔ r.HasConstant key := by
    unfold openNamespace
    dsimp only
    split <;> rfl
  rw [enterNamespace]
  refine Iff.trans (foldl_iff (P := fun r : Registry => r.HasConstant key)
    hasConstant_enter _ _) ?_
  rw [opened, and_mem_flatMap]

theorem hasConstant_enterFile (r : Registry) (file : String × List Stmt) :
    (r.enterFile file.1 file.2).HasConstant key ↔
      r.HasConstant key ∨ key.file = file.1 ∧ key.symbol ∈ fileSymbols file.2 := by
  rw [enterFile_eq]
  refine Iff.trans (foldl_iff (P := fun r : Registry => r.HasConstant key)
    hasConstant_enterNamespace _ _) ?_
  rw [fileSymbols, and_mem_flatMap]
  rfl

theorem hasConstant_build {predefined builtin : Bool} {constants : List (String × Value)}
    {files : List (String × List Stmt)} :
    (build predefined builtin constants files).HasConstant key ↔
      ∃ file ∈ files, key.file = file.1 ∧ key.symbol ∈ fileSymbols file.2 := by
  refine Iff.trans (foldl_iff (P := fun r : Registry => r.HasConstant key)
    hasConstant_enterFile _ _) ?_
  simp [HasConstant, Assoc.keys]

theorem trimBoth_of_mem_fileSymbols {statements : List Stmt} {name : String}
    (declared : .constant space name ∈ fileSymbols statements) : trimBoth '\\' space = space := by
  obtain ⟨part, -, inside⟩ := List.mem_flatMap.mp declared
  obtain ⟨s, -, inside⟩ := List.mem_flatMap.mp inside
  cases s with
  | const items span =>
    obtain ⟨item, -, same⟩ := List.mem_map.mp inside
    cases same
    rw [trimBoth_foldCase, trimBoth_trimBoth]
  | _ => simp [Stmt.symbols] at inside

theorem build_constants (predefined builtin : Bool) (constants : List (String × Value))
    (files : List (String × List Stmt)) : (build predefined builtin constants files).constants =
      Assoc.putAll (if predefined then Builtin.constants else []) constants := by
  apply build_invariant (P := fun r => r.constants = _)
  · exact fun _ _ held => held
  · rfl
  · intro r space file _ s _ held
    cases s <;> exact held

theorem build_free {predefined builtin : Bool} {constants : List (String × Value)}
    {files : List (String × List Stmt)} {full : String} (given : full ∉ Assoc.keys constants)
    (beforehand : predefined = true → full ∉ Assoc.keys Builtin.constants) :
    Assoc.get? (build predefined builtin constants files).constants full = none := by
  rw [Assoc.get?_eq_none_iff, build_constants]
  intro known
  obtain ⟨⟨full, v⟩, member, rfl⟩ := List.mem_map.mp known
  rcases Assoc.mem_putAll member with before | given'
  · cases predefined with
    | false => cases before
    | true => exact beforehand rfl (List.mem_map_of_mem before)
  · exact given (List.mem_map_of_mem given')

end Declared

section Lookup

variable {k : LazyConstant} (here : r.namespaceLazy? key = some k)
  (word : Builtin.keyword? key.name = none) (evaluator : Evaluator) {s : Subject} {name : Name}

include here word

theorem constantIn_short (kind : name.kind = .unqualified) (text : name.text = key.name)
    (place : s.file? = some key.file)
    (around : foldCase (trimBoth '\\' s.namespaceName) = key.space) :
    r.constantIn evaluator s name =
      (fun v => ⟨v, some (.resolved (qualify s.namespaceName name.text))⟩) <$> evaluator k := by
  have own : ConstantKey.of key.file s.namespaceName name.text = key := by
    rw [ConstantKey.of, around, text]
  have near : r.localConstant evaluator s name = some <$> evaluator k := by
    have short : name.isFullyQualified = false := by simp [Name.isFullyQualified, kind]
    simp only [localConstant, short, place, own, namespaceConstant, here]
    rfl
  simp only [constantIn, text, word, near]
  simp

theorem constantIn_full {space : String} (kind : name.kind = .fullyQualified)
    (text : name.text = qualify space key.name) (same : foldCase space = key.space)
    (free : Assoc.get? r.constants name.text = none) (single : '\\' ∉ key.name.toList)
    (bare : key.space.toList.head? ≠ some '\\')
    (sole : ∀ other, r.HasConstant other → other.space = key.space → other.name = key.name →
      other = key) :
    r.constantIn evaluator s name =
      (fun o => o.elim ⟨.text name.text, some (.literal name.text)⟩
        fun v => ⟨v, some (.resolved name.text)⟩) <$> Eval.orNone (some <$> evaluator k) := by
  have head : space.toList.head? ≠ some '\\' := by
    intro first
    exact bare (same ▸ head?_foldCase.mpr first)
  have trimmed : trimLeft '\\' name.text = name.text := by
    rw [text]
    exact trimLeft_qualify space single head
  have keyword : Builtin.keyword? name.text = none := text ▸ keyword?_qualify space word
  obtain ⟨around, short⟩ := splitLast_qualify space single
  -- no other file has the constant, so the first one that is found is this
  have found : r.constantKey? name.text = some key := by
    obtain ⟨initializer, inside, -⟩ := Option.map_eq_some_iff.mp here
    have member : key ∈ Assoc.keys r.namespaceConstants :=
      List.mem_map_of_mem (Assoc.mem_of_get? inside)
    unfold constantKey?
    rw [text, around, short, same]
    cases first : (Assoc.keys r.namespaceConstants).find? fun other =>
        other.space == key.space && other.name == key.name with
    | none => simpa using List.find?_eq_none.mp first key member
    | some other =>
      have fits := List.find?_some first
      simp only [Bool.and_eq_true, beq_iff_eq] at fits
      rw [sole other (List.mem_of_find?_eq_some first) fits.1 fits.2]
  have near : r.localConstant evaluator s name = pure none := by
    simp [localConstant, Name.isFullyQualified, kind]
  have far : r.globalConstant evaluator name.text = Eval.orNone (some <$> evaluator k) := by
    simp only [globalConstant, trimmed, keyword, free, found, namespaceConstant, here]
  simp only [constantIn, keyword, near, far, pure_bind]
  rw [Eval.map_eq_bind]
  refine congrArg (Eval.orNone (some <$> evaluator k) >>= ·) (funext fun found => ?_)
  cases found <;> rfl

end Lookup

/-- One file declares a constant in a namespace, no other file does, and neither a predefined
constant nor one given by value has the full name. The short name is a single segment and no
keyword. -/
structure Unrivalled (predefined : Bool) (constants : List (String × Value))
    (files : List (String × List Stmt)) (file space name : String) : Prop where
  single : '\\' ∉ name.toList
  word : Builtin.keyword? name = none
  declared : ∃ statements, (file, statements) ∈ files ∧
    .constant (foldCase space) name ∈ fileSymbols statements
  alone : ∀ other ∈ files, .constant (foldCase space) name ∈ fileSymbols other.2 → other.1 = file
  given : qualify space name ∉ Assoc.keys constants
  beforehand : predefined = true → qualify space name ∉ Assoc.keys Builtin.constants

namespace Unrivalled

variable {predefined builtin : Bool} {constants : List (String × Value)}
  {files : List (String × List Stmt)} {file space name : String}
  (constant : Unrivalled predefined constants files file space name)

include constant

theorem exists_lazy : ∃ k, (build predefined builtin constants files).namespaceLazy?
    ⟨file, foldCase space, name⟩ = some k := by
  obtain ⟨statements, member, declared⟩ := constant.declared
  have known : (build predefined builtin constants files).HasConstant
      ⟨file, foldCase space, name⟩ :=
    hasConstant_build.mpr ⟨_, member, rfl, declared⟩
  obtain ⟨initializer, found⟩ := Option.ne_none_iff_exists'.mp fun none =>
    Assoc.get?_eq_none_iff.mp none known
  exact ⟨_, Option.map_eq_some_iff.mpr ⟨initializer, found, rfl⟩⟩

theorem sole {other : ConstantKey}
    (known : (build predefined builtin constants files).HasConstant other)
    (around : other.space = foldCase space) (short : other.name = name) :
    other = ⟨file, foldCase space, name⟩ := by
  obtain ⟨entered, member, home, declared⟩ := hasConstant_build.mp known
  cases other with
  | mk place inside spelled =>
    subst home around short
    rw [constant.alone entered member declared]

theorem free :
    Assoc.get? (build predefined builtin constants files).constants (qualify space name) = none :=
  build_free constant.given constant.beforehand

variable {s : Subject} {short full : Name} {evaluator : Evaluator} {m : Memory} {res : Resolution}

theorem constantIn_eq (home : s.file? = some file) (around : s.namespaceName = space)
    (unqualified : short.kind = .unqualified) (spelled : short.text = name)
    (qualified : full.kind = .fullyQualified) (spelled' : full.text = qualify space name) :
    let r := build predefined builtin constants files
    ((r.constantIn evaluator s short).run m).1 = .ok res →
      (r.constantIn evaluator s full).run m = (r.constantIn evaluator s short).run m ∧
        res.constant = some (.resolved (qualify space name)) := by
  intro r succeeds
  obtain ⟨k, here⟩ : ∃ k, r.namespaceLazy? ⟨file, foldCase space, name⟩ = some k :=
    constant.exists_lazy
  obtain ⟨statements, -, declared⟩ := constant.declared
  have trimmed := trimBoth_of_mem_fileSymbols declared
  have bare : (foldCase space).toList.head? ≠ some '\\' := trimmed ▸ head?_trimBoth '\\' _
  have near := constantIn_short here constant.word evaluator unqualified spelled home
    (by rw [around, ← trimBoth_foldCase, trimmed])
  have far := constantIn_full here constant.word evaluator (s := s) qualified spelled' rfl
    (spelled' ▸ constant.free) constant.single bare fun _ => constant.sole
  rw [near] at succeeds ⊢
  obtain ⟨v, done, rfl⟩ := Eval.ok_of_map succeeds
  have found : (some <$> evaluator k).run m = (.ok (some v), ((evaluator k).run m).2) := by
    rw [Eval.run_map, done]
    rfl
  -- there is a value, so nothing is passed over for the full name
  have kept : (Eval.orNone (some <$> evaluator k)).run m = (some <$> evaluator k).run m := by
    rw [Eval.run_orNone_ok (by rw [found]), found]
  rw [far, Eval.run_map, Eval.run_map, kept, found, done, around, spelled, spelled']
  exact ⟨rfl, rfl⟩

end Unrivalled

theorem answer_eval_constant {source : SubjectSource} {s : Subject}
    (subject : r.subjectOf source = .ok s) (name : Name) (span : Span) :
    r.answer (.eval source (.constant name span)) = (fun res => .resolution (some res)) <$>
      r.constantIn (r.force (r.depthBound s.class?)) s name := by
  simp only [answer, reply, classAsked, subject, Eval.ofLookup, pure_bind]
  rfl

/-- Inside its namespace and file, a constant may be asked for by its short or by its full name. If
the short name gives a value, the full name gives the same one with the same warnings, at any point
of a session, and leaves the same memory; both are recorded as the full name. -/
theorem short_as_full {predefined builtin : Bool} {constants : List (String × Value)}
    {files : List (String × List Stmt)} {file space name : String}
    (constant : Unrivalled predefined constants files file space name) {source : SubjectSource}
    {s : Subject}
    (subject : (build predefined builtin constants files).subjectOf source = .ok s)
    (home : s.file? = some file) (around : s.namespaceName = space) {short full : Name}
    (unqualified : short.kind = .unqualified) (spelled : short.text = name)
    (qualified : full.kind = .fullyQualified) (spelled' : full.text = qualify space name)
    (m : Memory) (span span' : Span) {res : Resolution} :
    let r := build predefined builtin constants files
    (r.step m (.eval source (.constant short span))).1.result = .ok (.resolution (some res)) →
      r.step m (.eval source (.constant full span')) =
          r.step m (.eval source (.constant short span)) ∧
        res.constant = some (.resolved (qualify space name)) := by
  intro r succeeds
  have asks := answer_eval_constant subject
  have computed : ((r.answer (.eval source (.constant short span))).run m).1 =
      .ok (.resolution (some res)) := succeeds
  rw [asks] at computed
  obtain ⟨found, done, same⟩ := Eval.ok_of_map computed
  cases same
  obtain ⟨equal, recorded⟩ :=
    constant.constantIn_eq home around unqualified spelled qualified spelled' done
  refine ⟨?_, recorded⟩
  have run : (r.answer (.eval source (.constant full span'))).run m =
      (r.answer (.eval source (.constant short span))).run m := by
    rw [asks, asks, Eval.run_map, Eval.run_map, equal]
  rw [step, step, run]

def namesakes : List (String × List Stmt) :=
  [("a.php", [.namespaceBlock (some (.parse "App")) [.const [⟨"N", .int 3 {}, {}⟩] {}] {}]),
    ("b.php", [.namespaceBlock (some (.parse "Lib")) [.const [⟨"N", .int 4 {}, {}⟩] {}] {}])]

theorem namesake_as_full :
    let given : List (String × Value) := [("N", .int 9)]
    let r := build false false given namesakes
    let source : SubjectSource := .space (.of "a.php" "App")
    let short : Query := .eval source (.constant (.parse "N") {})
    let full : Query := .eval source (.constant (.parse "\\App\\N") {})
    Unrivalled false given namesakes "a.php" "App" "N" ∧
      (r.step {} short).1.result =
        .ok (.resolution (some ⟨.int 3, some (.resolved "App\\N")⟩)) ∧
      r.step {} full = r.step {} short := by
  -- neither the constant of the other namespace nor the global one is in the way
  intro given r source short full
  have constant : Unrivalled false given namesakes "a.php" "App" "N" := by
    refine ⟨by decide, by cbv, ?_, ?_, by decide, nofun⟩
    · refine ⟨_, List.mem_cons_self, ?_⟩
      decide +kernel
    · simp only [namesakes, List.forall_mem_cons]
      decide +kernel
  have subject : r.subjectOf source = .ok (.space (.of "a.php" "App")) := rfl
  have around : (Subject.space (.of "a.php" "App")).namespaceName = "App" := by decide +kernel
  have kind : (Name.parse "N").kind = .unqualified := by decide
  have text : (Name.parse "N").text = "N" := by decide +kernel
  have kind' : (Name.parse "\\App\\N").kind = .fullyQualified := by decide
  have text' : (Name.parse "\\App\\N").text = qualify "App" "N" := by decide +kernel
  have value : ((build false false [("N", .int 9)] namesakes).step {} short).1.result =
      .ok (.resolution (some ⟨.int 3, some (.resolved "App\\N")⟩)) := by cbv
  exact ⟨constant, value,
    (short_as_full constant subject rfl around kind text kind' text' {} {} {} value).1⟩

end Registry

end ConstExpr
