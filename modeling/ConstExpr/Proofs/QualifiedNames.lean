import ConstExpr.Proofs.ConstantNames

/-!
Constants named together with a namespace. Such a name is read from the top wherever it stands: the
surrounding namespace plays no part, and it means the same with a separator in front. So from an
outer namespace the constants of an inner one are not found by their relative names.
-/

namespace ConstExpr

/-- The same name with a separator in front. -/
def Name.fromTop (n : Name) : Name := { n with kind := .fullyQualified }

theorem separator_mem_qualify {space : String} (inner : space ≠ "") (name : String) :
    '\\' ∈ (qualify space name).toList := by
  have some : ¬space.isEmpty := fun empty => inner (String.isEmpty_iff.mp empty)
  simp [qualify, some]

theorem qualify_ne_self {space : String} (inner : space ≠ "") (name : String) :
    qualify space name ≠ name := by
  intro same
  have some : ¬space.isEmpty := fun empty => inner (String.isEmpty_iff.mp empty)
  have longer := congrArg String.length same
  simp [qualify, some] at longer

namespace Registry

variable {r : Registry} {evaluator : Evaluator} {s : Subject} {name : Name} {m : Memory}

theorem constantIn_fromTop
    (absent : ∀ file ∈ s.file?, ¬r.HasConstant (.of file s.namespaceName name.text)) :
    r.constantIn evaluator s name = r.constantIn evaluator s name.fromTop := by
  -- only the constants of the surrounding namespace are looked up before the full name
  have near : r.localConstant evaluator s name = pure none := by
    unfold localConstant
    split
    · rfl
    · split
      next file home =>
        have none := Assoc.get?_eq_none_iff.mpr (absent file home)
        simp [namespaceConstant, namespaceLazy?, none]
      next => rfl
  have top : r.localConstant evaluator s name.fromTop = pure none := rfl
  have text : name.fromTop.text = name.text := rfl
  simp only [constantIn, text, near, top]

theorem constantIn_fromTop_records (word : Builtin.keyword? name.text = none) {res : Resolution}
    (done : ((r.constantIn evaluator s name.fromTop).run m).1 = .ok res) :
    res.constant = some (.resolved name.text) ∨ res.constant = some (.literal name.text) := by
  have word' : Builtin.keyword? name.fromTop.text = none := word
  rw [constantIn, word'] at done
  obtain ⟨near, first, done⟩ := Eval.ok_of_bind done
  cases first
  obtain ⟨far, -, done⟩ := Eval.ok_of_bind done
  cases far with
  | some v =>
    cases done
    exact .inl rfl
  | none =>
    cases done
    exact .inr rfl

section Build

variable {predefined builtin : Bool} {constants : List (String × Value)}
  {files : List (String × List Stmt)} {file space short : String}

/-- Constants are declared under single segments. -/
def SingleSegments (files : List (String × List Stmt)) : Prop :=
  ∀ file ∈ files, ∀ space name, .constant space name ∈ fileSymbols file.2 → '\\' ∉ name.toList

theorem SingleSegments.absent (plain : SingleSegments files) {around text : String}
    (deep : '\\' ∈ text.toList) :
    ¬(build predefined builtin constants files).HasConstant (.of file around text) := by
  intro known
  obtain ⟨entered, member, -, declared⟩ := hasConstant_build.mp known
  exact plain entered member _ _ declared deep

/-- No file declares a constant in a namespace, and neither a predefined constant nor one given by
value has the full name. -/
structure Unclaimed (predefined : Bool) (constants : List (String × Value))
    (files : List (String × List Stmt)) (space name : String) : Prop where
  single : '\\' ∉ name.toList
  bare : space.toList.head? ≠ some '\\'
  undeclared : ∀ file ∈ files, .constant (foldCase space) name ∉ fileSymbols file.2
  given : qualify space name ∉ Assoc.keys constants
  beforehand : predefined = true → qualify space name ∉ Assoc.keys Builtin.constants

theorem Unclaimed.constantKey? (unclaimed : Unclaimed predefined constants files space short) :
    (build predefined builtin constants files).constantKey? (qualify space short) = none := by
  obtain ⟨around, last⟩ := splitLast_qualify space unclaimed.single
  unfold Registry.constantKey?
  rw [around, last, List.find?_eq_none]
  intro key known fits
  simp only [Bool.and_eq_true, beq_iff_eq] at fits
  obtain ⟨entered, member, -, declared⟩ := hasConstant_build.mp known
  rw [ConstantKey.symbol, fits.1, fits.2] at declared
  exact unclaimed.undeclared entered member declared

theorem Unclaimed.constantIn_eq (unclaimed : Unclaimed predefined constants files space short)
    (word : Builtin.keyword? name.text = none) (spelled : name.text = qualify space short) :
    (build predefined builtin constants files).constantIn evaluator s name.fromTop =
      pure ⟨.text name.text, some (.literal name.text)⟩ := by
  have trimmed : trimLeft '\\' name.text = name.text :=
    spelled ▸ trimLeft_qualify space unclaimed.single unclaimed.bare
  have free : Assoc.get? (build predefined builtin constants files).constants name.text = none :=
    spelled ▸ build_free unclaimed.given unclaimed.beforehand
  have none : (build predefined builtin constants files).constantKey? name.text = none :=
    spelled ▸ unclaimed.constantKey?
  have near : (build predefined builtin constants files).localConstant evaluator s name.fromTop =
    pure Option.none := rfl
  have far : (build predefined builtin constants files).globalConstant evaluator name.text =
      pure Option.none := by
    simp only [globalConstant, trimmed, word, free, none]
  have text : name.fromTop.text = name.text := rfl
  simp only [constantIn, text, word, near, far, pure_bind]

theorem Unrivalled.constantIn_fromTop
    (constant : Unrivalled predefined constants files file space short)
    (spelled : name.text = qualify space short) {v : Value}
    (computed : (((build predefined builtin constants files).namespaceConstant evaluator
      (.of file space short)).run m).1 = .ok (some v)) :
    (((build predefined builtin constants files).constantIn evaluator s name.fromTop).run m).1 =
      .ok ⟨v, some (.resolved name.text)⟩ := by
  obtain ⟨statements, -, declared⟩ := constant.declared
  have trimmed := trimBoth_of_mem_fileSymbols declared
  have bare : (foldCase space).toList.head? ≠ some '\\' := trimmed ▸ head?_trimBoth '\\' _
  have own : ConstantKey.of file space short = ⟨file, foldCase space, short⟩ := by
    rw [ConstantKey.of, ← trimBoth_foldCase, trimmed]
  obtain ⟨k, here⟩ : ∃ k, (build predefined builtin constants files).namespaceLazy?
    ⟨file, foldCase space, short⟩ = some k := constant.exists_lazy
  simp only [own, namespaceConstant, here] at computed
  have full : name.fromTop.kind = .fullyQualified := rfl
  have whole : name.fromTop.text = qualify space short := spelled
  rw [constantIn_full here constant.word evaluator full whole rfl (spelled ▸ constant.free)
    constant.single bare fun _ => constant.sole]
  rw [Eval.run_map, Eval.run_orNone_ok computed]
  rfl

/-- A name with a namespace in it means the same as from the top, from every subject and at any
point of a session. It is never recorded with the surrounding namespace in front. Where one file
alone declares the constant of that full name, it is the value; where nothing has the name, the name
stands for itself. -/
theorem qualified_from_top (plain : SingleSegments files) {source : SubjectSource} {s : Subject}
    (subject : (build predefined builtin constants files).subjectOf source = .ok s)
    {written : Name} (spelled : written.text = qualify space short) (inner : space ≠ "")
    (m : Memory) (span span' : Span) :
    let r := build predefined builtin constants files
    let ask (name : Name) := r.answer (.eval source (.constant name span))
    (ask written).run m = (r.answer (.eval source (.constant written.fromTop span'))).run m ∧
      (∀ res, ((ask written).run m).1 = .ok (.resolution (some res)) →
        s.namespaceName ≠ "" →
          res.constant ≠ some (.resolved (qualify s.namespaceName written.text))) ∧
      (∀ v, Unrivalled predefined constants files file space short →
        ((r.namespaceConstant (r.force (r.depthBound s.class?)) (.of file space short)).run m).1 =
            .ok (some v) →
          ((ask written).run m).1 =
            .ok (.resolution (some ⟨v, some (.resolved written.text)⟩))) ∧
      (Unclaimed predefined constants files space short → (ask written).run m =
        (.ok (.resolution (some ⟨.text written.text, some (.literal written.text)⟩)), m)) := by
  intro r ask
  have deep : '\\' ∈ written.text.toList := spelled ▸ separator_mem_qualify inner short
  have word : Builtin.keyword? written.text = none := keyword?_of_separator deep
  -- a declared constant has a single segment, so no name with a namespace is one
  have top : r.constantIn (r.force (r.depthBound s.class?)) s written =
      r.constantIn (r.force (r.depthBound s.class?)) s written.fromTop :=
    constantIn_fromTop fun file _ => plain.absent deep
  have asks : ask written = (fun res => .resolution (some res)) <$>
      r.constantIn (r.force (r.depthBound s.class?)) s written.fromTop := by
    rw [← top]
    exact answer_eval_constant subject written span
  refine ⟨?_, ?_, ?_, ?_⟩
  · rw [asks, answer_eval_constant subject]
  · intro res done outer recorded
    rw [asks] at done
    obtain ⟨found, read, same⟩ := Eval.ok_of_map done
    cases same
    rcases constantIn_fromTop_records word read with resolved | literal
    · rw [resolved] at recorded
      exact qualify_ne_self outer written.text
        (ConstantName.resolved.inj (Option.some.inj recorded)).symm
    · rw [literal] at recorded
      cases recorded
  · intro v constant computed
    rw [asks]
    exact Eval.run_map_ok (constant.constantIn_fromTop spelled computed) _
  · intro unclaimed
    rw [asks, unclaimed.constantIn_eq word spelled]
    rfl

end Build

def libraryN : Name := { parts := ["Lib", "N"], kind := .qualified }

def declaringN (space : Name) (value : Int64) : Stmt :=
  .namespaceBlock (some space) [.const [⟨"N", .int value {}, {}⟩] {}] {}

def twoLibraries : List (String × List Stmt) :=
  [("/app/a.php", [declaringN { parts := ["App", "Lib"], kind := .qualified } 4,
    declaringN { parts := ["Lib"], kind := .unqualified } 5])]

theorem outer_library_from_top :
    let r := build false false [] twoLibraries
    let source : SubjectSource := .space (.of "/app/a.php" "App")
    let ask (name : Name) := r.answer (.eval source (.constant name {}))
    SingleSegments twoLibraries ∧ (ask libraryN).run {} = (ask libraryN.fromTop).run {} ∧
      ((ask libraryN).run {}).1 =
        .ok (.resolution (some ⟨.int 5, some (.resolved "Lib\\N")⟩)) := by
  intro r source ask
  have plain : SingleSegments twoLibraries := by
    intro file member space name declared
    obtain rfl := List.mem_singleton.mp member
    have names : ∀ symbol ∈ fileSymbols twoLibraries[0].2,
        symbol = .constant "app\\lib" "N" ∨ symbol = .constant "lib" "N" := by decide +kernel
    rcases names _ declared with same | same
    · cases same
      decide
    · cases same
      decide
  have subject : r.subjectOf source = .ok (.space (.of "/app/a.php" "App")) := rfl
  have text : libraryN.text = qualify "Lib" "N" := by decide +kernel
  have constant : Unrivalled false [] twoLibraries "/app/a.php" "Lib" "N" := by
    refine ⟨by decide, by cbv, ⟨_, List.mem_cons_self, by decide +kernel⟩, ?_, by decide, nofun⟩
    intro other member _
    rw [List.mem_singleton.mp member]
  have value : (((build false false [] twoLibraries).namespaceConstant
      ((build false false [] twoLibraries).force
        ((build false false [] twoLibraries).depthBound none))
      (.of "/app/a.php" "Lib" "N")).run {}).1 = .ok (some (.int 5)) := by cbv
  obtain ⟨same, -, found, -⟩ := qualified_from_top plain subject text (by decide) {} {} {}
  refine ⟨plain, same, ?_⟩
  have spelled : libraryN.text = "Lib\\N" := by decide +kernel
  rw [found _ constant value, spelled]

def innerLibrary : List (String × List Stmt) :=
  [("/app/a.php", [declaringN { parts := ["App", "Lib"], kind := .qualified } 4])]

theorem inner_library_missed :
    let r := build false false [] innerLibrary
    (∃ statements, ("/app/a.php", statements) ∈ innerLibrary ∧
        .constant (foldCase (qualify "App" "Lib")) "N" ∈ fileSymbols statements) ∧
      (r.step {} (.namespaceConstant "/app/a.php" (qualify "App" "Lib") "N")).1.result =
        .ok (.value (some (.int 4))) ∧
      Name.parse "Lib\\N" = libraryN ∧ libraryN.isFullyQualified = false ∧
      (r.step {} (.eval (.space (.of "/app/a.php" "App")) (.constant libraryN {}))).1.result =
        .ok (.resolution (some ⟨.text "Lib\\N", some (.literal "Lib\\N")⟩)) := by
  intro r
  have declared : .constant (foldCase (qualify "App" "Lib")) "N" ∈
      fileSymbols [declaringN { parts := ["App", "Lib"], kind := .qualified } 4] := by
    decide +kernel
  have value : ((build false false [] innerLibrary).step {}
      (.namespaceConstant "/app/a.php" (qualify "App" "Lib") "N")).1.result =
        .ok (.value (some (.int 4))) := by cbv
  have written : Name.parse "Lib\\N" = libraryN := by decide +kernel
  have missed : ((build false false [] innerLibrary).step {}
      (.eval (.space (.of "/app/a.php" "App")) (.constant libraryN {}))).1.result =
        .ok (.resolution (some ⟨.text "Lib\\N", some (.literal "Lib\\N")⟩)) := by cbv
  exact ⟨⟨_, List.mem_cons_self, declared⟩, value, written, rfl, missed⟩

end Registry

end ConstExpr
