import ConstExpr.Proofs.ConstantNames
import ConstExpr.Proofs.Contract
import ConstExpr.Proofs.History
import ConstExpr.Proofs.Listing
import ConstExpr.Proofs.SelfReference
import ConstExpr.Proofs.Termination

/-!
Constants of namespaces that mean each other in a circle. If each one means the next by its short
name, asking for one is reported as a self-reference. A full name passes the report over: then the
constant gets a value, the text of such a name.
-/

namespace ConstExpr

namespace Registry

variable {r : Registry} {asked : Option Class}

section Build

def Trimmed (r : Registry) : Prop :=
  ∀ key initializer, (key, initializer) ∈ r.namespaceConstants →
    key.space = foldCase (trimBoth '\\' initializer.space)

theorem Trimmed.enter (trimmed : r.Trimmed) (file space : String) (s : Stmt) :
    (r.enter file space s).Trimmed := by
  cases s with
  | const items span =>
    have entered : ∀ m : Assoc ConstantKey Initializer,
        (∀ entry ∈ m, entry.1.space = foldCase (trimBoth '\\' entry.2.space)) →
        ∀ entry ∈ items.foldl (fun m item =>
          Assoc.put m (.of file space item.name) ⟨space, item.value⟩) m,
          entry.1.space = foldCase (trimBoth '\\' entry.2.space) := by
      induction items with
      | nil => exact fun m held => held
      | cons item rest ih =>
        intro m held
        apply ih
        intro entry member
        rcases Assoc.mem_put member with old | rfl
        · exact held entry old
        · rfl
    intro key initializer member
    exact entered _ (fun entry old => trimmed entry.1 entry.2 old) (key, initializer) member
  | _ => exact trimmed

theorem build_trimmed (predefined builtin : Bool) (constants : List (String × Value))
    (files : List (String × List Stmt)) : (build predefined builtin constants files).Trimmed := by
  apply build_invariant (P := Trimmed)
  · exact fun _ _ held => held
  · intro key initializer no
    cases no
  · exact fun _ space file _ s _ held => held.enter file.1 space s

end Build

/-- How the initializer of a constant means another one: by its short name where both stand in the
same namespace of one file, or by its full name where no constant with a value is in the way. -/
inductive Means (r : Registry) (key : ConstantKey) (name : Name) (next : ConstantKey) : Prop
  | short (kind : name.kind = .unqualified) (text : name.text = next.name)
      (file : next.file = key.file) (space : next.space = key.space)
  | full (space : String) (kind : name.kind = .fullyQualified)
      (text : name.text = qualify space next.name) (same : foldCase space = next.space)
      (free : Assoc.get? r.constants name.text = none)

/-- Constants that mean each other in a circle. None is a keyword or has separators in its name, and
each one is declared in one file only. -/
structure Circle (r : Registry) (n : Nat) (c : Nat → ConstantKey) (name : Nat → Name) : Prop where
  positive : 0 < n
  closed : c n = c 0
  declared : ∀ i < n, ∃ space span,
    Assoc.get? r.namespaceConstants (c i) = some ⟨space, .constant (name i) span⟩
  means : ∀ i < n, r.Means (c i) (name i) (c (i + 1))
  single : ∀ i < n, '\\' ∉ (c i).name.toList
  word : ∀ i < n, Builtin.keyword? (c i).name = none
  sole : ∀ i < n, ∀ key ∈ Assoc.keys r.namespaceConstants,
    key.space = (c i).space → key.name = (c i).name → key = c i

section Lookup

variable {name : Name} {span : Span} {next : ConstantKey} {k : LazyConstant}
  (here : r.namespaceLazy? next = some k) (word : Builtin.keyword? next.name = none)
  (evaluator : Evaluator)

include here word

theorem valueOf_short {file space : String} (kind : name.kind = .unqualified)
    (text : name.text = next.name) (place : next.file = file)
    (around : next.space = foldCase (trimBoth '\\' space)) :
    r.valueOf evaluator (.space (.of file space)) (.constant name span) = evaluator k := by
  have near := constantIn_short here word evaluator (s := .space (.of file space)) kind text
    (congrArg some place.symm)
    ((congrArg foldCase (trimBoth_trimBoth '\\' space)).trans around.symm)
  show Resolution.value <$> r.constantIn evaluator _ name = _
  rw [near]
  simp

theorem valueOf_full {space : String} (kind : name.kind = .fullyQualified)
    (text : name.text = qualify space next.name) (same : foldCase space = next.space)
    (free : Assoc.get? r.constants name.text = none) (single : '\\' ∉ next.name.toList)
    (bare : next.space.toList.head? ≠ some '\\')
    (sole : ∀ key ∈ Assoc.keys r.namespaceConstants,
      key.space = next.space → key.name = next.name → key = next) (s : Subject) :
    r.valueOf evaluator s (.constant name span) =
      (fun o => o.getD (.text name.text)) <$> Eval.orNone (some <$> evaluator k) := by
  show Resolution.value <$> r.constantIn evaluator _ name = _
  rw [constantIn_full here word evaluator kind text same free single bare sole, Functor.map_map]
  refine congrArg (· <$> Eval.orNone (some <$> evaluator k)) (funext fun found => ?_)
  cases found <;> rfl

end Lookup

theorem ensures_getD {t : Contract} {x : Eval Value} {good : Value → Prop} {v : Value}
    (here : t.Ensures x good) (absent : good v) :
    t.Ensures ((fun o => o.getD v) <$> Eval.orNone (some <$> x)) good := by
  have found : t.Ensures (some <$> x) fun o => ∀ w ∈ o, good w :=
    here.map fun w fine => by simpa using fine
  refine (found.orNone (by simp)).map fun o fine => ?_
  cases o with
  | none => exact absent
  | some w => exact fine w rfl

def Told (n : Nat) (name : Nat → Name) (v : Value) : Prop :=
  ∃ i < n, (name i).isFullyQualified = true ∧ v = .text (name i).text

def circling (n : Nat) (c : Nat → ConstantKey) (name : Nat → Name) (allowed : Failure → Prop) :
    Contract where
  keeps m := ∀ i < n, ∀ v, Assoc.get? m.values (.namespaceConstant (c i)) = some v → Told n name v
  allows := allowed
  noted _ _ kept := kept

theorem circling_finish {n : Nat} {c : Nat → ConstantKey} {name : Nat → Name}
    {allowed : Failure → Prop} {m : Memory} (kept : (circling n c name allowed).keeps m)
    {slot : Slot} {result : Except Halt Value}
    (fine : ∀ v, result = .ok v → ∀ i < n, slot = .namespaceConstant (c i) → Told n name v) :
    (circling n c name allowed).keeps (m.finish slot result) := by
  cases result with
  | error h => exact kept
  | ok v =>
    intro i inside w known
    by_cases same : slot = .namespaceConstant (c i)
    · rw [← same, Memory.finish, Assoc.get?_put_self] at known
      exact Option.some.inj known ▸ fine v rfl i inside same
    · rw [Memory.finish, Assoc.get?_put_of_ne _ _ (Ne.symm same)] at known
      exact kept i inside w known

def honouring (r : Registry) (t : Contract) (lenient : ∀ f, t.allows f) : r.Simulation where
  Rel x _ := t.Ensures x fun _ => True
  ofPure _ := Contract.ensures_pure trivial
  ofBind here later := here.bind fun a _ => later a
  ofFail f := Contract.ensures_fail (lenient f)
  ofLogged _ := Contract.ensures_logged trivial
  ofOrNone _ here := here.orNone trivial

theorem slot_of_lazy {key : ConstantKey} {k : LazyConstant} (here : r.namespaceLazy? key = some k) :
    k.slot = .namespaceConstant key := by
  obtain ⟨initializer, -, rfl⟩ := Option.map_eq_some_iff.mp here
  rfl

theorem lazy_of_slot {k : LazyConstant} (declared : r.Declares asked k) {key : ConstantKey}
    (slot : k.slot = .namespaceConstant key) : r.namespaceLazy? key = some k := by
  cases declared with
  | space found =>
    rw [slot_of_lazy found] at slot
    rw [← Slot.namespaceConstant.inj slot, found]
  | cls known found =>
    obtain ⟨home, -, own⟩ := lazyConstant?_eq found
    rw [own] at slot
    cases slot

namespace Circle

variable {n : Nat} {c : Nat → ConstantKey} {name : Nat → Name} (circle : r.Circle n c name)

include circle

theorem exists_next {i : Nat} (inside : i < n) : ∃ j < n, c (i + 1) = c j := by
  by_cases last : i + 1 = n
  · exact ⟨0, circle.positive, by rw [last, circle.closed]⟩
  · exact ⟨i + 1, by omega, rfl⟩

theorem exists_lazy {i : Nat} (inside : i < n) : ∃ k, r.namespaceLazy? (c i) = some k := by
  obtain ⟨space, span, found⟩ := circle.declared i inside
  exact ⟨_, Option.map_eq_some_iff.mpr ⟨_, found, rfl⟩⟩

theorem initializer (trimmed : r.Trimmed) {i : Nat} (inside : i < n) {k : LazyConstant}
    (here : r.namespaceLazy? (c i) = some k) :
    ∃ j < n, c (i + 1) = c j ∧ ∃ next, r.namespaceLazy? (c j) = some next ∧
      ((name i).isFullyQualified = false ∧
          (∀ evaluator, r.valueOf evaluator k.subject k.initializer = evaluator next) ∨
        (name i).isFullyQualified = true ∧
          ∀ evaluator, r.valueOf evaluator k.subject k.initializer =
            (fun o => o.getD (.text (name i).text)) <$> Eval.orNone (some <$> evaluator next)) := by
  obtain ⟨j, below, same⟩ := circle.exists_next inside
  obtain ⟨next, there⟩ := circle.exists_lazy below
  obtain ⟨space, span, found⟩ := circle.declared i inside
  obtain ⟨initializer, inside', rfl⟩ := Option.map_eq_some_iff.mp here
  obtain rfl : initializer = ⟨space, .constant (name i) span⟩ :=
    Option.some.inj (inside'.symm.trans found)
  refine ⟨j, below, same, next, there, ?_⟩
  have means := circle.means i inside
  rw [same] at means
  cases means with
  | short kind text file around =>
    refine .inl ⟨by simp [Name.isFullyQualified, kind], fun evaluator => ?_⟩
    have own := trimmed _ _ (Assoc.mem_of_get? found)
    exact valueOf_short there (circle.word j below) evaluator kind text file (around.trans own)
  | full space kind text around free =>
    refine .inr ⟨by simp [Name.isFullyQualified, kind], fun evaluator => ?_⟩
    obtain ⟨spelled, _, found'⟩ := circle.declared j below
    have bare : (c j).space.toList.head? ≠ some '\\' := by
      rw [trimmed _ _ (Assoc.mem_of_get? found')]
      exact fun first => head?_trimBoth '\\' spelled (head?_foldCase.mp first)
    exact valueOf_full there (circle.word j below) evaluator kind text around free
      (circle.single j below) bare (circle.sole j below) _

/-- A constant in the circle gets no value but one that is told, and fails only for meaning itself;
no other constant can change that. -/
theorem forced (trimmed : r.Trimmed) (asked : Option Class) (fuel : Nat) :
    (∀ i < n, ∀ k, r.namespaceLazy? (c i) = some k →
      (circling n c name fun f => f.isSelfReference = true).Ensures (r.force fuel k)
        (Told n name)) ∧
    ∀ k, r.Declares asked k →
      (circling n c name fun _ => True).Ensures (r.force fuel k) fun _ => True := by
  induction fuel with
  | zero => exact ⟨fun _ _ _ _ => Contract.ensures_outOfFuel, fun _ _ => Contract.ensures_outOfFuel⟩
  | succ fuel ih =>
    obtain ⟨around, others⟩ := ih
    have inner : ∀ i < n, ∀ k, r.namespaceLazy? (c i) = some k →
        (circling n c name fun f => f.isSelfReference = true).Ensures (r.force (fuel + 1) k)
          (Told n name) := by
      intro i inside k here
      have declared : r.Declares none k := .space here
      refine Contract.ensures_memoize
        (fun m v kept known => kept i inside v (slot_of_lazy here ▸ known))
        declared.cycle (fun m kept => kept)
        (fun m result kept fine => circling_finish kept fun v done _ _ _ => fine v done) ?_
      -- a short name passes on what the next constant comes to, a full one replaces its failure
      obtain ⟨j, below, -, next, there, ⟨-, same⟩ | ⟨full, same⟩⟩ :=
        circle.initializer trimmed inside here
      · rw [same]
        exact around j below next there
      · rw [same]
        exact ensures_getD (around j below next there) ⟨i, inside, full, rfl⟩
    refine ⟨inner, fun k declared => ?_⟩
    by_cases among : ∃ i < n, k.slot = .namespaceConstant (c i)
    · obtain ⟨i, inside, slot⟩ := among
      have strict := inner i inside k (lazy_of_slot declared slot)
      exact fun m kept => ⟨(strict m kept).1, fun _ _ => trivial, fun _ _ => trivial⟩
    · refine Contract.ensures_memoize (fun _ _ _ _ => trivial) trivial (fun m kept => kept) ?_ ?_
      · intro m result kept _
        exact circling_finish kept fun v _ i inside slot => absurd ⟨i, inside, slot⟩ among
      · let sim := r.honouring (circling n c name fun _ => True) fun _ => trivial
        have related : ∀ k, r.Declares asked k → sim.Rel (r.force fuel k) (r.force fuel k) := others
        exact sim.valueOf related declared.places k.initializer

theorem after_told (trimmed : r.Trimmed) (history : List Query) :
    (circling n c name fun _ => True).keeps (r.after history) := by
  apply after_invariant (P := (circling n c name fun _ => True).keeps)
  · intro i _ v known
    cases known
  · intro m q kept
    let sim := r.honouring (circling n c name fun _ => True) fun _ => trivial
    have related : ∀ k, r.Declares (r.classAsked q) k →
        sim.Rel (r.force (r.depthBound (r.classAsked q)) k)
          (r.force (r.depthBound (r.classAsked q)) k) :=
      (circle.forced trimmed (r.classAsked q) _).2
    have answered := sim.reply q related m kept
    intro i inside v known
    have stays := Assoc.get?_filter ((r.answer q).run m).2.values (fun slot => !slot.isDetached)
      (.namespaceConstant (c i))
    exact answered.1 i inside v (stays.symm.trans known)

theorem name_congr {i j : Nat} (one : i < n) (other : j < n) (same : c i = c j) :
    name i = name j := by
  obtain ⟨space, span, found⟩ := circle.declared i one
  obtain ⟨space', span', found'⟩ := circle.declared j other
  rw [same, found'] at found
  obtain ⟨-, names, -⟩ : space' = space ∧ name j = name i ∧ span' = span := by simpa using found
  exact names.symm

theorem distinct {j : Nat} (last : j < n) (full : (name j).isFullyQualified = true)
    (first : ∀ i < j, (name i).isFullyQualified = false) {a b : Nat} (before : a < b)
    (bound : b ≤ j) : c a ≠ c b := by
  have fields : ∀ {x y : ConstantKey}, x.file = y.file → x.space = y.space → x.name = y.name →
      x = y := by
    rintro ⟨⟩ ⟨⟩ rfl rfl rfl
    rfl
  intro same
  -- two constants that are the same mean the same, so the first full name would come earlier
  have shifted : ∀ t, b + t ≤ j → c (a + t) = c (b + t) := by
    intro t
    induction t with
    | zero => exact fun _ => same
    | succ t ih =>
      intro small
      have together := ih (by omega)
      have texts := circle.name_congr (by omega) (by omega) together
      have one := circle.means (a + t) (by omega)
      have other := circle.means (b + t) (by omega)
      rw [together, texts] at one
      have unqualified := first (b + t) (by omega)
      rcases one with ⟨_, text, file, space⟩ | ⟨_, kind, -⟩
      · rcases other with ⟨_, text', file', space'⟩ | ⟨_, kind, -⟩
        · exact fields (file.trans file'.symm) (space.trans space'.symm) (text.symm.trans text')
        · simp [Name.isFullyQualified, kind] at unqualified
      · simp [Name.isFullyQualified, kind] at unqualified
  have early := shifted (j - b) (by omega)
  rw [show b + (j - b) = j by omega] at early
  have short := first (a + (j - b)) (by omega)
  rw [circle.name_congr (by omega) last early, full] at short
  cases short

theorem not_failed (trimmed : r.Trimmed) {j : Nat} (last : j < n)
    (full : (name j).isFullyQualified = true)
    (first : ∀ i < j, (name i).isFullyQualified = false) (fuel : Nat) {i : Nat} (bound : i ≤ j)
    {k : LazyConstant} (here : r.namespaceLazy? (c i) = some k) {m : Memory}
    (fresh : ∀ l, i ≤ l → l ≤ j → .namespaceConstant (c l) ∉ m.pending) (f : Failure) :
    ((r.force fuel k).run m).1 ≠ .error (.failed f) := by
  -- the induction goes along the circle; what is in progress lies behind the constant asked for
  induction fuel generalizing i k m with
  | zero =>
    intro failed
    cases failed
  | succ fuel ih =>
    have slot := slot_of_lazy here
    rw [force]
    cases known : Assoc.get? m.values k.slot with
    | some v =>
      rw [Eval.run_memoize_known known]
      intro failed
      cases failed
    | none =>
      have idle : k.slot ∉ m.pending := slot ▸ fresh i (le_refl i) bound
      rw [Eval.run_memoize_start known idle]
      obtain ⟨l, below, same, next, there, ⟨short, compute⟩ | ⟨-, compute⟩⟩ :=
        circle.initializer trimmed (bound.trans_lt last) here
      · rw [compute]
        have further : i < j := by
          rcases Nat.lt_or_eq_of_le bound with less | rfl
          · exact less
          · rw [full] at short
            cases short
        apply ih further (same ▸ there)
        intro l above upto
        rw [Memory.start_pending, slot, List.mem_cons, not_or]
        constructor
        · intro repeated
          have same : c i = c l := (Slot.namespaceConstant.inj repeated).symm
          exact circle.distinct last full first above upto same
        · exact fresh l (by omega) upto
      · rw [compute]
        intro failed
        rw [Eval.map_eq_bind] at failed
        rcases result : ((some <$> r.force fuel next).run (m.start k.slot)).1 with (g | _) | o
        · rw [Eval.run_bind_ok (by rw [Eval.run_orNone_failed result])] at failed
          cases failed
        · rw [Eval.run_bind_error (by rw [Eval.run_orNone_outOfFuel result])] at failed
          cases failed
        · rw [Eval.run_bind_ok (by rw [Eval.run_orNone_ok result])] at failed
          cases failed

end Circle

/-- A constant that means itself in a circle, asked for at any point of a session. If each constant
of the circle means the next by its short name, the answer is the report; if one means the next by
its full name, the answer is the text of such a name, and nothing is reported. -/
theorem circle_answers (predefined builtin : Bool) (constants : List (String × Value))
    (files : List (String × List Stmt)) {n : Nat} {c : Nat → ConstantKey} {name : Nat → Name}
    (circle : (build predefined builtin constants files).Circle n c name) (history : List Query)
    {file space short : String} (asks : ConstantKey.of file space short = c 0) :
    let r := build predefined builtin constants files
    let result := (r.step (r.after history) (.namespaceConstant file space short)).1.result
    ((∀ i < n, (name i).isFullyQualified = false) →
      ∃ text, result = .error (.failed (.selfReferencingConstant text))) ∧
    ((∃ i < n, (name i).isFullyQualified = true) →
      ∃ i < n, (name i).isFullyQualified = true ∧
        result = .ok (.value (some (.text (name i).text)))) := by
  intro r result
  have coherent : r.Coherent := build_coherent predefined builtin constants files
  have trimmed : r.Trimmed := build_trimmed predefined builtin constants files
  obtain ⟨k, here⟩ : ∃ k, r.namespaceLazy? (c 0) = some k := circle.exists_lazy circle.positive
  have computed : r.answer (.namespaceConstant file space short) =
      Answer.value <$> some <$> r.force (r.depthBound none) k := by
    simp only [answer, reply, classAsked, asks, namespaceConstant, here]
  have run : result = ((Answer.value <$> some <$> r.force (r.depthBound none) k).run
      (r.after history)).1 := by
    rw [← computed]
    rfl
  have told := (circle.forced trimmed none (r.depthBound none)).1 0 circle.positive k here
    (r.after history) (circle.after_told trimmed history)
  rcases done : ((r.force (r.depthBound none) k).run (r.after history)).1 with (f | _) | v
  · have failed : result = .error (.failed f) := by
      rw [run, Eval.map_eq_bind, Eval.run_bind_error]
      rw [Eval.map_eq_bind, Eval.run_bind_error done]
    constructor
    · intro _
      have self := told.2.2 f done
      cases f with
      | selfReferencingConstant text => exact ⟨text, failed⟩
      | _ => cases self
    · intro full
      obtain ⟨last, qualified⟩ := Nat.find_spec full
      have earlier : ∀ i < Nat.find full, (name i).isFullyQualified = false := by
        intro i less
        apply Bool.eq_false_iff.mpr
        exact fun also => Nat.find_min full less ⟨less.trans last, also⟩
      have idle := (session_idle coherent history).1
      have going := circle.not_failed trimmed last qualified earlier (r.depthBound none)
        (Nat.zero_le _) here (fun l _ _ => by rw [idle]; exact List.not_mem_nil) f
      exact absurd done going
  · have halts :=
      (answer_halts coherent (.namespaceConstant file space short) (r.after history) 0).1
    have stuck : result = .error .outOfFuel := by
      rw [run, Eval.map_eq_bind, Eval.run_bind_error]
      rw [Eval.map_eq_bind, Eval.run_bind_error done]
    exact absurd stuck halts
  · have answered : result = .ok (.value (some v)) := by
      rw [run, Eval.run_map_ok (Eval.run_map_ok done some)]
    obtain ⟨i, inside, full, rfl⟩ := told.2.1 v done
    constructor
    · intro short
      rw [short i inside] at full
      cases full
    · intro _
      exact ⟨i, inside, full, answered⟩

def paired : List (String × List Stmt) :=
  [("/app/a.php", [.const [⟨"A", mention "B", {}⟩, ⟨"B", mention "A", {}⟩] {}])]

def inPair (i : Nat) : ConstantKey := ⟨"/app/a.php", "", if i % 2 = 0 then "A" else "B"⟩

theorem paired_reported :
    let r := build false false [] paired
    let name (i : Nat) : Name := .parse (if i % 2 = 0 then "B" else "A")
    r.Circle 2 inPair name ∧ ConstantKey.of "/app/a.php" "" "A" = inPair 0 ∧
      ∃ text, (r.step (r.after [askFor "B"]) (askFor "A")).1.result =
        .error (.failed (.selfReferencingConstant text)) := by
  intro r name
  have both : ∀ {P : Nat → Prop}, P 0 → P 1 → ∀ i < 2, P i := by
    intro P zero one i small
    obtain rfl | rfl : i = 0 ∨ i = 1 := by omega
    · exact zero
    · exact one
  have keys : Assoc.keys (build false false [] paired).namespaceConstants =
      [inPair 0, inPair 1] := by cbv
  have first : Assoc.get? (build false false [] paired).namespaceConstants (inPair 0) =
      some ⟨"", mention "B"⟩ := by cbv
  have second : Assoc.get? (build false false [] paired).namespaceConstants (inPair 1) =
      some ⟨"", mention "A"⟩ := by cbv
  have either : ∀ key ∈ Assoc.keys r.namespaceConstants, key = inPair 0 ∨ key = inPair 1 := by
    intro key member
    have member : key ∈ [inPair 0, inPair 1] := keys ▸ member
    simpa using member
  have circle : r.Circle 2 inPair name := by
    refine ⟨by decide, by decide, ?_, ?_, ?_, ?_, ?_⟩
    · exact both ⟨"", {}, first⟩ ⟨"", {}, second⟩
    · exact both (.short rfl rfl rfl rfl) (.short rfl rfl rfl rfl)
    · exact both (by decide) (by decide)
    · exact both (by cbv) (by cbv)
    · apply both
      · intro key member _ same
        obtain rfl | rfl := either key member
        · rfl
        · exact absurd same (by decide)
      · intro key member _ same
        obtain rfl | rfl := either key member
        · exact absurd same (by decide)
        · rfl
  have asks : ConstantKey.of "/app/a.php" "" "A" = inPair 0 := by cbv
  refine ⟨circle, asks, ?_⟩
  exact (circle_answers false false [] paired circle [askFor "B"] asks).1
    (both (by decide) (by decide))

def qualifiedSelf : List (String × List Stmt) :=
  [("/app/a.php", [.const [⟨"A", mention "\\A", {}⟩] {}])]

theorem qualifiedSelf_unreported :
    let r := build false false [] qualifiedSelf
    let key : ConstantKey := ⟨"/app/a.php", "", "A"⟩
    r.Circle 1 (fun _ => key) (fun _ => .parse "\\A") ∧
      ConstantKey.of "/app/a.php" "" "A" = key ∧
      (r.step {} (askFor "A")).1.result = .ok (.value (some (.text "A"))) ∧
      ∀ text, (r.step {} (askFor "A")).1.result ≠
        .error (.failed (.selfReferencingConstant text)) := by
  intro r key
  have keys : Assoc.keys (build false false [] qualifiedSelf).namespaceConstants =
      [⟨"/app/a.php", "", "A"⟩] := by cbv
  have found : Assoc.get? (build false false [] qualifiedSelf).namespaceConstants
      ⟨"/app/a.php", "", "A"⟩ = some ⟨"", mention "\\A"⟩ := by cbv
  have circle : r.Circle 1 (fun _ => key) (fun _ => .parse "\\A") := by
    refine ⟨by decide, rfl, ?_, ?_, ?_, ?_, ?_⟩
    · exact fun _ _ => ⟨"", {}, found⟩
    · exact fun _ _ => .full "" rfl rfl (by cbv) (by cbv)
    · exact fun _ _ => by decide
    · exact fun _ _ => by cbv
    · intro _ _ other member _ _
      have member : other ∈ [key] := keys ▸ member
      simpa using member
  have value : ((build false false [] qualifiedSelf).step {} (askFor "A")).1.result =
      .ok (.value (some (.text "A"))) := by cbv
  refine ⟨circle, by cbv, value, fun text reported => ?_⟩
  cases value.symm.trans reported

end Registry

end ConstExpr
