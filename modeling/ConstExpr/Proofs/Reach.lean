import ConstExpr.Proofs.Coherence
import ConstExpr.Session.Run
import Mathlib.Data.List.Perm.Subperm

/-!
What evaluation can come across. A query is asked about at most one class; from there names lead
only to classes of the registry, so the constants that can be needed and the names that a chain of
ancestors can show are known beforehand.
-/

namespace ConstExpr

def Class.home? (c : Class) : Option Home :=
  match c.origin with
  | .declared _ _ home => some home
  | .internal .. => none

def SubjectSource.class? : SubjectSource → Option ClassSource
  | .cls c | .method c _ | .anyMethod c _ => some c
  | _ => none

namespace Registry

variable {r : Registry} {asked : Option Class}

/-- The classes that evaluation comes across: the one asked about, and those that names find. -/
def Knows (r : Registry) (asked : Option Class) (c : Class) : Prop :=
  asked = some c ∨ (∃ name, r.find name = .ok c) ∨ ∃ name, r.internal? name = some c

def Places (r : Registry) (asked : Option Class) (s : Subject) : Prop :=
  ∀ c, s.class? = some c → r.Knows asked c

theorem places_cls {c : Class} (known : r.Knows asked c) : r.Places asked (.cls c) := by
  intro c' inside
  obtain rfl : c = c' := by simpa [Subject.class?] using inside
  exact known

/-- The constants with an initializer that evaluation comes across. -/
inductive Declares (r : Registry) (asked : Option Class) : LazyConstant → Prop
  | space {key : ConstantKey} {k : LazyConstant} (found : r.namespaceLazy? key = some k) :
      Declares r asked k
  | cls {c : Class} {name : String} {k : LazyConstant} (known : r.Knows asked c)
      (found : c.lazyConstant? name = some k) : Declares r asked k

theorem knows_of_findLoaded {name : String} {c : Class} (found : r.findLoaded name = .ok c) :
    r.Knows asked c := by
  unfold findLoaded at found
  split at found
  next builtin inside => exact .inr (.inr ⟨name, by rw [inside, Except.ok.inj found]⟩)
  next => exact .inr (.inl ⟨name, found⟩)

theorem knows_of_parent {c p : Class} (found : r.parent c = .ok (some p)) : r.Knows asked p := by
  unfold parent at found
  split at found
  next name _ =>
    cases loaded : r.findLoaded name with
    | error f => simp [loaded] at found
    | ok q =>
      obtain rfl : q = p := by simpa [loaded] using found
      exact knows_of_findLoaded loaded
  next => simp at found

theorem knows_of_mem_parent {c p : Class} {parent : Option Class} (found : r.parent c = .ok parent)
    (member : p ∈ parent.toList) : r.Knows asked p := by
  obtain rfl : parent = some p := by simpa using member
  exact knows_of_parent found

theorem mapM_found {α β : Type} {f : α → Except Failure β} {members : List α} {found : List β}
    (all : members.mapM f = .ok found) {b : β} (member : b ∈ found) : ∃ a, f a = .ok b := by
  induction members generalizing found with
  | nil =>
    cases all
    simp at member
  | cons a rest ih =>
    rw [List.mapM_cons] at all
    cases first : f a with
    | error failure => simp [first, bind, Except.bind] at all
    | ok b' =>
      cases later : rest.mapM f with
      | error failure => simp [first, later, bind, Except.bind] at all
      | ok others =>
        simp only [first, later, bind, Except.bind, pure, Except.pure, Except.ok.injEq] at all
        subst all
        rcases List.mem_cons.mp member with here | there
        · exact ⟨a, by rw [here, first]⟩
        · exact ih later there

theorem findAll_found {find : String → Except Failure Class} {names : List String}
    {classes : Assoc String Class} (found : findAll find names = .ok classes)
    {entry : String × Class} (member : entry ∈ classes) : ∃ name, find name = .ok entry.2 := by
  unfold findAll at found
  generalize looking : (fun name => (return (name, ← find name) : Except Failure _)) = look at found
  cases all : names.mapM look with
  | error f => simp [all, bind, Except.bind] at found
  | ok pairs =>
    simp only [all, bind, Except.bind, pure, Except.pure, Except.ok.injEq] at found
    subst found
    rcases Assoc.mem_putAll member with none | given
    · simp at none
    · obtain ⟨name, here⟩ := mapM_found all given
      refine ⟨name, ?_⟩
      rw [← looking] at here
      cases seen : find name with
      | error f => simp [seen, bind, Except.bind] at here
      | ok c =>
        simp only [seen, bind, Except.bind, pure, Except.pure, Except.ok.injEq] at here
        rw [← here]

theorem knows_of_interfaces {c : Class} {interfaces : Assoc String Class}
    (found : r.interfaces c = .ok interfaces) {i : Class}
    (member : i ∈ interfaces.map Prod.snd) : r.Knows asked i := by
  obtain ⟨entry, inside, rfl⟩ := List.mem_map.mp member
  unfold Registry.interfaces at found
  split at found
  next =>
    obtain ⟨name, here⟩ := findAll_found found inside
    exact .inr (.inl ⟨name, here⟩)
  next =>
    obtain ⟨name, here⟩ := findAll_found found inside
    exact knows_of_findLoaded here

theorem knows_of_resolve {s : Subject} (placed : r.Places asked s) {name : Name} {c : Class}
    (found : r.resolve s name = .ok c) : r.Knows asked c := by
  unfold resolve at found
  split at found
  · exact knows_of_findLoaded found
  · split at found
    · split at found
      next inside => exact placed c (by rw [inside, Except.ok.inj found])
      next => cases found
    · split at found
      next inside => exact placed c (by rw [inside, Except.ok.inj found])
      next => cases found
    · split at found
      next => cases found
      next here _ =>
        cases above : r.parent here with
        | error f => simp [above, bind, Except.bind] at found
        | ok p =>
          cases p with
          | none => simp [above, bind, Except.bind] at found
          | some p =>
            obtain rfl : p = c := by
              simpa [above, bind, Except.bind, pure, Except.pure] using found
            exact knows_of_parent above
    · exact .inr (.inl ⟨_, found⟩)

theorem Declares.places {k : LazyConstant} (declared : r.Declares asked k) :
    r.Places asked k.subject := by
  intro c inside
  cases declared with
  | space found =>
    obtain ⟨initializer, -, rfl⟩ := Option.map_eq_some_iff.mp found
    simp [Subject.class?] at inside
  | @cls owner name _ known found =>
    unfold Class.lazyConstant? at found
    split at found
    next => cases found
    next =>
      obtain ⟨item, -, rfl⟩ := Option.map_eq_some_iff.mp found
      obtain rfl : owner = c := by simpa [Subject.class?] using inside
      exact known

/-- The names, in small letters, that a chain of ancestors can show. -/
def lineage (r : Registry) (asked : Option Class) : List String :=
  (asked.toList.map fun c => foldCase c.name) ++
    (r.classes.map fun (_, entry) => symbolKey entry.name) ++
    r.internals.map fun (_, c) => foldCase c.name

theorem length_lineage (r : Registry) (asked : Option Class) :
    (r.lineage asked).length < r.hierarchyBound := by
  have one : asked.toList.length ≤ 1 := by cases asked <;> simp
  simp only [lineage, hierarchyBound, List.length_append, List.length_map]
  omega

def kept (p : String × Declaration ClassDecl) : Class :=
  .declared p.2.name p.2.decl (some p.2.file) (.registered p.1)

theorem find_eq {name : String} {c : Class} (found : r.find name = .ok c) :
    (∃ entry, Assoc.get? r.classes (symbolKey name) = some entry ∧
      c = kept (symbolKey name, entry)) ∨ r.internal? name = some c := by
  unfold find at found
  split at found
  next entry here => exact .inl ⟨entry, here, (Except.ok.inj found).symm⟩
  next =>
    split at found
    next builtin here => exact .inr (by rw [here, Except.ok.inj found])
    next => cases found

theorem Knows.mem_lineage {c : Class} (known : r.Knows asked c) :
    foldCase c.name ∈ r.lineage asked := by
  have builtin : ∀ {name}, r.internal? name = some c → foldCase c.name ∈ r.lineage asked := by
    intro name inside
    exact List.mem_append_right _ (List.mem_map.mpr ⟨_, Assoc.mem_of_get? inside, rfl⟩)
  rcases known with rfl | ⟨name, found⟩ | ⟨name, inside⟩
  · simp [lineage]
  · rcases find_eq found with ⟨entry, here, rfl⟩ | inside
    · refine List.mem_append_left _ (List.mem_append_right _ ?_)
      exact List.mem_map.mpr ⟨_, Assoc.mem_of_get? here, rfl⟩
    · exact builtin inside
  · exact builtin inside

theorem length_path_lt {path : List String} (distinct : path.Nodup)
    (shown : path ⊆ r.lineage asked) : path.length < r.hierarchyBound :=
  Nat.lt_of_le_of_lt (List.subperm_of_subset distinct shown).length_le (r.length_lineage asked)

def lazyConstants (r : Registry) (asked : Option Class) : List LazyConstant :=
  r.namespaceConstants.filterMap (fun p => r.namespaceLazy? p.1) ++
    r.classes.flatMap (fun p => p.2.decl.constants.filterMap fun item =>
      (kept p).lazyConstant? item.name) ++
    asked.toList.flatMap fun c => c.ownConstantNames.filterMap c.lazyConstant?

theorem length_lazyConstants (r : Registry) (asked : Option Class) :
    (r.lazyConstants asked).length < r.depthBound asked := by
  -- the three parts of the list, each bounded by its part of the bound
  have spaces : (r.namespaceConstants.filterMap fun p => r.namespaceLazy? p.1).length ≤
      r.namespaceConstants.length := List.length_filterMap_le _ _
  have own : (asked.toList.flatMap fun c => c.ownConstantNames.filterMap c.lazyConstant?).length ≤
      (asked.map fun c => c.ownConstantNames.length).getD 0 := by
    cases asked with
    | none => simp
    | some c => simpa using List.length_filterMap_le c.lazyConstant? c.ownConstantNames
  have classes : ∀ entries : Assoc String (Declaration ClassDecl),
      (entries.flatMap fun p => p.2.decl.constants.filterMap fun item =>
        (kept p).lazyConstant? item.name).length ≤
      (entries.flatMap fun p => p.2.decl.constants).length := by
    intro entries
    induction entries with
    | nil => simp
    | cons first rest ih =>
      simp only [List.flatMap_cons, List.length_append]
      exact Nat.add_le_add (List.length_filterMap_le _ _) ih
  have declared := classes r.classes
  simp only [lazyConstants, depthBound, List.length_append]
  omega

theorem mem_ownConstantNames {c : Class} {name : String} {k : LazyConstant}
    (found : c.lazyConstant? name = some k) : name ∈ c.ownConstantNames := by
  unfold Class.lazyConstant? at found
  unfold Class.ownConstantNames
  split at found
  next => cases found
  next decl file home origin =>
    obtain ⟨item, inside, -⟩ := Option.map_eq_some_iff.mp found
    simp only [origin, List.mem_map]
    exact ⟨item, List.mem_of_find?_eq_some inside, by simpa using List.find?_some inside⟩

theorem Declares.mem_lazyConstants (coherent : r.Coherent) {k : LazyConstant}
    (declared : r.Declares asked k) : k ∈ r.lazyConstants asked := by
  have builtin : ∀ {c name cname}, r.internal? cname = some c → c.lazyConstant? name ≠ some k := by
    intro c name cname inside found
    have plain := coherent.internalOrigin _ _ (Assoc.mem_of_get? inside)
    unfold Class.lazyConstant? at found
    unfold Class.decl? at plain
    split at found
    next => cases found
    next origin => simp [origin] at plain
  cases declared with
  | @space key _ found =>
    obtain ⟨initializer, inside, -⟩ := Option.map_eq_some_iff.mp found
    refine List.mem_append_left _ (List.mem_append_left _ ?_)
    exact List.mem_filterMap.mpr ⟨_, Assoc.mem_of_get? inside, found⟩
  | @cls c name _ known found =>
    rcases known with rfl | ⟨cname, here⟩ | ⟨cname, inside⟩
    · refine List.mem_append_right _ (List.mem_flatMap.mpr ⟨c, by simp, ?_⟩)
      exact List.mem_filterMap.mpr ⟨name, mem_ownConstantNames found, found⟩
    · rcases find_eq here with ⟨entry, inside, rfl⟩ | inside
      · refine List.mem_append_left _ (List.mem_append_right _ ?_)
        refine List.mem_flatMap.mpr ⟨_, Assoc.mem_of_get? inside, ?_⟩
        obtain ⟨item, member, same⟩ := List.mem_map.mp (mem_ownConstantNames found)
        exact List.mem_filterMap.mpr ⟨item, member, by rw [same]; exact found⟩
      · exact absurd found (builtin inside)
    · exact absurd found (builtin inside)

/-- A class that may be asked about: one of the registry, or one that is not kept there. -/
def Admits (r : Registry) (asked : Option Class) : Prop :=
  ∀ c, asked = some c → (∃ name, r.find name = .ok c) ∨ ∀ key, c.home? ≠ some (.registered key)

theorem admits_none : r.Admits none := fun c no => by cases no

theorem admits_source {source : ClassSource} {c : Class} (found : r.source source = .ok c) :
    r.Admits (some c) := by
  intro c' same
  cases same
  cases source with
  | named name => exact .inl ⟨name, found⟩
  | declared name decl file =>
    cases found
    exact .inr fun key => by simp [Class.home?, Class.declared]
  | internal name kind parent interfaces constants =>
    cases found
    exact .inr fun key => by simp [Class.home?, Class.internal]

theorem subjectOf_class {source : SubjectSource} {s : Subject} (found : r.subjectOf source = .ok s)
    {c : Class} (inside : s.class? = some c) :
    ∃ given, source.class? = some given ∧ r.source given = .ok c := by
  cases source with
  | cls given =>
    cases owner : r.source given with
    | error f => simp [subjectOf, owner] at found
    | ok c' =>
      obtain rfl : Subject.cls c' = s := by simpa [subjectOf, owner] using found
      exact ⟨given, rfl, owner.trans (congrArg Except.ok (Option.some.inj inside))⟩
  | method given name =>
    cases owner : r.source given with
    | error f => simp [subjectOf, owner, bind, Except.bind] at found
    | ok c' =>
      cases method : c'.method? name with
      | none => simp [subjectOf, owner, method, bind, Except.bind] at found
      | some m =>
        obtain rfl : Subject.method m = s := by
          simpa [subjectOf, owner, method, bind, Except.bind, pure, Except.pure] using found
        obtain ⟨decl, -, rfl⟩ := Option.map_eq_some_iff.mp method
        exact ⟨given, rfl, owner.trans (congrArg Except.ok (Option.some.inj inside))⟩
  | anyMethod given name =>
    cases owner : r.source given with
    | error f => simp [subjectOf, owner, bind, Except.bind] at found
    | ok c' =>
      obtain rfl : Subject.method ⟨c', name⟩ = s := by
        simpa [subjectOf, owner, bind, Except.bind, pure, Except.pure] using found
      exact ⟨given, rfl, owner.trans (congrArg Except.ok (Option.some.inj inside))⟩
  | function name =>
    cases here : r.function name with
    | error f => simp [subjectOf, here] at found
    | ok f =>
      obtain rfl : Subject.function f = s := by simpa [subjectOf, here] using found
      cases inside
  | givenFunction f => cases found; cases inside
  | space n => cases found; cases inside
  | file name => cases found; cases inside
  | givenFile f => cases found; cases inside

theorem admits_subject {source : SubjectSource} {s : Subject} (found : r.subjectOf source = .ok s) :
    r.Admits s.class? := by
  intro c inside
  obtain ⟨given, -, here⟩ := subjectOf_class found inside
  exact admits_source here c rfl

theorem admits_classAsked (r : Registry) (q : Query) : r.Admits (r.classAsked q) := by
  have subject : ∀ source, r.Admits ((r.subjectOf source).toOption.bind Subject.class?) := by
    intro source
    cases found : r.subjectOf source with
    | error f => exact admits_none
    | ok s => exact admits_subject found
  have cls : ∀ source, r.Admits (r.source source).toOption := by
    intro source
    cases found : r.source source with
    | error f => exact admits_none
    | ok c => exact admits_source found
  cases q with
  | eval source _ => exact subject source
  | process source _ => exact subject source
  | staticVars source => exact subject source
  | collectStatics source _ => exact subject source
  | param source _ => exact subject source
  | constant source _ => exact cls source
  | constants source => exact cls source
  | property source _ => exact cls source
  | _ => exact admits_none

theorem Knows.home_cases (coherent : r.Coherent) (admits : r.Admits asked) {c : Class} {home : Home}
    (known : r.Knows asked c) (lives : c.home? = some home) :
    (∃ key entry, Assoc.get? r.classes key = some entry ∧ home = .registered key ∧
      c = kept (key, entry)) ∨ asked = some c ∧ home = .detached := by
  -- a built-in class has no declaration, so it is kept nowhere
  have builtin : ∀ {name}, r.internal? name ≠ some c := by
    intro name inside
    have plain := coherent.internalOrigin _ _ (Assoc.mem_of_get? inside)
    unfold Class.decl? at plain
    unfold Class.home? at lives
    split at lives
    next origin => simp [origin] at plain
    next => cases lives
  have found : ∀ {name}, r.find name = .ok c → ∃ key entry, Assoc.get? r.classes key = some entry ∧
      home = .registered key ∧ c = kept (key, entry) := by
    intro name found
    rcases find_eq found with ⟨entry, here, rfl⟩ | inside
    · refine ⟨_, entry, here, ?_, rfl⟩
      simpa [Class.home?, kept, Class.declared, eq_comm] using lives
    · exact absurd inside builtin
  rcases known with asks | ⟨name, here⟩ | ⟨name, inside⟩
  · rcases admits c asks with ⟨name, here⟩ | apart
    · exact .inl (found here)
    · cases home with
      | registered key => exact absurd lives (apart key)
      | detached => exact .inr ⟨asks, rfl⟩
  · exact .inl (found here)
  · exact absurd inside builtin

theorem lazyConstant?_eq {c : Class} {name : String} {k : LazyConstant}
    (found : c.lazyConstant? name = some k) :
    ∃ home, c.home? = some home ∧ k.slot = .classConstant home name := by
  unfold Class.lazyConstant? at found
  split at found
  next => cases found
  next decl file home origin =>
    obtain ⟨item, -, rfl⟩ := Option.map_eq_some_iff.mp found
    exact ⟨home, by simp [Class.home?, origin], rfl⟩

theorem Declares.eq_of_slot (coherent : r.Coherent) (admits : r.Admits asked)
    {first second : LazyConstant} (here : r.Declares asked first) (there : r.Declares asked second)
    (same : first.slot = second.slot) : first = second := by
  have spaced : ∀ {key k}, r.namespaceLazy? key = some k → k.slot = .namespaceConstant key := by
    intro key k found
    obtain ⟨initializer, -, rfl⟩ := Option.map_eq_some_iff.mp found
    rfl
  cases here with
  | @space key _ found =>
    cases there with
    | @space key' _ found' =>
      rw [spaced found, spaced found', Slot.namespaceConstant.injEq] at same
      subst same
      exact Option.some.inj (found.symm.trans found')
    | cls known' found' =>
      obtain ⟨home, -, slot⟩ := lazyConstant?_eq found'
      rw [spaced found, slot] at same
      cases same
  | @cls c name _ known found =>
    obtain ⟨home, lives, slot⟩ := lazyConstant?_eq found
    cases there with
    | space found' =>
      rw [spaced found', slot] at same
      cases same
    | @cls c' name' _ known' found' =>
      obtain ⟨home', lives', slot'⟩ := lazyConstant?_eq found'
      rw [slot, slot', Slot.classConstant.injEq] at same
      obtain ⟨rfl, rfl⟩ := same
      -- the slot tells where the class is kept, and only one class is kept there
      have classes : c = c' := by
        rcases known.home_cases coherent admits lives with ⟨key, entry, at1, rfl, rfl⟩ | ⟨asks, rfl⟩
        · rcases known'.home_cases coherent admits lives' with ⟨_, _, at2, same, rfl⟩ | ⟨_, no⟩
          · cases same
            rw [Option.some.inj (at1.symm.trans at2)]
          · cases no
        · rcases known'.home_cases coherent admits lives' with ⟨_, _, _, no, _⟩ | ⟨asks', _⟩
          · cases no
          · exact Option.some.inj (asks.symm.trans asks')
      subst classes
      exact Option.some.inj (found.symm.trans found')

theorem Declares.mono {k : LazyConstant} (declared : r.Declares none k) : r.Declares asked k := by
  cases declared with
  | space found => exact .space found
  | cls known found =>
    rcases known with no | known
    · cases no
    · exact .cls (.inr known) found

theorem declares_none_iff (coherent : r.Coherent) (admits : r.Admits asked) {k : LazyConstant} :
    r.Declares none k ↔ r.Declares asked k ∧ k.slot.isDetached = false := by
  constructor
  · intro declared
    refine ⟨declared.mono, ?_⟩
    cases declared with
    | space found =>
      obtain ⟨initializer, -, rfl⟩ := Option.map_eq_some_iff.mp found
      rfl
    | cls known found =>
      obtain ⟨home, lives, slot⟩ := lazyConstant?_eq found
      rcases known.home_cases coherent admits_none lives with
        ⟨key, entry, -, rfl, -⟩ | ⟨no, -⟩
      · rw [slot]
        rfl
      · cases no
  · rintro ⟨declared, stays⟩
    cases declared with
    | space found => exact .space found
    | cls known found =>
      obtain ⟨home, lives, slot⟩ := lazyConstant?_eq found
      rcases known.home_cases coherent admits lives with ⟨key, entry, here, rfl, rfl⟩ | ⟨-, rfl⟩
      · have own := coherent.classKey key entry (Assoc.mem_of_get? here)
        have named : r.find entry.name = .ok (kept (key, entry)) := by
          simp only [find, own, here]
          rfl
        exact .cls (.inr (.inl ⟨_, named⟩)) found
      · rw [slot] at stays
        cases stays

end Registry

end ConstExpr
