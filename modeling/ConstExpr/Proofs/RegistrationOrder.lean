import ConstExpr.Session.Run
import Mathlib

/-!
The order in which files are entered does not matter as long as no two of them declare the same
symbol. Then each file adds entries of its own behind those of the files before it, another order
only moves these entries about, and no lookup and no bound depends on their places.
-/

namespace ConstExpr

/-- What a declaration is known by: classes and functions by their keys, constants by their
namespace as it is kept and their name. -/
inductive Symbol where
  | cls (key : String)
  | function (key : String)
  | constant (space name : String)
deriving DecidableEq

def Stmt.symbols (space : String) : Stmt → List Symbol
  | .cls decl => [.cls (symbolKey (qualify space decl.name))]
  | .function decl => [.function (symbolKey (qualify space decl.name))]
  | .const items _ => items.map fun item => .constant (foldCase (trimBoth '\\' space)) item.name
  | _ => []

def Stmt.namespacePart? : Stmt → Option (String × List Stmt)
  | .namespaceBlock name body _ => some ((name.map Name.text).getD "", body)
  | _ => none

def namespaceParts (statements : List Stmt) : List (String × List Stmt) :=
  let outside := statements.filter (·.namespacePart?.isNone)
  statements.filterMap Stmt.namespacePart? ++ if outside.isEmpty then [] else [("", outside)]

/-- The symbols that a file declares: in each of its namespaces, inside blocks and branches too. -/
def fileSymbols (statements : List Stmt) : List Symbol :=
  (namespaceParts statements).flatMap fun part => (flattenAll part.2).flatMap (Stmt.symbols part.1)

namespace Registry

def Holds (r : Registry) : Symbol → Prop
  | .cls key => key ∈ Assoc.keys r.classes
  | .function key => key ∈ Assoc.keys r.functions
  | .constant space name =>
    ∃ key ∈ Assoc.keys r.namespaceConstants, key.space = space ∧ key.name = name

/-- One registry followed by the declarations of another. -/
def join (r other : Registry) : Registry :=
  { r with
    classes := r.classes ++ other.classes
    functions := r.functions ++ other.functions
    files := r.files ++ other.files
    namespaceConstants := r.namespaceConstants ++ other.namespaceConstants }

section Join

variable {r other : Registry} {file space : String}

theorem holds_join {symbol : Symbol} :
    (r.join other).Holds symbol ↔ r.Holds symbol ∨ other.Holds symbol := by
  cases symbol with
  | cls key => simp [Holds, join, Assoc.keys]
  | function key => simp [Holds, join, Assoc.keys]
  | constant space name =>
    simp only [Holds, join, Assoc.keys, List.map_append, List.mem_append]
    constructor
    · rintro ⟨key, here | there, same⟩
      · exact .inl ⟨key, here, same⟩
      · exact .inr ⟨key, there, same⟩
    · rintro (⟨key, here, same⟩ | ⟨key, there, same⟩)
      · exact ⟨key, .inl here, same⟩
      · exact ⟨key, .inr there, same⟩

theorem enter_join {s : Stmt} (new : ∀ symbol ∈ s.symbols space, ¬r.Holds symbol) :
    (r.join other).enter file space s = r.join (other.enter file space s) := by
  cases s with
  | cls decl =>
    have absent := new _ (List.mem_singleton_self _)
    simp only [enter, join, Assoc.put_append_of_not_mem absent]
  | function decl =>
    have absent := new _ (List.mem_singleton_self _)
    simp only [enter, join, Assoc.put_append_of_not_mem absent]
  | const items span =>
    have absent : ∀ item ∈ items,
        ConstantKey.of file space item.name ∉ Assoc.keys r.namespaceConstants :=
      fun item member held => new _ (List.mem_map_of_mem member) ⟨_, held, rfl, rfl⟩
    -- none of the keys is in front, so all go behind what is there
    have entered : ∀ later : Assoc ConstantKey Initializer,
        items.foldl (fun m item => Assoc.put m (.of file space item.name) ⟨space, item.value⟩)
          (r.namespaceConstants ++ later) =
        r.namespaceConstants ++ items.foldl
          (fun m item => Assoc.put m (.of file space item.name) ⟨space, item.value⟩) later := by
      clear new
      induction items with
      | nil => exact fun _ => rfl
      | cons item rest ih =>
        intro later
        simp only [List.foldl_cons, Assoc.put_append_of_not_mem (absent item List.mem_cons_self)]
        exact ih (fun item member => absent item (List.mem_cons_of_mem _ member)) _
    simp only [enter, join, entered]
  | _ => rfl

theorem openNamespace_join (new : file ∉ Assoc.keys r.files) :
    (r.join other).openNamespace file space = r.join (other.openNamespace file space) := by
  have known : Assoc.get? (r.join other).files file = Assoc.get? other.files file := by
    rw [join, Assoc.get?_append, Assoc.get?_eq_none_iff.mpr new, Option.none_or]
  simp only [openNamespace, known]
  split
  · rfl
  · simp only [join, Assoc.put_append_of_not_mem new]

theorem enterNamespace_join {body : List Stmt} (unknown : file ∉ Assoc.keys r.files)
    (new : ∀ s ∈ flattenAll body, ∀ symbol ∈ s.symbols space, ¬r.Holds symbol) :
    (r.join other).enterNamespace file space body =
      r.join (other.enterNamespace file space body) := by
  unfold enterNamespace
  rw [openNamespace_join unknown]
  generalize other.openNamespace file space = start
  generalize flattenAll body = statements at new
  induction statements generalizing start with
  | nil => rfl
  | cons s rest ih =>
    simp only [List.foldl_cons, enter_join (new s List.mem_cons_self)]
    exact ih _ fun t member => new t (List.mem_cons_of_mem _ member)

theorem enterFile_eq (r : Registry) (file : String) (statements : List Stmt) :
    r.enterFile file statements =
      (namespaceParts statements).foldl (fun r part => r.enterNamespace file part.1 part.2)
        { r with files := Assoc.putNew r.files file [] } := by
  -- a statement that opens no namespace of its own is passed over here and entered at the end
  have spaced : ∀ step : Registry → Stmt → Registry,
      (∀ r s, step r s =
        s.namespacePart?.elim r fun part => r.enterNamespace file part.1 part.2) →
      ∀ start, statements.foldl step start = (statements.filterMap Stmt.namespacePart?).foldl
        (fun r part => r.enterNamespace file part.1 part.2) start := by
    intro step each
    induction statements with
    | nil => exact fun _ => rfl
    | cons s rest ih =>
      intro start
      rw [List.foldl_cons, each, List.filterMap_cons]
      cases s.namespacePart? with
      | none => exact ih start
      | some part => exact ih _
  unfold enterFile
  dsimp only
  rw [spaced _ fun r s => by cases s <;> rfl,
    List.filter_congr (q := fun s => s.namespacePart?.isNone) fun s _ => by cases s <;> rfl]
  simp only [namespaceParts, List.foldl_append]
  split
  · rfl
  · rfl

theorem enterFile_join {statements : List Stmt} (unknown : file ∉ Assoc.keys r.files)
    (new : ∀ symbol ∈ fileSymbols statements, ¬r.Holds symbol) :
    (r.join other).enterFile file statements = r.join (other.enterFile file statements) := by
  have noted : Assoc.putNew (r.join other).files file [] =
      r.files ++ Assoc.putNew other.files file [] := by
    have known : Assoc.has (r.join other).files file = Assoc.has other.files file := by
      rw [Assoc.has, join, Assoc.get?_append, Assoc.get?_eq_none_iff.mpr unknown, Option.none_or,
        Assoc.has]
    simp only [Assoc.putNew, known]
    split
    · rfl
    · simp only [join, List.append_assoc]
  have start : { r.join other with files := Assoc.putNew (r.join other).files file [] } =
      r.join { other with files := Assoc.putNew other.files file [] } := by
    rw [noted]
    rfl
  rw [enterFile_eq, enterFile_eq, start]
  generalize { other with files := Assoc.putNew other.files file [] } = begun
  unfold fileSymbols at new
  generalize namespaceParts statements = parts at new
  induction parts generalizing begun with
  | nil => rfl
  | cons part rest ih =>
    have here : ∀ s ∈ flattenAll part.2, ∀ symbol ∈ s.symbols part.1, ¬r.Holds symbol := by
      intro s member symbol inside
      apply new
      rw [List.flatMap_cons]
      exact List.mem_append_left _ (List.mem_flatMap.mpr ⟨s, member, inside⟩)
    simp only [List.foldl_cons, enterNamespace_join unknown here]
    apply ih
    intro symbol inside
    apply new
    rw [List.flatMap_cons]
    exact List.mem_append_right _ inside

end Join

section Single

variable {r : Registry} {file space : String} {declared : List Symbol}

/-- A registry of one file: each key occurs once and belongs to a symbol that the file declares. -/
structure Single (file : String) (declared : List Symbol) (r : Registry) : Prop where
  files : Assoc.keys r.files = [file]
  uniqueClasses : (Assoc.keys r.classes).Nodup
  uniqueFunctions : (Assoc.keys r.functions).Nodup
  uniqueConstants : (Assoc.keys r.namespaceConstants).Nodup
  classes : ∀ key ∈ Assoc.keys r.classes, .cls key ∈ declared
  functions : ∀ key ∈ Assoc.keys r.functions, .function key ∈ declared
  constants : ∀ key ∈ Assoc.keys r.namespaceConstants,
    key.file = file ∧ .constant key.space key.name ∈ declared

theorem Single.held (single : r.Single file declared) {symbol : Symbol} (held : r.Holds symbol) :
    symbol ∈ declared := by
  cases symbol with
  | cls key => exact single.classes key held
  | function key => exact single.functions key held
  | constant space name =>
    obtain ⟨key, member, rfl, rfl⟩ := held
    exact (single.constants key member).2

theorem Single.putConstant (single : r.Single file declared) {name : String} (value : Initializer)
    (inside : .constant (foldCase (trimBoth '\\' space)) name ∈ declared) :
    Single file declared { r with
      namespaceConstants := Assoc.put r.namespaceConstants (.of file space name) value } where
  __ := single
  uniqueConstants := Assoc.nodup_keys_put single.uniqueConstants _ _
  constants key member := by
    rcases Assoc.mem_keys_put.mp member with old | rfl
    · exact single.constants key old
    · exact ⟨rfl, inside⟩

theorem Single.enter (single : r.Single file declared) {s : Stmt}
    (inside : ∀ symbol ∈ s.symbols space, symbol ∈ declared) :
    (r.enter file space s).Single file declared := by
  cases s with
  | cls decl =>
    refine { single with
      uniqueClasses := Assoc.nodup_keys_put single.uniqueClasses _ _
      classes := fun key member => ?_ }
    rcases Assoc.mem_keys_put.mp member with old | rfl
    · exact single.classes key old
    · exact inside _ (List.mem_singleton_self _)
  | function decl =>
    refine { single with
      uniqueFunctions := Assoc.nodup_keys_put single.uniqueFunctions _ _
      functions := fun key member => ?_ }
    rcases Assoc.mem_keys_put.mp member with old | rfl
    · exact single.functions key old
    · exact inside _ (List.mem_singleton_self _)
  | const items span =>
    induction items generalizing r with
    | nil => exact single
    | cons item rest ih =>
      have here := single.putConstant ⟨space, item.value⟩ (inside _ List.mem_cons_self)
      exact ih here fun symbol later => inside symbol (List.mem_cons_of_mem _ later)
  | _ => exact single

theorem Single.openNamespace (single : r.Single file declared) (space : String) :
    (r.openNamespace file space).Single file declared := by
  unfold Registry.openNamespace
  dsimp only
  split
  · exact single
  · refine { single with files := ?_ }
    rw [Assoc.keys_put, single.files, if_pos (List.mem_singleton_self _)]

theorem Single.enterNamespace (single : r.Single file declared) {body : List Stmt}
    (inside : ∀ s ∈ flattenAll body, ∀ symbol ∈ s.symbols space, symbol ∈ declared) :
    (r.enterNamespace file space body).Single file declared := by
  unfold Registry.enterNamespace
  have opened := single.openNamespace space
  generalize r.openNamespace file space = start at opened
  generalize flattenAll body = statements at inside
  induction statements generalizing start with
  | nil => exact opened
  | cons s rest ih =>
    exact ih _ (opened.enter (inside s List.mem_cons_self))
      fun t member => inside t (List.mem_cons_of_mem _ member)

end Single

def contents (file : String × List Stmt) : Registry := ({} : Registry).enterFile file.1 file.2

theorem contents_single (file : String × List Stmt) :
    (contents file).Single file.1 (fileSymbols file.2) := by
  have start : ({ files := Assoc.putNew [] file.1 [] } : Registry).Single file.1
      (fileSymbols file.2) := by
    refine ⟨rfl, List.nodup_nil, List.nodup_nil, List.nodup_nil, ?_, ?_, ?_⟩
    all_goals exact fun key none => absurd none List.not_mem_nil
  rw [contents, enterFile_eq]
  have inside : ∀ part ∈ namespaceParts file.2, ∀ s ∈ flattenAll part.2,
      ∀ symbol ∈ s.symbols part.1, symbol ∈ fileSymbols file.2 :=
    fun part here s member symbol declared =>
      List.mem_flatMap.mpr ⟨part, here, List.mem_flatMap.mpr ⟨s, member, declared⟩⟩
  generalize namespaceParts file.2 = parts at inside
  generalize ({ files := _ } : Registry) = begun at start ⊢
  induction parts generalizing begun with
  | nil => exact start
  | cons part rest ih =>
    exact ih (fun later member => inside later (List.mem_cons_of_mem _ member)) _
      (start.enterNamespace (inside part List.mem_cons_self))

section Build

variable {files : List (String × List Stmt)} (names : (files.map Prod.fst).Nodup)
  (apart : files.Pairwise fun f g => (fileSymbols f.2).Disjoint (fileSymbols g.2))

def gathered (files : List (String × List Stmt)) : Registry where
  classes := files.flatMap fun file => (contents file).classes
  functions := files.flatMap fun file => (contents file).functions
  files := files.flatMap fun file => (contents file).files
  namespaceConstants := files.flatMap fun file => (contents file).namespaceConstants

theorem join_empty (r : Registry) : r.join {} = r := by
  simp [join]

include names apart

theorem foldl_enterFile {r : Registry} (unknown : ∀ file ∈ files, file.1 ∉ Assoc.keys r.files)
    (new : ∀ file ∈ files, ∀ symbol ∈ fileSymbols file.2, ¬r.Holds symbol) :
    files.foldl (fun r file => r.enterFile file.1 file.2) r = r.join (gathered files) := by
  induction files generalizing r with
  | nil => simp [join, gathered]
  | cons file rest ih =>
    obtain ⟨first, names⟩ := List.nodup_cons.mp names
    obtain ⟨disjoint, apart⟩ := List.pairwise_cons.mp apart
    have single := contents_single file
    have alone : r.enterFile file.1 file.2 = r.join (contents file) := by
      have added : (r.join {}).enterFile file.1 file.2 = r.join (contents file) :=
        enterFile_join (unknown file List.mem_cons_self) (new file List.mem_cons_self)
      rwa [join_empty] at added
    -- what the first file holds is foreign to all others, so the rest is entered as before
    have unknown' : ∀ other ∈ rest, other.1 ∉ Assoc.keys (r.join (contents file)).files := by
      intro other member known
      rw [join, Assoc.keys, List.map_append] at known
      rcases List.mem_append.mp known with before | here
      · exact unknown other (List.mem_cons_of_mem _ member) before
      · have same : other.1 ∈ [file.1] := single.files ▸ here
        exact first (List.mem_singleton.mp same ▸ List.mem_map_of_mem member)
    have new' : ∀ other ∈ rest, ∀ symbol ∈ fileSymbols other.2,
        ¬(r.join (contents file)).Holds symbol := by
      intro other member symbol declared held
      rcases holds_join.mp held with before | here
      · exact new other (List.mem_cons_of_mem _ member) symbol declared before
      · exact disjoint other member (single.held here) declared
    rw [List.foldl_cons, alone, ih names apart unknown' new']
    simp [join, gathered]

theorem build_eq_join (predefined builtin : Bool) (constants : List (String × Value)) :
    build predefined builtin constants files =
      (build predefined builtin constants []).join (gathered files) := by
  refine foldl_enterFile names apart ?_ ?_
  · intro file member known
    cases known
  · intro file member symbol declared held
    cases symbol with
    | cls key => cases held
    | function key => cases held
    | constant space name =>
      obtain ⟨key, none, -⟩ := held
      cases none

end Build

structure Unique (r : Registry) : Prop where
  classes : (Assoc.keys r.classes).Nodup
  functions : (Assoc.keys r.functions).Nodup
  files : (Assoc.keys r.files).Nodup
  constants : ((Assoc.keys r.namespaceConstants).map fun key => (key.space, key.name)).Nodup

theorem gathered_unique {files : List (String × List Stmt)} (names : (files.map Prod.fst).Nodup)
    (apart : files.Pairwise fun f g => (fileSymbols f.2).Disjoint (fileSymbols g.2)) :
    (gathered files).Unique where
  classes := by
    rw [Assoc.keys, gathered, List.map_flatMap, List.nodup_flatMap]
    refine ⟨fun file _ => (contents_single file).uniqueClasses, apart.imp ?_⟩
    intro f g disjoint key here there
    exact disjoint ((contents_single f).classes key here) ((contents_single g).classes key there)
  functions := by
    rw [Assoc.keys, gathered, List.map_flatMap, List.nodup_flatMap]
    refine ⟨fun file _ => (contents_single file).uniqueFunctions, apart.imp ?_⟩
    intro f g disjoint key here there
    exact disjoint ((contents_single f).functions key here)
      ((contents_single g).functions key there)
  files := by
    have keys : ∀ file : String × List Stmt, (contents file).files.map Prod.fst = [file.1] :=
      fun file => (contents_single file).files
    rw [Assoc.keys, gathered, List.map_flatMap]
    simp only [keys]
    rwa [← List.map_eq_flatMap]
  constants := by
    rw [Assoc.keys, gathered, List.map_flatMap, List.map_flatMap, List.nodup_flatMap]
    refine ⟨fun file _ => ?_, apart.imp ?_⟩
    · refine List.Nodup.map_on ?_ (contents_single file).uniqueConstants
      intro key here other there same
      have place := ((contents_single file).constants key here).1.trans
        ((contents_single file).constants other there).1.symm
      cases key
      cases other
      simp_all
    · intro f g disjoint name here there
      obtain ⟨key, member, rfl⟩ := List.mem_map.mp here
      obtain ⟨other, member', same⟩ := List.mem_map.mp there
      obtain ⟨space, short⟩ := Prod.mk.inj same
      have declared := ((contents_single g).constants other member').2
      rw [space, short] at declared
      exact disjoint ((contents_single f).constants key member).2 declared

structure Moved (r other : Registry) : Prop where
  constants : r.constants = other.constants
  internals : r.internals = other.internals
  classes : r.classes.Perm other.classes
  functions : r.functions.Perm other.functions
  files : r.files.Perm other.files
  namespaceConstants : r.namespaceConstants.Perm other.namespaceConstants

theorem build_moved {files other : List (String × List Stmt)} (perm : files.Perm other)
    (names : (files.map Prod.fst).Nodup)
    (apart : files.Pairwise fun f g => (fileSymbols f.2).Disjoint (fileSymbols g.2))
    (predefined builtin : Bool) (constants : List (String × Value)) :
    (build predefined builtin constants files).Unique ∧
      (build predefined builtin constants files).Moved
        (build predefined builtin constants other) := by
  have names' : (other.map Prod.fst).Nodup := (perm.map Prod.fst).nodup_iff.mp names
  have apart' := perm.pairwise apart fun disjoint => disjoint.symm
  rw [build_eq_join names apart, build_eq_join names' apart']
  have unique := gathered_unique names apart
  refine ⟨⟨unique.classes, unique.functions, unique.files, unique.constants⟩,
    rfl, rfl, ?_, ?_, ?_, ?_⟩
  · exact perm.flatMap_right _
  · exact perm.flatMap_right _
  · exact perm.flatMap_right _
  · exact perm.flatMap_right _

/-- What evaluation can tell of a registry: what its lookups find and how far it lets a search
go. -/
structure SameLookups (r other : Registry) : Prop where
  constants : r.constants = other.constants
  internals : r.internals = other.internals
  classes : ∀ key, Assoc.get? r.classes key = Assoc.get? other.classes key
  functions : ∀ key, Assoc.get? r.functions key = Assoc.get? other.functions key
  files : ∀ file, Assoc.get? r.files file = Assoc.get? other.files file
  initializers : ∀ key,
    Assoc.get? r.namespaceConstants key = Assoc.get? other.namespaceConstants key
  fullName : ∀ name, r.constantKey? name = other.constantKey? name
  breadth : r.hierarchyBound = other.hierarchyBound
  depth : ∀ c, r.depthBound c = other.depthBound c

theorem find?_perm {α : Type} {l other : List α} {p : α → Bool} (perm : l.Perm other)
    (sole : ∀ a ∈ l, ∀ b ∈ l, p a → p b → a = b) : l.find? p = other.find? p := by
  have found : ∀ {l : List α}, (∀ a ∈ l, ∀ b ∈ l, p a → p b → a = b) → ∀ a,
      l.find? p = some a ↔ a ∈ l ∧ p a := by
    intro l sole a
    refine ⟨fun first => ⟨List.mem_of_find?_eq_some first, List.find?_some first⟩, ?_⟩
    rintro ⟨member, passes⟩
    obtain ⟨b, first⟩ := Option.isSome_iff_exists.mp
      (List.find?_isSome.mpr ⟨a, member, passes⟩)
    rw [first, sole a member b (List.mem_of_find?_eq_some first) passes (List.find?_some first)]
  apply Option.ext
  intro a
  have sole' : ∀ a ∈ other, ∀ b ∈ other, p a → p b → a = b :=
    fun a here b there => sole a (perm.mem_iff.mpr here) b (perm.mem_iff.mpr there)
  rw [found sole, found sole', perm.mem_iff]

theorem Moved.sameLookups {r other : Registry} (moved : r.Moved other) (unique : r.Unique) :
    r.SameLookups other where
  constants := moved.constants
  internals := moved.internals
  classes := Assoc.get?_perm moved.classes unique.classes
  functions := Assoc.get?_perm moved.functions unique.functions
  files := Assoc.get?_perm moved.files unique.files
  initializers := Assoc.get?_perm moved.namespaceConstants (List.Nodup.of_map _ unique.constants)
  fullName name := by
    refine find?_perm (moved.namespaceConstants.map Prod.fst) ?_
    intro key here later there first second
    refine List.inj_on_of_nodup_map unique.constants here there ?_
    simp only [Bool.and_eq_true, beq_iff_eq] at first second
    rw [first.1, first.2, second.1, second.2]
  breadth := by
    rw [hierarchyBound, hierarchyBound, moved.classes.length_eq, moved.internals]
  depth c := by
    rw [depthBound, depthBound, moved.namespaceConstants.length_eq,
      (moved.classes.flatMap_right _).length_eq]

namespace SameLookups

variable {r other : Registry} (same : r.SameLookups other)

include same

section Lookups

theorem internal? : r.internal? = other.internal? := by
  funext name
  rw [Registry.internal?, Registry.internal?, same.internals]

theorem classDecl : r.classDecl = other.classDecl := by
  funext name
  rw [Registry.classDecl, Registry.classDecl, same.classes]

theorem find : r.find = other.find := by
  funext name
  rw [Registry.find, Registry.find, same.classes, same.internal?]

theorem findLoaded : r.findLoaded = other.findLoaded := by
  funext name
  rw [Registry.findLoaded, Registry.findLoaded, same.internal?, same.find]

theorem sameClass : r.sameClass = other.sameClass := by
  funext a b
  rw [Registry.sameClass, Registry.sameClass, same.find]

theorem function : r.function = other.function := by
  funext name
  rw [Registry.function, Registry.function, same.functions]

theorem file? : r.file? = other.file? := by
  funext name
  rw [Registry.file?, Registry.file?, same.files]

theorem parent : r.parent = other.parent := by
  funext c
  rw [Registry.parent, Registry.parent, same.findLoaded]

theorem declInterfaces : r.declInterfaces = other.declInterfaces := by
  funext d
  rw [Registry.declInterfaces, Registry.declInterfaces, same.find]

theorem interfaces : r.interfaces = other.interfaces := by
  funext c
  rw [Registry.interfaces, Registry.interfaces, same.declInterfaces, same.findLoaded]

theorem declTraits : r.declTraits = other.declTraits := by
  funext d
  rw [Registry.declTraits, Registry.declTraits, same.find]

theorem traits : r.traits = other.traits := by
  funext c
  rw [Registry.traits, Registry.traits, same.declTraits]

theorem resolve : r.resolve = other.resolve := by
  funext s name
  simp only [Registry.resolve, same.find, same.findLoaded, same.parent]

theorem source : r.source = other.source := by
  funext c
  cases c with
  | named name => exact congrFun same.find name
  | _ => rfl

theorem subjectOf : r.subjectOf = other.subjectOf := by
  funext s
  cases s <;> simp only [Registry.subjectOf, same.source, same.function, same.file?]

theorem namespaceLazy? : r.namespaceLazy? = other.namespaceLazy? := by
  funext key
  rw [Registry.namespaceLazy?, Registry.namespaceLazy?, same.initializers]

end Lookups

section Evaluation

theorem namespaceConstant : r.namespaceConstant = other.namespaceConstant := by
  funext evaluator key
  rw [Registry.namespaceConstant, Registry.namespaceConstant, same.namespaceLazy?]

theorem globalConstant : r.globalConstant = other.globalConstant := by
  funext evaluator name
  simp only [Registry.globalConstant, same.constants, same.fullName, same.namespaceConstant]

theorem constantIn : r.constantIn = other.constantIn := by
  funext evaluator s name
  simp only [Registry.constantIn, localConstant, same.namespaceConstant, same.globalConstant]

theorem searchConstant : r.searchConstant = other.searchConstant := by
  funext evaluator name fuel
  induction fuel with
  | zero => rfl
  | succ fuel ih =>
    funext path c
    simp only [Registry.searchConstant, consult, ih, same.parent, same.interfaces]

theorem gatherConstants : r.gatherConstants = other.gatherConstants := by
  funext evaluator fuel
  induction fuel with
  | zero => rfl
  | succ fuel ih =>
    funext path c
    simp only [Registry.gatherConstants, ih, same.parent, same.interfaces]

theorem classConstantIn : r.classConstantIn = other.classConstantIn := by
  funext evaluator s cls name
  simp only [Registry.classConstantIn, same.resolve, same.searchConstant, same.breadth]

theorem evaluate : r.evaluate = other.evaluate := by
  funext evaluator s e
  simp only [Registry.evaluate, scope, same.constantIn, same.classConstantIn]

theorem valueOf : r.valueOf = other.valueOf := by
  funext evaluator s e
  rw [Registry.valueOf, Registry.valueOf, same.evaluate]

theorem searchProperty : r.searchProperty = other.searchProperty := by
  funext evaluator name fuel
  induction fuel with
  | zero => rfl
  | succ fuel ih =>
    funext path c
    simp only [Registry.searchProperty, ih, same.parent, same.valueOf]

theorem force : r.force = other.force := by
  funext fuel
  induction fuel with
  | zero => rfl
  | succ fuel ih =>
    funext k
    rw [Registry.force, Registry.force, ih, same.valueOf]

end Evaluation

section Sessions

theorem reply : r.reply = other.reply := by
  funext evaluator q
  cases q <;> simp only [Registry.reply, staticsOf, same.subjectOf, same.source, same.evaluate,
    same.valueOf, same.classDecl, same.internal?, same.findLoaded, same.resolve,
    same.sameClass, same.parent, same.interfaces, same.traits, same.declInterfaces,
    same.declTraits, same.searchConstant, same.gatherConstants, same.searchProperty,
    same.breadth, same.function, same.file?, same.namespaceConstant, same.globalConstant]

theorem answer : r.answer = other.answer := by
  funext q
  have asked : r.classAsked q = other.classAsked q := by
    cases q <;> simp only [classAsked, same.subjectOf, same.source]
  rw [Registry.answer, Registry.answer, same.reply, same.force, asked, same.depth]

theorem runFrom (m : Memory) (queries : List Query) :
    r.runFrom m queries = other.runFrom m queries := by
  induction queries generalizing m with
  | nil => rfl
  | cons q rest ih =>
    have here : r.step m q = other.step m q := by rw [step, step, same.answer]
    simp only [Registry.runFrom, here, ih]

end Sessions

end SameLookups

/-- Files with different names that declare no symbol in common can be entered in any order: every
session has the same outcomes, warnings included. -/
theorem run_of_perm (predefined builtin : Bool) (constants : List (String × Value))
    {files other : List (String × List Stmt)} (perm : files.Perm other)
    (names : (files.map Prod.fst).Nodup)
    (apart : files.Pairwise fun f g => (fileSymbols f.2).Disjoint (fileSymbols g.2))
    (queries : List Query) :
    (build predefined builtin constants files).run queries =
      (build predefined builtin constants other).run queries := by
  obtain ⟨unique, moved⟩ := build_moved perm names apart predefined builtin constants
  exact (moved.sameLookups unique).runFrom {} queries

def crossing : List (String × List Stmt) :=
  [("/app/a.php", [.namespaceBlock (some (.parse "App")) [
      .const [⟨"BASE", .int 2 {}, {}⟩,
        ⟨"LIMIT", .classConstant (.named (.parse "\\Lib\\Store")) "SIZE" {}, {}⟩] {}] {}]),
    ("/app/b.php", [.namespaceBlock (some (.parse "Lib")) [
      .cls ⟨.cls, "Store", [], [], [],
        [.const [] [⟨"SIZE", .constant (.parse "\\App\\BASE") {}, {}⟩] {}], {}⟩] {}])]

theorem crossing_reversed :
    (crossing.map Prod.fst).Nodup ∧
      (crossing.Pairwise fun f g => (fileSymbols f.2).Disjoint (fileSymbols g.2)) ∧
      ((build false false [] crossing).run
        [.namespaceConstant "/app/a.php" "App" "LIMIT"]).map Outcome.result =
        [.ok (.value (some (.int 2)))] ∧
      (build false false [] crossing).run [.namespaceConstant "/app/a.php" "App" "LIMIT"] =
        (build false false [] crossing.reverse).run
          [.namespaceConstant "/app/a.php" "App" "LIMIT"] := by
  have names : (crossing.map Prod.fst).Nodup := by decide
  have symbols : crossing.map (fun file => fileSymbols file.2) =
      [[.constant "app" "BASE", .constant "app" "LIMIT"], [.cls "lib\\store"]] := by
    decide +kernel
  have apart : crossing.Pairwise fun f g => (fileSymbols f.2).Disjoint (fileSymbols g.2) := by
    have listed : (crossing.map fun file => fileSymbols file.2).Pairwise List.Disjoint := by
      rw [symbols]
      simp
    exact List.pairwise_map.mp listed
  refine ⟨names, apart, by cbv, ?_⟩
  exact run_of_perm false false [] (List.reverse_perm crossing).symm names apart _

end Registry

end ConstExpr
