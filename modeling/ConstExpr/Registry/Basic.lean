import ConstExpr.Class.Subject
import ConstExpr.Failure
import ConstExpr.Registry.Builtin

/-!
The registry: everything declared in a set of source files, together with the constants and classes
known beforehand. Classes and functions are found ignoring case, constants by exact name in a
namespace whose name ignores case.
-/

namespace ConstExpr

structure Declaration (α : Type) where
  name : String
  decl : α
  file : String

/-- What identifies a constant declared at the level of a namespace. -/
structure ConstantKey where
  file : String
  space : String
  name : String
deriving DecidableEq

/-- The key of a constant; separators at the ends of the namespace and its case do not matter. -/
def ConstantKey.of (file space name : String) : ConstantKey where
  file := file
  space := foldCase (trimBoth '\\' space)
  name := name

structure Initializer where
  space : String
  value : Expr

structure Registry where
  -- values known beforehand
  constants : Assoc String Value := []
  internals : Assoc String Class := []
  classes : Assoc String (Declaration ClassDecl) := []
  functions : Assoc String (Declaration FunctionDecl) := []
  -- each file with the namespaces it declares
  files : Assoc String (List String) := []
  namespaceConstants : Assoc ConstantKey Initializer := []

namespace Registry

def internal? (r : Registry) (name : String) : Option Class :=
  Assoc.get? r.internals (symbolKey name)

def classDecl (r : Registry) (name : String) : Except Failure ClassDecl :=
  match Assoc.get? r.classes (symbolKey name) with
  | some entry => .ok entry.decl
  | none => .error (.classNotFound (trimLeft '\\' name))

/-- A class by its full name; one that is declared hides a built-in one. -/
def find (r : Registry) (name : String) : Except Failure Class :=
  match Assoc.get? r.classes (symbolKey name) with
  | some entry =>
    .ok (.declared entry.name entry.decl (some entry.file) (.registered (symbolKey name)))
  | none =>
    match r.internal? name with
    | some c => .ok c
    | none => .error (.classNotFound (trimLeft '\\' name))

/-- A class by its full name where built-in classes come first. -/
def findLoaded (r : Registry) (name : String) : Except Failure Class :=
  match r.internal? name with
  | some c => .ok c
  | none => r.find name

def sameClass (r : Registry) (a b : String) : Except Failure Bool := do
  let _ ← r.find a
  let _ ← r.find b
  return symbolKey a == symbolKey b

def function (r : Registry) (name : String) : Except Failure Function :=
  match Assoc.get? r.functions (symbolKey name) with
  | some entry => .ok (.of entry.name entry.decl (some entry.file))
  | none => .error (.functionNotFound name)

def file? (r : Registry) (name : String) : Option SourceFile :=
  (Assoc.get? r.files name).map (⟨name, ·⟩)

def parent (r : Registry) (c : Class) : Except Failure (Option Class) :=
  match c.parentName? with
  | some name => some <$> r.findLoaded name
  | none => .ok none

def findAll (find : String → Except Failure Class) (names : List String) :
    Except Failure (Assoc String Class) := do
  return Assoc.ofPairs (← names.mapM fun name => return (name, ← find name))

def qualifiedTexts (names : List Name) : List String :=
  -- other names are not looked up
  (names.filter Name.isFullyQualified).map Name.text

def declInterfaces (r : Registry) (d : ClassDecl) : Except Failure (Assoc String Class) :=
  findAll r.find (qualifiedTexts d.interfaceNames)

/-- The interfaces that a class names itself. -/
def interfaces (r : Registry) (c : Class) : Except Failure (Assoc String Class) :=
  match c.origin with
  | .declared decl _ _ => r.declInterfaces decl
  | .internal _ names _ => findAll r.findLoaded names

def declTraits (r : Registry) (d : ClassDecl) : Except Failure (Assoc String Class) :=
  findAll r.find (qualifiedTexts (d.traitUses.flatMap Prod.fst))

def traits (r : Registry) (c : Class) : Except Failure (Assoc String Class) :=
  match c.origin with
  | .declared decl _ _ => r.declTraits decl
  | .internal .. => .ok []

/-- The class that a name in an expression stands for. The word `static` means the same as `self`,
for nothing is called. -/
def resolve (r : Registry) (subject : Subject) (name : Name) : Except Failure Class :=
  if name.isFullyQualified then r.findLoaded name.text
  else
    match name.special? with
    | some .self | some .static =>
      match subject.class? with
      | some c => .ok c
      | none => .error (.unresolvableClass name.text "no class scope is active")
    | some .parent =>
      match subject.class? with
      | none => .error (.unresolvableClass "parent" "no class scope is active")
      | some c => do
        match ← r.parent c with
        | some p => return p
        | none => .error (.unresolvableClass "parent" ("class " ++ c.name ++ " has no parent"))
    | none => r.find (qualify subject.namespaceName name.text)

def constantKey? (r : Registry) (name : String) : Option ConstantKey :=
  let space := foldCase (namespaceOf name)
  let short := shortName name
  -- the first file that declares the constant counts
  (Assoc.keys r.namespaceConstants).find? fun key => key.space == space && key.name == short

end Registry

end ConstExpr
