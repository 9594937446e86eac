import ConstExpr.Class.Basic

/-!
Subjects: the class, function, method, namespace or file that an expression belongs to. The subject
says what `self` means, in which namespace names are looked up, and what the magic constants are.
-/

namespace ConstExpr

structure Function where
  name : String
  decl : FunctionDecl
  file : Option String

def Function.of (name : String) (decl : FunctionDecl) (file : Option String) : Function where
  name := trimLeft '\\' name
  decl := decl
  file := file

/-- A method with the class it is looked up in, which need not declare it. -/
structure Method where
  owner : Class
  name : String

def Method.decl? (m : Method) : Option FunctionDecl := m.owner.decl?.bind (·.method? m.name)

def Class.method? (c : Class) (name : String) : Option Method :=
  -- the name is spelled as the class declares it
  (c.decl?.bind (·.method? name)).map fun decl => ⟨c, decl.name⟩

structure FileNamespace where
  file : String
  name : String
deriving DecidableEq

def FileNamespace.of (file name : String) : FileNamespace where
  file := file
  name := trimBoth '\\' name

structure SourceFile where
  name : String
  namespaces : List String
deriving DecidableEq

def SourceFile.parts (f : SourceFile) : List FileNamespace :=
  f.namespaces.map (FileNamespace.of f.name)

inductive Subject where
  | cls (c : Class)
  | function (f : Function)
  | method (m : Method)
  | space (n : FileNamespace)
  | file (f : SourceFile)

namespace Subject

def class? : Subject → Option Class
  | cls c => some c
  | method m => some m.owner
  | _ => none

def file? : Subject → Option String
  | cls c => c.file?
  | function f => f.file
  | method m => m.owner.file?
  | space n => some n.file
  | file f => some f.name

def namespaceName : Subject → String
  | cls c => c.namespaceName
  | function f => namespaceOf f.name
  | method m => m.owner.namespaceName
  | space n => n.name
  -- a file as a whole is in the global namespace
  | file _ => ""

end Subject

end ConstExpr
