import ConstExpr.Syntax.Tree

/-!
What a class declares: constants and properties by exact name, methods ignoring case. Of several
declarations of one name the first counts.
-/

namespace ConstExpr.ClassDecl

def constants (c : ClassDecl) : List ConstItem :=
  c.members.flatMap fun
    | .const _ items _ => items
    | _ => []

def constant? (c : ClassDecl) (name : String) : Option ConstItem :=
  c.constants.find? (·.name == name)

def methods (c : ClassDecl) : List FunctionDecl :=
  c.members.filterMap fun
    | .method _ decl _ => some decl
    | _ => none

def method? (c : ClassDecl) (name : String) : Option FunctionDecl :=
  c.methods.find? (sameIgnoringCase ·.name name)

def properties (c : ClassDecl) : List VarDecl :=
  c.members.flatMap fun
    | .property _ vars _ => vars
    | _ => []

def property? (c : ClassDecl) (name : String) : Option VarDecl :=
  c.properties.find? (·.name == name)

def traitUses (c : ClassDecl) : List (List Name × List Adaptation) :=
  c.members.filterMap fun
    | .traitUse traits adaptations _ => some (traits, adaptations)
    | _ => none

def adaptations (c : ClassDecl) : List Adaptation :=
  -- a later use of traits replaces those before it
  (c.traitUses.getLast?.map Prod.snd).getD []

def interfaceNames (c : ClassDecl) : List Name :=
  -- what an interface extends are its interfaces
  if c.kind = .interface then c.parents else c.interfaces

def parentName? (c : ClassDecl) : Option String :=
  if c.kind = .cls then c.parents.head?.map Name.text else none

end ConstExpr.ClassDecl
