import ConstExpr.Syntax.Declared
import ConstExpr.Value.Basic

/-!
Classes as they are reflected: built in, with constants that are values already, or declared in
source, with constants that are expressions.
-/

namespace ConstExpr

/-- Where a declared class is kept: under its key in the registry, or by itself. Two classes share
the values of their constants exactly when they have the same home. -/
inductive Home where
  | registered (key : String)
  | detached
deriving DecidableEq

inductive Origin where
  | internal (parent : Option String) (interfaces : List String) (constants : Assoc String Value)
  | declared (decl : ClassDecl) (file : Option String) (home : Home)

structure Class where
  -- in full, without separators in front
  name : String
  kind : ClassKind
  origin : Origin

namespace Class

def internal (name : String) (kind : ClassKind) (parent : Option String)
    (interfaces : List String) (constants : List (String × Value)) : Class where
  name := trimLeft '\\' name
  kind := kind
  origin := .internal parent interfaces (Assoc.ofPairs constants)

def declared (name : String) (decl : ClassDecl) (file : Option String) (home : Home) : Class where
  name := trimLeft '\\' name
  kind := decl.kind
  origin := .declared decl file home

def decl? (c : Class) : Option ClassDecl :=
  match c.origin with
  | .declared decl _ _ => some decl
  | .internal .. => none

def isDeclared (c : Class) : Bool := c.decl?.isSome

def file? (c : Class) : Option String :=
  match c.origin with
  | .declared _ file _ => file
  | .internal .. => none

def namespaceName (c : Class) : String := namespaceOf c.name

def parentName? (c : Class) : Option String :=
  match c.origin with
  | .declared decl _ _ => decl.parentName?
  | .internal parent _ _ => parent

def ownConstantNames (c : Class) : List String :=
  match c.origin with
  | .declared decl _ _ => decl.constants.map (·.name)
  | .internal _ _ constants => Assoc.keys constants

def adaptations (c : Class) : List Adaptation := (c.decl?.map ClassDecl.adaptations).getD []

def methodNames (c : Class) : List String :=
  (c.decl?.map fun d => d.methods.map (·.name)).getD []

end Class

end ConstExpr
