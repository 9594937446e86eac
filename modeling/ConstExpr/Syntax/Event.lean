import ConstExpr.Syntax.Traversal

/-!
Reports of a traversal: for every node the kind of place and what identifies it there.
-/

namespace ConstExpr

inductive Place where
  | statements | stmt | expr | arg | arrayItem | param | staticVar | matchArm | case | catching
  | function | cls | member | constItem | adaptation | property | name
deriving DecidableEq

namespace Place

def label : Place → String
  | statements => "statements"
  | stmt => "stmt"
  | expr => "expr"
  | arg => "arg"
  | arrayItem => "array_item"
  | param => "param"
  | staticVar => "static_var"
  | matchArm => "match_arm"
  | case => "case"
  | catching => "catch"
  | function => "function"
  | cls => "class_like"
  | member => "class_member"
  | constItem => "const_item"
  | adaptation => "trait_adaptation"
  | property => "property_entry"
  | name => "name"

def all : List Place :=
  [statements, stmt, expr, arg, arrayItem, param, staticVar, matchArm, case, catching, function,
    cls, member, constItem, adaptation, property, name]

end Place

namespace Node

def place : Node → Place
  | statements _ => .statements
  | stmt _ => .stmt
  | expr _ => .expr
  | arg _ => .arg
  | arrayItem _ => .arrayItem
  | param _ => .param
  | staticVar _ => .staticVar
  | matchArm _ => .matchArm
  | case _ => .case
  | catching _ => .catching
  | function _ => .function
  | cls _ => .cls
  | member _ => .member
  | constItem _ => .constItem
  | adaptation _ => .adaptation
  | property _ => .property
  | name _ => .name

/-- What identifies a node among those of its kind; empty where nothing does. -/
def label : Node → String
  | statements body => toString body.length
  | stmt s => s.form
  | expr e => e.form
  | arg a => a.name.getD ""
  | param p => p.name
  | staticVar v | property v => v.name
  | catching c => c.var.getD ""
  | function f => f.name
  | cls c => c.name
  | member m => m.form
  | constItem c => c.name
  | adaptation a => a.form
  | name n => n.text
  | arrayItem _ | matchArm _ | case _ => ""

def event (n : Node) : String :=
  if n.label.isEmpty then n.place.label else n.place.label ++ " " ++ n.label

def events (pruned : List Place) (body : List Stmt) : List String :=
  ((statements body).preorder fun n => !pruned.contains n.place).map event

def names (body : List Stmt) : List String :=
  ((statements body).preorder fun _ => true).filterMap fun
    | name n => some n.text
    | _ => none

end Node

end ConstExpr
