import ConstExpr.Registry.Basic

/-!
Building a registry. Declarations count at the top of a namespace and inside blocks and branches
there; of two declarations under one key the later one is kept.
-/

namespace ConstExpr

mutual

/-- A statement with blocks and branches opened up. -/
def Stmt.flatten : Stmt → List Stmt
  | .block body _ => flattenAll body
  | .branch _ thenBlock elseBlock _ => flattenAll thenBlock ++ flattenOption elseBlock
  | s => [s]

def flattenAll : List Stmt → List Stmt
  | [] => []
  | s :: rest => s.flatten ++ flattenAll rest

def flattenOption : Option (List Stmt) → List Stmt
  | none => []
  | some body => flattenAll body

end

namespace Registry

def enter (file space : String) (r : Registry) : Stmt → Registry
  | .cls decl =>
    let name := qualify space decl.name
    { r with classes := Assoc.put r.classes (symbolKey name) ⟨name, decl, file⟩ }
  | .function decl =>
    let name := qualify space decl.name
    { r with functions := Assoc.put r.functions (symbolKey name) ⟨name, decl, file⟩ }
  | .const items _ =>
    { r with
      namespaceConstants := items.foldl
        (fun m item => Assoc.put m (.of file space item.name) ⟨space, item.value⟩)
        r.namespaceConstants }
  | _ => r

def openNamespace (file space : String) (r : Registry) : Registry :=
  let known := (Assoc.get? r.files file).getD []
  -- the first spelling stays
  if known.any (sameIgnoringCase · space) then r
  else { r with files := Assoc.put r.files file (known ++ [space]) }

def enterNamespace (file space : String) (body : List Stmt) (r : Registry) : Registry :=
  (flattenAll body).foldl (enter file space) (r.openNamespace file space)

def enterFile (r : Registry) (file : String) (statements : List Stmt) : Registry :=
  let known := { r with files := Assoc.putNew r.files file [] }
  let spaced := statements.foldl (fun r s =>
    match s with
    | .namespaceBlock name body _ =>
      r.enterNamespace file ((name.map Name.text).getD "") body
    | _ => r) known
  -- what stands outside of all namespaces comes after them
  let outside := statements.filter fun
    | .namespaceBlock .. => false
    | _ => true
  if outside.isEmpty then spaced else spaced.enterNamespace file "" outside

def build (predefined builtin : Bool) (constants : List (String × Value))
    (files : List (String × List Stmt)) : Registry :=
  let start : Registry :=
    -- constants given by value take the place of predefined ones
    { constants := Assoc.putAll (if predefined then Builtin.constants else []) constants
      internals :=
        if builtin then Assoc.ofPairs (Builtin.classes.map fun c => (symbolKey c.name, c)) else [] }
  files.foldl (fun r (file, statements) => r.enterFile file statements) start

end Registry

end ConstExpr
