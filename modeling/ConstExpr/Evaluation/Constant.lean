import ConstExpr.Evaluation.Expr

/-!
Looking constants up. A class constant is searched in the class, then in its parent, then in its
interfaces; a constant of a namespace in the surrounding file first and then by its full name.
Initializers are evaluated on demand by a given evaluator.
-/

namespace ConstExpr

/-- A constant whose value is computed from its initializer when it is first needed. -/
structure LazyConstant where
  slot : Slot
  -- the report when the constant depends on itself
  cycle : Failure
  subject : Subject
  initializer : Expr

/-- Finds the value of a constant that has an initializer. -/
abbrev Evaluator := LazyConstant → Eval Value

namespace Class

def lazyConstant? (c : Class) (name : String) : Option LazyConstant :=
  match c.origin with
  | .internal .. => none
  | .declared decl _ home =>
    (decl.constant? name).map fun item =>
      { slot := .classConstant home name
        cycle := .selfReferencingConstant (c.name ++ "::" ++ name)
        subject := .cls c
        initializer := item.value }

def builtinConstant? (c : Class) (name : String) : Option Value :=
  match c.origin with
  | .internal _ _ constants => Assoc.get? constants name
  | .declared .. => none

end Class

namespace Registry

def ownConstant (evaluator : Evaluator) (c : Class) (name : String) : Eval (Option Value) :=
  match c.lazyConstant? name with
  | some k => some <$> evaluator k
  | none => return c.builtinConstant? name

/-- No path of names without repetition is longer. -/
def hierarchyBound (r : Registry) : Nat := r.classes.length + r.internals.length + 2

/-- Goes on from a class that is not among its own descendants, which are listed by their names
in small letters. -/
def climb {α : Type} (path : List String) (c : Class) (walk : List String → Eval α) : Eval α :=
  if foldCase c.name ∈ path then Eval.fail (.circularInheritance c.name)
  else walk (foldCase c.name :: path)

def consult (r : Registry) (evaluator : Evaluator) (name : String) (c : Class)
    (search : Class → Eval (Option Value)) : Eval (Option Value) := do
  match ← ownConstant evaluator c name with
  | some v => return some v
  | none =>
    -- the interfaces are looked up only when the parent's side has nothing
    let parent ← Eval.ofLookup (r.parent c)
    match ← Eval.firstSome search parent.toList with
    | some v => return some v
    | none =>
      let interfaces ← Eval.ofLookup (r.interfaces c)
      Eval.firstSome search (interfaces.map Prod.snd)

/-- Searches a class and its ancestors for a constant. -/
def searchConstant (r : Registry) (evaluator : Evaluator) (name : String) :
    Nat → List String → Class → Eval (Option Value)
  | 0, _, _ => throw .outOfFuel
  | fuel + 1, path, c =>
    climb path c fun path => r.consult evaluator name c (r.searchConstant evaluator name fuel path)

def ownConstants (evaluator : Evaluator) (c : Class) :
    List String → Assoc String Value → Eval (Assoc String Value)
  | [], known => pure known
  | name :: rest, known => do
    match ← ownConstant evaluator c name with
    | some v => ownConstants evaluator c rest (Assoc.put known name v)
    | none => ownConstants evaluator c rest known

def gatherConstants (r : Registry) (evaluator : Evaluator) :
    Nat → List String → Class → Eval (Assoc String Value)
  | 0, _, _ => throw .outOfFuel
  | fuel + 1, path, c =>
    climb path c fun path => do
      let own ← ownConstants evaluator c c.ownConstantNames []
      let parent ← Eval.ofLookup (r.parent c)
      let interfaces ← Eval.ofLookup (r.interfaces c)
      let inherited ← (parent.toList ++ interfaces.map Prod.snd).mapM
        (r.gatherConstants evaluator fuel path)
      -- nearer constants hide farther ones of the same name
      return inherited.foldl Assoc.union own

def namespaceLazy? (r : Registry) (key : ConstantKey) : Option LazyConstant :=
  (Assoc.get? r.namespaceConstants key).map fun initializer =>
    { slot := .namespaceConstant key
      cycle := .selfReferencingConstant (qualify initializer.space key.name)
      subject := .space (.of key.file initializer.space)
      initializer := initializer.value }

def namespaceConstant (r : Registry) (evaluator : Evaluator) (key : ConstantKey) :
    Eval (Option Value) :=
  match r.namespaceLazy? key with
  | some k => some <$> evaluator k
  | none => return none

def globalConstant (r : Registry) (evaluator : Evaluator) (name : String) : Eval (Option Value) :=
  let name := trimLeft '\\' name
  match Builtin.keyword? name with
  | some v => return some v
  | none =>
    match Assoc.get? r.constants name with
    | some v => return some v
    | none =>
      match r.constantKey? name with
      -- an initializer that fails leaves the constant undefined
      | some key => Eval.orNone (r.namespaceConstant evaluator key)
      | none => return none

def localConstant (r : Registry) (evaluator : Evaluator) (subject : Subject) (name : Name) :
    Eval (Option Value) :=
  if name.isFullyQualified then return none
  else
    match subject.file? with
    | some file => r.namespaceConstant evaluator (.of file subject.namespaceName name.text)
    | none => return none

def constantIn (r : Registry) (evaluator : Evaluator) (subject : Subject) (name : Name) :
    Eval Resolution :=
  match Builtin.keyword? name.text with
  | some v => return { value := v }
  | none => do
    match ← r.localConstant evaluator subject name with
    | some v =>
      return { value := v, constant := some (.resolved (qualify subject.namespaceName name.text)) }
    | none =>
      match ← r.globalConstant evaluator name.text with
      | some v => return { value := v, constant := some (.resolved name.text) }
      -- an undefined constant stands for its own name
      | none => return { value := .text name.text, constant := some (.literal name.text) }

def classConstantIn (r : Registry) (evaluator : Evaluator) (subject : Subject) (cls : Name)
    (name : String) : Eval Resolution :=
  let asksName := sameIgnoringCase name "class"
  -- a fully qualified class is not looked up for its name
  if asksName && cls.isFullyQualified then return { value := .text cls.text }
  else do
    let c ← Eval.ofLookup (r.resolve subject cls)
    if asksName then return { value := .text c.name }
    else
      let reference := ConstantName.resolved (cls.text ++ "::" ++ name)
      match ← r.searchConstant evaluator name r.hierarchyBound [] c with
      | some v => return { value := v, constant := some reference }
      | none =>
        Eval.warn (.undefinedConstant c.name name)
        return { value := .null, constant := some reference }

def scope (r : Registry) (evaluator : Evaluator) (subject : Subject) : Scope where
  constant := r.constantIn evaluator subject
  classConstant := r.classConstantIn evaluator subject
  magic kind span := kind.value span subject

def evaluate (r : Registry) (evaluator : Evaluator) (subject : Subject) (e : Expr) :
    Eval Resolution :=
  e.resolve (r.scope evaluator subject)

def valueOf (r : Registry) (evaluator : Evaluator) (subject : Subject) (e : Expr) : Eval Value :=
  Resolution.value <$> r.evaluate evaluator subject e

def searchProperty (r : Registry) (evaluator : Evaluator) (name : String) :
    Nat → List String → Class → Eval (Option Value)
  | 0, _, _ => throw .outOfFuel
  | fuel + 1, path, c =>
    climb path c fun path => do
      match c.decl?.bind (·.property? name) with
      | some var =>
        match var.default with
        | some e => some <$> r.valueOf evaluator (.cls c) e
        -- a property without default is null, and its class still ends the search
        | none => return some .null
      | none =>
        match ← Eval.ofLookup (r.parent c) with
        | some p => r.searchProperty evaluator name fuel path p
        | none => return none

/-- The value of a constant, from memory or else from its initializer. Each initializer reached on
the way uses up one unit of fuel. -/
def force (r : Registry) : Nat → Evaluator
  | 0, _ => throw .outOfFuel
  | fuel + 1, k => Eval.memoize k.slot k.cycle (r.valueOf (r.force fuel) k.subject k.initializer)

/-- The number of constants with an initializer that evaluation can be in the middle of, those of
`c` included, plus one. -/
def depthBound (r : Registry) (c : Option Class) : Nat :=
  r.namespaceConstants.length +
    (r.classes.flatMap fun (_, entry) => entry.decl.constants).length +
    (c.map fun c => c.ownConstantNames.length).getD 0 + 1

end Registry

end ConstExpr
