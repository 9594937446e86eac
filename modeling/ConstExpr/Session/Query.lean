import ConstExpr.Evaluation.Statics

/-!
Queries about a registry, and their answers.
-/

namespace ConstExpr

/-- A class by name, or one of its own that is not in the registry. -/
inductive ClassSource where
  | named (name : String)
  | declared (name : String) (decl : ClassDecl) (file : Option String)
  | internal (name : String) (kind : ClassKind) (parent : Option String)
      (interfaces : List String) (constants : List (String × Value))

inductive SubjectSource where
  | cls (c : ClassSource)
  | method (c : ClassSource) (name : String)
  -- the class need not declare it
  | anyMethod (c : ClassSource) (name : String)
  | function (name : String)
  | givenFunction (f : Function)
  | space (n : FileNamespace)
  | file (name : String)
  | givenFile (f : SourceFile)

inductive Query where
  | eval (subject : SubjectSource) (e : Expr)
  | process (subject : SubjectSource) (es : List Expr)
  | subject (subject : SubjectSource)
  | cls (c : ClassSource)
  | classDecl (name : String)
  | loadedClass (name : String)
  | lookupClass (name : String)
  | resolveClass (subject : SubjectSource) (name : Name)
  | sameClass (a b : String)
  | parent (c : ClassSource)
  | interfaces (c : ClassSource)
  | traits (c : ClassSource)
  | declInterfaces (d : ClassDecl)
  | declTraits (d : ClassDecl)
  | constant (c : ClassSource) (name : String)
  | constants (c : ClassSource)
  | property (c : ClassSource) (name : String)
  | method (c : ClassSource) (name : String)
  | function (name : String)
  | file (name : String)
  | namespaceConstant (file space name : String)
  | globalConstant (name : String)
  | staticVars (subject : SubjectSource)
  | collectStatics (subject : SubjectSource) (body : List Stmt)
  | param (subject : SubjectSource) (name : String)

inductive Answer where
  | resolution (r : Option Resolution)
  | resolutions (rs : List Resolution)
  | subject (s : Subject)
  | classDecl (d : ClassDecl)
  | className (name : Option String)
  | same (b : Bool)
  | classes (cs : Assoc String Class)
  | traits (cs : Assoc String Class) (adaptations : List Adaptation)
  | value (v : Option Value)
  | values (vs : Assoc String Value)
  | method (m : Option Method)
  | file (f : Option SourceFile)

namespace Registry

def source (r : Registry) : ClassSource → Except Failure Class
  | .named name => r.find name
  | .declared name decl file => .ok (.declared name decl file .detached)
  | .internal name kind parent interfaces constants =>
    .ok (.internal name kind parent interfaces constants)

def subjectOf (r : Registry) : SubjectSource → Except Failure Subject
  | .cls c => .cls <$> r.source c
  | .method c name => do
    match (← r.source c).method? name with
    | some m => return .method m
    | none => .error (.functionNotFound name)
  | .anyMethod c name => return .method ⟨← r.source c, name⟩
  | .function name => .function <$> r.function name
  | .givenFunction f => .ok (.function f)
  | .space n => .ok (.space n)
  | .file name => return .file ((r.file? name).getD ⟨name, []⟩)
  | .givenFile f => .ok (.file f)

def staticsOf (r : Registry) (evaluator : Evaluator) (s : Subject) (body : List Stmt) :
    Eval (Assoc String Value) :=
  staticValues (r.valueOf evaluator s) (staticDeclarations body) []

def callable? : Subject → Option FunctionDecl
  | .function f => some f.decl
  | .method m => m.decl?
  | _ => none

def reply (r : Registry) (evaluator : Evaluator) : Query → Eval Answer
  | .eval subject e => do
    let s ← Eval.ofLookup (r.subjectOf subject)
    let resolution ← r.evaluate evaluator s e
    return .resolution (some resolution)
  | .process subject es => do
    let s ← Eval.ofLookup (r.subjectOf subject)
    let resolutions ← es.mapM (r.evaluate evaluator s)
    return .resolutions resolutions
  | .subject subject => .subject <$> Eval.ofLookup (r.subjectOf subject)
  | .cls c => (.subject <| .cls ·) <$> Eval.ofLookup (r.source c)
  | .classDecl name => .classDecl <$> Eval.ofLookup (r.classDecl name)
  | .loadedClass name => return .className ((r.internal? name).map (·.name))
  | .lookupClass name => (.subject <| .cls ·) <$> Eval.ofLookup (r.findLoaded name)
  | .resolveClass subject name => do
    let s ← Eval.ofLookup (r.subjectOf subject)
    let c ← Eval.ofLookup (r.resolve s name)
    return .subject (.cls c)
  | .sameClass a b => .same <$> Eval.ofLookup (r.sameClass a b)
  | .parent c => do
    let c ← Eval.ofLookup (r.source c)
    let parent ← Eval.ofLookup (r.parent c)
    return .className (parent.map (·.name))
  | .interfaces c => do
    let c ← Eval.ofLookup (r.source c)
    .classes <$> Eval.ofLookup (r.interfaces c)
  | .traits c => do
    let c ← Eval.ofLookup (r.source c)
    .classes <$> Eval.ofLookup (r.traits c)
  | .declInterfaces d => .classes <$> Eval.ofLookup (r.declInterfaces d)
  | .declTraits d => do
    let traits ← Eval.ofLookup (r.declTraits d)
    return .traits traits d.adaptations
  | .constant c name => do
    let c ← Eval.ofLookup (r.source c)
    .value <$> r.searchConstant evaluator name r.hierarchyBound [] c
  | .constants c => do
    let c ← Eval.ofLookup (r.source c)
    .values <$> r.gatherConstants evaluator r.hierarchyBound [] c
  | .property c name => do
    let c ← Eval.ofLookup (r.source c)
    .value <$> r.searchProperty evaluator (trimLeft '$' name) r.hierarchyBound [] c
  | .method c name => do
    let c ← Eval.ofLookup (r.source c)
    return .method (c.method? name)
  | .function name => (.subject <| .function ·) <$> Eval.ofLookup (r.function name)
  | .file name => return .file (r.file? name)
  | .namespaceConstant file space name =>
    .value <$> r.namespaceConstant evaluator (.of file space name)
  | .globalConstant name => .value <$> r.globalConstant evaluator name
  | .staticVars subject => do
    let s ← Eval.ofLookup (r.subjectOf subject)
    match callable? s with
    | some decl => .values <$> r.staticsOf evaluator s decl.body
    | none => return .values []
  | .collectStatics subject body => do
    let s ← Eval.ofLookup (r.subjectOf subject)
    .values <$> r.staticsOf evaluator s body
  | .param subject name => do
    let s ← Eval.ofLookup (r.subjectOf subject)
    match (callable? s).bind (defaultOf? ·.params name) with
    | some e => (.resolution <| some ·) <$> r.evaluate evaluator s e
    | none => return .resolution none

/-- The class that the initializers of a query can mean by `self`. -/
def classAsked (r : Registry) : Query → Option Class
  | .eval subject _ | .process subject _ | .staticVars subject | .collectStatics subject _
  | .param subject _ => (r.subjectOf subject).toOption.bind Subject.class?
  | .constant c _ | .constants c | .property c _ => (r.source c).toOption
  | _ => none

def answer (r : Registry) (q : Query) : Eval Answer :=
  r.reply (r.force (r.depthBound (r.classAsked q))) q

end Registry

end ConstExpr
