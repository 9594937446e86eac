/-!
Failures. Evaluation fails only when a class or function cannot be found, or when a declaration
depends on itself; every other mishap has a value.
-/

namespace ConstExpr

inductive Failure where
  | unresolvableClass (name reason : String)
  | classNotFound (name : String)
  | functionNotFound (name : String)
  | circularInheritance (className : String)
  | selfReferencingConstant (name : String)
deriving DecidableEq

def Failure.message : Failure → String
  | unresolvableClass name reason => "Can not resolve class " ++ name ++ ": " ++ reason
  | classNotFound name => "Class \"" ++ name ++ "\" not found"
  | functionNotFound name => "Function " ++ name ++ "() does not exist"
  | circularInheritance className =>
    "Class " ++ className ++ " cannot extend one of its own descendants"
  | selfReferencingConstant name => "Cannot declare self-referencing constant " ++ name

end ConstExpr
