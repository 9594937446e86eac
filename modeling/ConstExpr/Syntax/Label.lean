import ConstExpr.Syntax.Tree

/-!
The names of operators, kinds and forms in dumps and in reports of a traversal, with the list of
members of each enumeration that is read by name.
-/

namespace ConstExpr

def NameKind.label : NameKind → String
  | unqualified => "Unqualified"
  | qualified => "Qualified"
  | fullyQualified => "FullyQualified"
  | relative => "Relative"

def BinaryOp.label : BinaryOp → String
  | arith .add => "Plus"
  | arith .sub => "Minus"
  | arith .mul => "Mul"
  | arith .div => "Div"
  | arith .pow => "Pow"
  | modulo => "Mod"
  | concat => "Concat"
  | relation .equal => "EqEq"
  | relation .identical => "EqEqEq"
  | relation .notEqual => "NotEq"
  | relation .notIdentical => "NotEqEq"
  | relation .less => "Lt"
  | relation .lessEqual => "LtEq"
  | relation .greater => "Gt"
  | relation .greaterEqual => "GtEq"
  | spaceship => "Spaceship"
  | logic .and => "And"
  | logic .or => "Or"
  | logic .lowAnd => "LogicalAnd"
  | logic .lowOr => "LogicalOr"
  | logic .lowXor => "LogicalXor"
  | mask .and => "BitAnd"
  | mask .or => "BitOr"
  | mask .xor => "BitXor"
  | shiftLeft => "ShiftLeft"
  | shiftRight => "ShiftRight"
  | coalesce => "Coalesce"
  | instanceOf => "Instanceof"

def BinaryOp.all : List BinaryOp :=
  [.add, .sub, .mul, .div, .pow].map arith ++
  [.equal, .identical, .notEqual, .notIdentical, .less, .lessEqual, .greater, .greaterEqual].map
    relation ++
  [.and, .or, .lowAnd, .lowOr, .lowXor].map logic ++
  [.and, .or, .xor].map mask ++
  [modulo, concat, spaceship, shiftLeft, shiftRight, coalesce, instanceOf]

def UnaryOp.label : UnaryOp → String
  | plus => "Plus"
  | minus => "Minus"
  | not => "Not"
  | bitNot => "BitNot"
  | increment => "PreInc"
  | decrement => "PreDec"
  | silence => "ErrorSuppress"

def UnaryOp.all : List UnaryOp := [plus, minus, not, bitNot, increment, decrement, silence]

def CastKind.label : CastKind → String
  | int => "Int"
  | bool => "Bool"
  | float => "Float"
  | string => "String"
  | array => "Array"
  | object => "Object"
  | unset => "Unset"

def CastKind.all : List CastKind := [int, bool, float, string, array, object, unset]

def MagicKind.label : MagicKind → String
  | directory => "Dir"
  | fileName => "File"
  | lineNumber => "Line"
  | functionName => "Function"
  | className => "Class"
  | traitName => "Trait"
  | methodName => "Method"
  | namespaceName => "Namespace"
  | propertyName => "Property"

def MagicKind.all : List MagicKind :=
  [directory, fileName, lineNumber, functionName, className, traitName, methodName, namespaceName,
    propertyName]

def IncludeKind.label : IncludeKind → String
  | optional => "Include"
  | optionalOnce => "IncludeOnce"
  | required => "Require"
  | requiredOnce => "RequireOnce"

def IncludeKind.all : List IncludeKind := [optional, optionalOnce, required, requiredOnce]

def UseKind.label : UseKind → String
  | normal => "Normal"
  | function => "Function"
  | const => "Const"

def UseKind.all : List UseKind := [normal, function, const]

def ClassKind.label : ClassKind → String
  | cls => "Class"
  | interface => "Interface"
  | trait => "Trait"
  | enum => "Enum"

def ClassKind.all : List ClassKind := [cls, interface, trait, enum]

def Modifier.label : Modifier → String
  | publicAccess => "Public"
  | protectedAccess => "Protected"
  | privateAccess => "Private"
  | static => "Static"
  | abstract => "Abstract"
  | final => "Final"
  | readonly => "Readonly"

def Modifier.all : List Modifier :=
  [publicAccess, protectedAccess, privateAccess, static, abstract, final, readonly]

def NameKind.all : List NameKind := [unqualified, qualified, fullyQualified, relative]

def SpecialClass.label : SpecialClass → String
  | self => "SelfClass"
  | parent => "Parent"
  | static => "Static"

def Expr.form : Expr → String
  | .assign .. => "Assign"
  | .assignOp .. => "AssignOp"
  | .binary .. => "Binary"
  | .unary .. => "Unary"
  | .postIncrement .. => "PostInc"
  | .postDecrement .. => "PostDec"
  | .call .. => "Call"
  | .array .. => "Array"
  | .index .. => "ArrayDimFetch"
  | .property .. => "PropertyFetch"
  | .methodCall .. => "MethodCall"
  | .staticCall .. => "StaticCall"
  | .classConstant .. => "ClassConstFetch"
  | .constant .. => "ConstFetch"
  | .new .. => "New"
  | .var .. => "Variable"
  | .int .. => "Integer"
  | .float .. => "Float"
  | .string .. => "String"
  | .interpolated .. => "InterpolatedString"
  | .magic .. => "MagicConst"
  | .ternary .. => "Ternary"
  | .matchArms .. => "Match"
  | .cast .. => "Cast"
  | .isset .. => "Isset"
  | .empty .. => "Empty"
  | .closure .. => "Closure"
  | .arrow .. => "ArrowFunction"
  | .anonymousClass .. => "AnonymousClass"
  | .print .. => "Print"
  | .includeFile .. => "Include"
  | .malformed .. => "Error"

def Stmt.form : Stmt → String
  | .echo .. => "Echo"
  | .ret .. => "Return"
  | .branch .. => "If"
  | .whileLoop .. => "While"
  | .doWhile .. => "DoWhile"
  | .forLoop .. => "For"
  | .foreach .. => "Foreach"
  | .block .. => "Block"
  | .function .. => "Function"
  | .cls .. => "ClassLike"
  | .namespaceBlock .. => "Namespace"
  | .use .. => "Use"
  | .switch .. => "Switch"
  | .tryCatch .. => "Try"
  | .throw .. => "Throw"
  | .const .. => "Const"
  | .breakLoop .. => "Break"
  | .continueLoop .. => "Continue"
  | .global .. => "Global"
  | .static .. => "Static"
  | .unset .. => "Unset"
  | .expr .. => "Expression"
  | .inlineHtml .. => "InlineHtml"
  | .nop .. => "Nop"

def Member.form : Member → String
  | .property .. => "Property"
  | .method .. => "Method"
  | .const .. => "Const"
  | .traitUse .. => "TraitUse"
  | .enumCase .. => "Case"

def Adaptation.form : Adaptation → String
  | .precedence .. => "Precedence"
  | .relabel .. => "Alias"

end ConstExpr
