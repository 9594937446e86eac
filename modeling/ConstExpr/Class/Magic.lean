import ConstExpr.Class.Subject
import ConstExpr.Text.Directory

/-!
Magic constants: their values follow from the subject, and the line from the position.
-/

namespace ConstExpr

def MagicKind.value (kind : MagicKind) (span : Span) (subject : Subject) : Value :=
  -- what the subject does not have is the empty text
  match kind with
  | lineNumber => .int (Int64.ofNat span.startLine)
  | fileName => .text (subject.file?.getD "")
  | directory => .text ((subject.file?.map ConstExpr.directory).getD "")
  | namespaceName => .text subject.namespaceName
  | className => .text ((subject.class?.map (·.name)).getD "")
  | traitName =>
    match subject with
    | .cls c => .text (if c.kind = .trait then c.name else "")
    | _ => .text ""
  | functionName =>
    match subject with
    | .function f => .text f.name
    | .method m => .text m.name
    | _ => .text ""
  | methodName =>
    match subject with
    | .method m => .text (m.owner.name ++ "::" ++ m.name)
    | _ => .text ""
  | propertyName => .text ""

end ConstExpr
