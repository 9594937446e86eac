import ConstExpr.Text.Letter

/-!
The directory of a file path.
-/

namespace ConstExpr

/-- The path without its last component and the slashes around it: a slash when nothing is left of
a path that has one in front of it, and a dot for a path of one component. -/
def directory (path : String) : String :=
  let trimmed := trimRight '/' path
  if path.isEmpty then ""
  else if trimmed.isEmpty then "/"
  else
    match splitLast '/' trimmed with
    | none => "."
    | some (before, _) =>
      let parent := trimRight '/' before
      if parent.isEmpty then "/" else parent

end ConstExpr
