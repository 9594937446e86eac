import ConstExpr.Registry.Index
import ConstExpr.Session.Query

/-!
Sessions: queries one after the other over one registry. What was computed for the classes of the
registry is kept from one query to the next; each query has its own warnings.
-/

namespace ConstExpr

structure Outcome where
  result : Except Halt Answer
  warnings : List Warning

/-- What the next query finds: classes that are not in the registry are gone, and so are the notes
of what went wrong. -/
def Memory.settle (m : Memory) : Memory :=
  { m with
    values := m.values.filter fun entry => !entry.1.isDetached
    warnings := []
    dropped := [] }

namespace Registry

/-- Answers one query from what is remembered. -/
def step (r : Registry) (m : Memory) (q : Query) : Outcome × Memory :=
  let (result, after) := (r.answer q).run m
  (⟨result, after.warnings.reverse⟩, after.settle)

/-- What is remembered after queries in turn, with nothing known at first. -/
def after (r : Registry) (queries : List Query) : Memory :=
  queries.foldl (fun m q => (r.step m q).2) {}

def runFrom (r : Registry) (m : Memory) : List Query → List Outcome
  | [] => []
  | q :: rest =>
    let (outcome, next) := r.step m q
    outcome :: r.runFrom next rest

def run (r : Registry) (queries : List Query) : List Outcome := r.runFrom {} queries

end Registry

/-- The file that an expression belongs to when no subject is given; it has the global namespace
only. -/
def bootstrap : SourceFile := ⟨"/src/bootstrap.php", [""]⟩

end ConstExpr
