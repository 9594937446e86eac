import ConstExpr.Proofs.Visitor
import Mathlib.Data.List.Basic

/-!
Pruning. A visitor logs every node it is called at and walks on below it, except below nodes of the
pruned kinds. Main statement: its log is the log without pruning, less the block that directly
follows each remaining node of a pruned kind and was logged by the walk below that node.
-/

namespace ConstExpr

namespace Visitor

/-- Every hook logs its node and then walks below it, unless nodes of its kind are pruned. -/
def Logs (v : Visitor (StateM (List Node))) (pruned : List Place) : Prop :=
  ∀ n, v.visit n = do
    modify (· ++ [n])
    unless n.place ∈ pruned do v.walk n

variable (v : Visitor (StateM (List Node)))

/-- What is logged from the call of the hook for a node to its end. -/
def visitLog (n : Node) : List Node := ((v.visit n).run []).2

/-- What is logged by the walk below a node. -/
def walkLog (n : Node) : List Node := ((v.walk n).run []).2

def uniform {m : Type → Type} (act : Node → m Unit) : Visitor m where
  statements body := act (.statements body)
  stmt s := act (.stmt s)
  expr e := act (.expr e)
  arg a := act (.arg a)
  arrayItem i := act (.arrayItem i)
  param p := act (.param p)
  staticVar d := act (.staticVar d)
  matchArm a := act (.matchArm a)
  case c := act (.case c)
  catching c := act (.catching c)
  function f := act (.function f)
  cls c := act (.cls c)
  member d := act (.member d)
  constItem c := act (.constItem c)
  adaptation a := act (.adaptation a)
  property d := act (.property d)
  name n := act (.name n)

theorem visit_uniform {m : Type → Type} [Monad m] (act : Node → m Unit) (n : Node) :
    (uniform act).visit n = act n := by
  cases n <;> rfl

end Visitor

namespace Node

def descends (pruned : List Place) (n : Node) : Bool := !pruned.contains n.place

theorem descends_eq_true_iff {pruned : List Place} {n : Node} :
    n.descends pruned = true ↔ n.place ∉ pruned := by
  simp [descends]

end Node

/-- What is left of a list of nodes when after every remaining node of a pruned kind the block that
belongs to it is left out. -/
inductive Cut (pruned : List Place) (block : Node → List Node) : List Node → List Node → Prop where
  | done : Cut pruned block [] []
  | keep {n : Node} {rest kept : List Node} (other : n.place ∉ pruned)
      (later : Cut pruned block rest kept) : Cut pruned block (n :: rest) (n :: kept)
  | prune {n : Node} {rest kept : List Node} (hit : n.place ∈ pruned)
      (later : Cut pruned block rest kept) : Cut pruned block (n :: (block n ++ rest)) (n :: kept)

namespace Cut

variable {pruned : List Place} {block : Node → List Node}

theorem append {full kept full' kept' : List Node} (first : Cut pruned block full kept)
    (second : Cut pruned block full' kept') : Cut pruned block (full ++ full') (kept ++ kept') := by
  induction first with
  | done => exact second
  | keep other later ih => exact .keep other ih
  | prune hit later ih =>
    rw [List.cons_append, List.append_assoc, List.cons_append]
    exact .prune hit ih

theorem flatMap {full kept : Node → List Node} {ns : List Node}
    (each : ∀ n ∈ ns, Cut pruned block (full n) (kept n)) :
    Cut pruned block (ns.flatMap full) (ns.flatMap kept) := by
  induction ns with
  | nil => exact .done
  | cons n rest ih =>
    rw [List.flatMap_cons, List.flatMap_cons]
    exact (each n List.mem_cons_self).append
      (ih fun other member => each other (List.mem_cons_of_mem n member))

theorem of_pruned {n : Node} {full kept : List Node} (cut : Cut pruned block (n :: full) kept)
    (hit : n.place ∈ pruned) :
    ∃ rest later, full = block n ++ rest ∧ kept = n :: later ∧ Cut pruned block rest later := by
  generalize start : n :: full = whole at cut
  cases cut with
  | done => cases start
  | keep other _ =>
    cases start
    exact absurd hit other
  | prune _ later =>
    obtain ⟨rfl, rfl⟩ := List.cons.inj start
    exact ⟨_, _, rfl, rfl, later⟩

theorem unique {full kept other : List Node} (left : Cut pruned block full kept)
    (right : Cut pruned block full other) : kept = other := by
  induction left generalizing other with
  | done => cases right; rfl
  | keep missed later ih =>
    cases right with
    | keep _ later' => rw [ih later']
    | prune hit _ => exact absurd hit missed
  | prune hit later ih =>
    obtain ⟨rest, kept', same, rfl, later'⟩ := right.of_pruned hit
    rw [List.append_cancel_left same] at ih
    rw [ih later']

theorem sublist {full kept : List Node} (cut : Cut pruned block full kept) :
    kept.Sublist full := by
  induction cut with
  | done => exact .slnil
  | keep other later ih => exact ih.cons_cons _
  | prune hit later ih => exact (ih.trans (List.sublist_append_right _ _)).cons_cons _

end Cut

namespace Node

theorem cut_preorder (pruned : List Place) (n : Node) :
    Cut pruned (fun c => c.children.flatMap (preorder fun _ => true)) (n.preorder fun _ => true)
      (n.preorder (descends pruned)) := by
  induction n using children_induction with
  | step n ih =>
    rw [preorder_eq, preorder_eq (descends pruned), if_pos rfl]
    by_cases hit : n.place ∈ pruned
    · have stays : ¬n.descends pruned = true := mt descends_eq_true_iff.mp (not_not_intro hit)
      rw [if_neg stays, ← List.append_nil (n.children.flatMap _)]
      exact .prune hit .done
    · rw [if_pos (descends_eq_true_iff.mpr hit)]
      exact .keep hit (Cut.flatMap ih)

end Node

namespace Visitor

section Run

variable {v : Visitor (StateM (List Node))} {pruned : List Place}

theorem run_forM {listed : Node → List Node} {ns : List Node}
    (each : ∀ n ∈ ns, ∀ log, (v.visit n).run log = ((), log ++ listed n)) (log : List Node) :
    (forM ns v.visit).run log = ((), log ++ ns.flatMap listed) := by
  induction ns generalizing log with
  | nil =>
    rw [List.flatMap_nil, List.append_nil]
    rfl
  | cons n rest ih =>
    have first := each n List.mem_cons_self log
    have later := ih (fun other member => each other (List.mem_cons_of_mem n member))
      (log ++ listed n)
    rw [List.forM_cons, StateT.run_bind, first, List.flatMap_cons, ← List.append_assoc, ← later]
    rfl

theorem run_step {listed : Node → List Node} (n : Node)
    (each : ∀ c ∈ n.children, ∀ log, (v.visit c).run log = ((), log ++ listed c))
    (log : List Node) :
    (do modify (· ++ [n]); unless n.place ∈ pruned do v.walk n : StateM (List Node) Unit).run log =
      ((), log ++ n :: if n.descends pruned then n.children.flatMap listed else []) := by
  by_cases hit : n.place ∈ pruned
  · have stays : ¬n.descends pruned = true := mt Node.descends_eq_true_iff.mp (not_not_intro hit)
    rw [if_neg stays, if_pos hit]
    rfl
  · have below := run_forM each (log ++ [n])
    rw [if_pos (Node.descends_eq_true_iff.mpr hit), if_neg hit, v.walk_eq, StateT.run_bind]
    rw [List.append_assoc, List.singleton_append] at below
    exact below

theorem Logs.run_visit (logs : v.Logs pruned) (n : Node) (log : List Node) :
    (v.visit n).run log = ((), log ++ n.preorder (Node.descends pruned)) := by
  induction n using Node.children_induction generalizing log with
  | step n ih => rw [logs n, Node.preorder_eq, run_step n ih]

theorem Logs.visitLog_eq (logs : v.Logs pruned) (n : Node) :
    v.visitLog n = n.preorder (Node.descends pruned) := by
  rw [visitLog, logs.run_visit]
  rfl

theorem Logs.walkLog_eq (logs : v.Logs pruned) (n : Node) :
    v.walkLog n = n.children.flatMap (Node.preorder (Node.descends pruned)) := by
  rw [walkLog, v.walk_eq, run_forM fun c _ log => logs.run_visit c log]
  rfl

def logging (pruned : List Place) : Visitor (StateM (List Node)) :=
  uniform fun n => modify (· ++ n.preorder (Node.descends pruned))

theorem logging_logs (pruned : List Place) : (logging pruned).Logs pruned := by
  have each (n : Node) (log : List Node) :
      ((logging pruned).visit n).run log = ((), log ++ n.preorder (Node.descends pruned)) := by
    rw [logging, visit_uniform]
    rfl
  intro n
  refine StateT.ext fun log => ?_
  rw [run_step n fun c _ => each c, each, Node.preorder_eq]

/-- With pruning, of the events without it there remain, in their order, all but the blocks that the
walks below the remaining events of the pruned kinds have logged. Nothing else fits, and the texts
of the events are those that are reported. -/
theorem pruning_cuts_subtrees {v w : Visitor (StateM (List Node))} {pruned : List Place}
    (prunes : v.Logs pruned) (walks : w.Logs []) (body : List Stmt) :
    let full := w.visitLog (.statements body)
    let kept := v.visitLog (.statements body)
    Cut pruned w.walkLog full kept ∧
      (∀ other, Cut pruned w.walkLog full other → other = kept) ∧ kept.Sublist full ∧
      full.map Node.event = Node.events [] body ∧
      kept.map Node.event = Node.events pruned body := by
  intro full kept
  have whole : full = (Node.statements body).preorder fun _ => true := walks.visitLog_eq _
  have left : kept = (Node.statements body).preorder (Node.descends pruned) :=
    prunes.visitLog_eq _
  -- the block of an event is what the unpruned walk logs below its node
  have block : w.walkLog = fun n => n.children.flatMap (Node.preorder fun _ => true) :=
    funext walks.walkLog_eq
  have cut : Cut pruned w.walkLog full kept := by
    rw [block, whole, left]
    exact Node.cut_preorder pruned (.statements body)
  refine ⟨cut, fun other same => same.unique cut, cut.sublist, ?_, ?_⟩
  · rw [whole]
    rfl
  · rw [left]
    rfl

end Run

def innerFunction : List Stmt :=
  -- function outer() { function inner() { return A; } } return B;
  let yields (text : String) : Stmt := .ret (some (.constant (.parse text) {})) {}
  let inner : Stmt := .function ⟨"inner", false, [], [yields "A"], {}⟩
  [.function ⟨"outer", false, [], [inner], {}⟩, yields "B"]

theorem innerFunction_cut :
    let v := logging [.function]
    let w := logging []
    v.Logs [.function] ∧ w.Logs [] ∧
      Cut [.function] w.walkLog (w.visitLog (.statements innerFunction))
        (v.visitLog (.statements innerFunction)) ∧
      ((w.visitLog (.statements innerFunction)).map Node.event).length = 13 ∧
      (v.visitLog (.statements innerFunction)).map Node.event =
        ["statements 2", "stmt Function", "function outer", "stmt Return", "expr ConstFetch",
          "name B"] := by
  intro v w
  have prunes : v.Logs [.function] := logging_logs _
  have walks : w.Logs [] := logging_logs _
  -- the inner function is in the block of the outer one and has no event of its own
  obtain ⟨cut, -, -, full, kept⟩ := pruning_cuts_subtrees prunes walks innerFunction
  refine ⟨prunes, walks, cut, ?_, ?_⟩
  · rw [full]
    decide +kernel
  · rw [kept]
    decide +kernel

end Visitor

end ConstExpr
