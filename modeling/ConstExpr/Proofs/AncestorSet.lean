import ConstExpr.Evaluation.Constant
import ConstExpr.Proofs.Run
import Mathlib.Data.Finset.Dedup
import Mathlib.Data.Finset.Erase
import Mathlib.Data.Finset.Basic

/-!
Walks through the ancestors of a class that share one set of names: each class puts its name in and
takes it out again when it is done. Such a walk does what the walk does that hands the names down,
and however it ends the set is as it was before.
-/

namespace ConstExpr

/-- A computation that shares a set of names with those around it. -/
abbrev Tracked := ExceptT Halt (StateM (Memory × Finset String))

namespace Tracked

variable {α β : Type}

def lift (x : Eval α) : Tracked α :=
  ExceptT.mk fun (m, names) => ((x.run m).1, ((x.run m).2, names))

def visit (c : Class) (walk : Tracked α) : Tracked α :=
  ExceptT.mk fun (m, names) =>
    -- the name is put in on the way down and taken out however the walk ends
    if foldCase c.name ∈ names then (.error (.failed (.circularInheritance c.name)), (m, names))
    else
      let (result, (after, left)) := walk.run (m, insert (foldCase c.name) names)
      (result, (after, left.erase (foldCase c.name)))

def firstSome (f : α → Tracked (Option β)) : List α → Tracked (Option β)
  | [] => pure none
  | a :: rest => do
    match ← f a with
    | some b => return some b
    | none => firstSome f rest

/-- The second computation does what the first does, and leaves the names as it found them. -/
def Restores (names : Finset String) (x : Eval α) (y : Tracked α) : Prop :=
  ∀ m, y.run (m, names) = ((x.run m).1, ((x.run m).2, names))

variable {names : Finset String}

theorem restores_pure (a : α) : Restores names (pure a) (pure a) := fun _ => rfl

theorem restores_throw (h : Halt) : Restores names (throw h : Eval α) (throw h) := fun _ => rfl

theorem restores_lift (x : Eval α) : Restores names x (lift x) := fun _ => rfl

theorem Restores.bind {x : Eval α} {y : Tracked α} (here : Restores names x y) {f : α → Eval β}
    {g : α → Tracked β} (later : ∀ a, Restores names (f a) (g a)) :
    Restores names (x >>= f) (y >>= g) := by
  intro m
  have first : y.run (m, names) = ((x.run m).1, ((x.run m).2, names)) := here m
  show StateT.bind (ExceptT.run y) (ExceptT.bindCont g) (m, names) = _
  simp only [StateT.bind]
  rw [first]
  cases result : (x.run m).1 with
  | error h =>
    rw [Eval.run_bind_error result]
    rfl
  | ok a =>
    rw [Eval.run_bind_ok result]
    exact later a _

theorem restores_firstSome {f : α → Eval (Option β)} {g : α → Tracked (Option β)}
    (each : ∀ a, Restores names (f a) (g a)) (members : List α) :
    Restores names (Eval.firstSome f members) (firstSome g members) := by
  induction members with
  | nil => exact restores_pure none
  | cons a rest ih =>
    refine (each a).bind fun found => ?_
    cases found with
    | some b => exact restores_pure (some b)
    | none => exact ih

theorem restores_mapM {f : α → Eval β} {g : α → Tracked β}
    (each : ∀ a, Restores names (f a) (g a)) (members : List α) :
    Restores names (members.mapM f) (members.mapM g) := by
  induction members with
  | nil => exact restores_pure []
  | cons a rest ih =>
    rw [List.mapM_cons, List.mapM_cons]
    exact (each a).bind fun b => ih.bind fun found => restores_pure (b :: found)

theorem restores_climb {path : List String} {c : Class} {f : List String → Eval α} {g : Tracked α}
    (walk : Restores (foldCase c.name :: path).toFinset (f (foldCase c.name :: path)) g) :
    Restores path.toFinset (Registry.climb path c f) (visit c g) := by
  intro m
  by_cases shown : foldCase c.name ∈ path
  · have among : foldCase c.name ∈ path.toFinset := List.mem_toFinset.mpr shown
    simp only [Registry.climb, visit, ExceptT.run_mk, if_pos shown, if_pos among]
    rfl
  · -- the name was not there before, so taking it out takes out nothing else
    have free : foldCase c.name ∉ path.toFinset := fun among => shown (List.mem_toFinset.mp among)
    have inner := walk m
    rw [List.toFinset_cons] at inner
    simp only [Registry.climb, visit, ExceptT.run_mk, if_neg shown, if_neg free]
    rw [inner]
    simp only [Finset.erase_insert free]

end Tracked

namespace Registry

open Tracked

variable {r : Registry}

/-- The search for a constant, with one set of names for the whole walk. -/
def trackedSearch (r : Registry) (evaluator : Evaluator) (name : String) :
    Nat → Class → Tracked (Option Value)
  | 0, _ => throw .outOfFuel
  | fuel + 1, c => visit c do
    match ← lift (ownConstant evaluator c name) with
    | some v => return some v
    | none =>
      let parent ← lift (Eval.ofLookup (r.parent c))
      match ← firstSome (r.trackedSearch evaluator name fuel) parent.toList with
      | some v => return some v
      | none =>
        let interfaces ← lift (Eval.ofLookup (r.interfaces c))
        firstSome (r.trackedSearch evaluator name fuel) (interfaces.map Prod.snd)

def trackedGather (r : Registry) (evaluator : Evaluator) :
    Nat → Class → Tracked (Assoc String Value)
  | 0, _ => throw .outOfFuel
  | fuel + 1, c => visit c do
    let own ← lift (ownConstants evaluator c c.ownConstantNames [])
    let parent ← lift (Eval.ofLookup (r.parent c))
    let interfaces ← lift (Eval.ofLookup (r.interfaces c))
    let inherited ← (parent.toList ++ interfaces.map Prod.snd).mapM (r.trackedGather evaluator fuel)
    return inherited.foldl Assoc.union own

def trackedProperty (r : Registry) (evaluator : Evaluator) (name : String) :
    Nat → Class → Tracked (Option Value)
  | 0, _ => throw .outOfFuel
  | fuel + 1, c => visit c do
    match c.decl?.bind (·.property? name) with
    | some var =>
      match var.default with
      | some e => lift (some <$> r.valueOf evaluator (.cls c) e)
      | none => return some .null
    | none =>
      match ← lift (Eval.ofLookup (r.parent c)) with
      | some p => r.trackedProperty evaluator name fuel p
      | none => return none

variable (evaluator : Evaluator)

theorem search_restores (name : String) (fuel : Nat) (path : List String) (c : Class) :
    Restores path.toFinset (r.searchConstant evaluator name fuel path c)
      (r.trackedSearch evaluator name fuel c) := by
  induction fuel generalizing path c with
  | zero => exact restores_throw .outOfFuel
  | succ fuel ih =>
    refine restores_climb ?_
    refine (restores_lift _).bind fun own => ?_
    cases own with
    | some v => exact restores_pure (some v)
    | none =>
      refine (restores_lift _).bind fun parent => ?_
      refine (restores_firstSome (ih _) parent.toList).bind fun inherited => ?_
      cases inherited with
      | some v => exact restores_pure (some v)
      | none =>
        refine (restores_lift _).bind fun interfaces => ?_
        exact restores_firstSome (ih _) (interfaces.map Prod.snd)

theorem gather_restores (fuel : Nat) (path : List String) (c : Class) :
    Restores path.toFinset (r.gatherConstants evaluator fuel path c)
      (r.trackedGather evaluator fuel c) := by
  induction fuel generalizing path c with
  | zero => exact restores_throw .outOfFuel
  | succ fuel ih =>
    refine restores_climb ?_
    refine (restores_lift _).bind fun own => ?_
    refine (restores_lift _).bind fun parent => ?_
    refine (restores_lift _).bind fun interfaces => ?_
    refine (restores_mapM (ih _) _).bind fun inherited => ?_
    exact restores_pure _

theorem property_restores (name : String) (fuel : Nat) (path : List String) (c : Class) :
    Restores path.toFinset (r.searchProperty evaluator name fuel path c)
      (r.trackedProperty evaluator name fuel c) := by
  induction fuel generalizing path c with
  | zero => exact restores_throw .outOfFuel
  | succ fuel ih =>
    refine restores_climb ?_
    cases c.decl?.bind (·.property? name) with
    | some var =>
      dsimp only
      cases var.default with
      | some e => exact restores_lift _
      | none => exact restores_pure _
    | none =>
      refine (restores_lift _).bind fun parent => ?_
      cases parent with
      | some p => exact ih _ p
      | none => exact restores_pure none

end Registry

end ConstExpr
