import ConstExpr.Registry.Basic
import ConstExpr.Warning

/-!
Evaluation remembers the value of every constant it has computed, knows which constants it is in
the middle of computing, and collects warnings. A failure keeps what was remembered up to then.
-/

namespace ConstExpr

inductive Slot where
  | classConstant (home : Home) (name : String)
  | namespaceConstant (key : ConstantKey)
deriving DecidableEq

/-- Whether a constant belongs to a class that is not in the registry. -/
def Slot.isDetached : Slot → Bool
  | classConstant .detached _ => true
  | _ => false

structure Memory where
  values : Assoc Slot Value := []
  -- the constants being computed, the innermost first
  pending : List Slot := []
  -- the latest first, as with the failures that were passed over
  warnings : List Warning := []
  dropped : List Failure := []

inductive Halt where
  | failed (f : Failure)
  | outOfFuel
deriving DecidableEq

abbrev Eval := ExceptT Halt (StateM Memory)

namespace Eval

def fail {α : Type} (f : Failure) : Eval α := throw (.failed f)

def ofLookup {α : Type} : Except Failure α → Eval α
  | .ok a => pure a
  | .error f => fail f

def warn (w : Warning) : Eval Unit :=
  modify fun m => { m with warnings := w :: m.warnings }

def logged {α : Type} (x : Logged α) : Eval α := do
  modify fun m => { m with warnings := x.warnings.reverse ++ m.warnings }
  return x.value

def memoize (slot : Slot) (cycle : Failure) (compute : Eval Value) : Eval Value :=
  ExceptT.mk fun memory =>
    match Assoc.get? memory.values slot with
    | some v => (.ok v, memory)
    | none =>
      -- met again while it is being computed, the constant depends on itself
      if slot ∈ memory.pending then (.error (.failed cycle), memory)
      else
        match compute.run { memory with pending := slot :: memory.pending } with
        | (.ok v, after) =>
          (.ok v, { after with
            pending := after.pending.erase slot
            values := Assoc.put after.values slot v })
        -- a failure leaves it unknown, and it can be tried again
        | (.error h, after) => (.error h, { after with pending := after.pending.erase slot })

/-- Gives no value where a computation fails, and notes the failure. -/
def orNone (x : Eval (Option Value)) : Eval (Option Value) :=
  ExceptT.mk fun memory =>
    match x.run memory with
    | (.error (.failed f), after) => (.ok none, { after with dropped := f :: after.dropped })
    | result => result

def firstSome {α β : Type} (f : α → Eval (Option β)) : List α → Eval (Option β)
  | [] => pure none
  | a :: rest => do
    match ← f a with
    | some b => return some b
    | none => firstSome f rest

end Eval

end ConstExpr
