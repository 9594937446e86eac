import ConstExpr.Evaluation.Memory

/-!
What the building blocks of evaluation do to memory, one fact for each way a step can go.
-/

namespace ConstExpr

namespace Memory

def start (m : Memory) (slot : Slot) : Memory := { m with pending := slot :: m.pending }

def finish (m : Memory) (slot : Slot) : Except Halt Value → Memory
  | .ok v => { m with pending := m.pending.erase slot, values := Assoc.put m.values slot v }
  | .error _ => { m with pending := m.pending.erase slot }

variable (m : Memory) (slot : Slot) (result : Except Halt Value)

@[simp] theorem start_values : (m.start slot).values = m.values := rfl

@[simp] theorem start_pending : (m.start slot).pending = slot :: m.pending := rfl

@[simp] theorem start_dropped : (m.start slot).dropped = m.dropped := rfl

@[simp] theorem finish_pending : (m.finish slot result).pending = m.pending.erase slot := by
  cases result <;> rfl

@[simp] theorem finish_dropped : (m.finish slot result).dropped = m.dropped := by
  cases result <;> rfl

end Memory

namespace Eval

variable {α β : Type}

@[simp] theorem run_pure (a : α) (m : Memory) : (pure a : Eval α).run m = (.ok a, m) := rfl

@[simp] theorem run_throw (h : Halt) (m : Memory) :
    (throw h : Eval α).run m = (.error h, m) := rfl

@[simp] theorem run_fail (f : Failure) (m : Memory) :
    (fail f : Eval α).run m = (.error (.failed f), m) := rfl

@[simp] theorem run_logged (x : Logged α) (m : Memory) :
    (logged x).run m = (.ok x.value, { m with warnings := x.warnings.reverse ++ m.warnings }) := rfl

theorem run_bind_ok {x : Eval α} {m : Memory} {a : α} (first : (x.run m).1 = .ok a)
    (f : α → Eval β) : (x >>= f).run m = (f a).run (x.run m).2 := by
  show StateT.bind (ExceptT.run x) (ExceptT.bindCont f) m = _
  simp only [StateT.bind]
  rw [show x.run m = (.ok a, (x.run m).2) from Prod.ext first rfl]
  rfl

theorem run_bind_error {x : Eval α} {m : Memory} {h : Halt} (first : (x.run m).1 = .error h)
    (f : α → Eval β) : (x >>= f).run m = (.error h, (x.run m).2) := by
  show StateT.bind (ExceptT.run x) (ExceptT.bindCont f) m = _
  simp only [StateT.bind]
  rw [show x.run m = (.error h, (x.run m).2) from Prod.ext first rfl]
  rfl

theorem going_of_bind {x : Eval α} {f : α → Eval β} {m : Memory}
    (going : ((x >>= f).run m).1 ≠ .error .outOfFuel) : (x.run m).1 ≠ .error .outOfFuel :=
  fun stuck => going (by rw [run_bind_error stuck])

theorem map_eq_bind (f : α → β) (x : Eval α) : f <$> x = x >>= fun a => pure (f a) := rfl

/-- A computation in steps has a value only if each step has one. -/
theorem ok_of_bind {x : Eval α} {f : α → Eval β} {m : Memory} {b : β}
    (done : ((x >>= f).run m).1 = .ok b) :
    ∃ a, (x.run m).1 = .ok a ∧ ((f a).run (x.run m).2).1 = .ok b := by
  cases first : (x.run m).1 with
  | error h =>
    rw [run_bind_error first] at done
    cases done
  | ok a =>
    rw [run_bind_ok first] at done
    exact ⟨a, rfl, done⟩

theorem ok_of_map {x : Eval α} {f : α → β} {m : Memory} {b : β}
    (done : ((f <$> x).run m).1 = .ok b) : ∃ a, (x.run m).1 = .ok a ∧ f a = b := by
  obtain ⟨a, first, same⟩ := ok_of_bind done
  exact ⟨a, first, Except.ok.inj same⟩

theorem run_map (f : α → β) (x : Eval α) (m : Memory) :
    (f <$> x).run m = ((x.run m).1.map f, (x.run m).2) := by
  rw [map_eq_bind]
  cases first : (x.run m).1 with
  | error h => rw [run_bind_error first]; rfl
  | ok a => rw [run_bind_ok first]; rfl

theorem run_map_ok {x : Eval α} {m : Memory} {a : α} (first : (x.run m).1 = .ok a) (f : α → β) :
    ((f <$> x).run m).1 = .ok (f a) := by
  rw [run_map, first]
  rfl

theorem ok_of_bind_lookup {x : Except Failure α} {f : α → Eval β} {m : Memory} {b : β}
    (done : ((ofLookup x >>= f).run m).1 = .ok b) : ∃ a, x = .ok a ∧ ((f a).run m).1 = .ok b := by
  cases x with
  | error failure => cases done
  | ok a => exact ⟨a, rfl, done⟩

theorem warn_eq_logged (w : Warning) : warn w = logged ⟨(), [w]⟩ := rfl

section Memoize

variable {slot : Slot} {cycle : Failure} {compute : Eval Value} {m : Memory}

theorem run_memoize_known {v : Value} (known : Assoc.get? m.values slot = some v) :
    (memoize slot cycle compute).run m = (.ok v, m) := by
  simp only [memoize, ExceptT.run_mk, known]

theorem run_memoize_cycle (unknown : Assoc.get? m.values slot = none) (pending : slot ∈ m.pending) :
    (memoize slot cycle compute).run m = (.error (.failed cycle), m) := by
  simp only [memoize, ExceptT.run_mk, unknown, if_pos pending]

theorem run_memoize_start (unknown : Assoc.get? m.values slot = none) (fresh : slot ∉ m.pending) :
    (memoize slot cycle compute).run m =
      ((compute.run (m.start slot)).1,
        (compute.run (m.start slot)).2.finish slot (compute.run (m.start slot)).1) := by
  simp only [memoize, ExceptT.run_mk, unknown, if_neg fresh, Memory.start]
  rcases compute.run { m with pending := slot :: m.pending } with ⟨h | v, after⟩
  · rfl
  · rfl

end Memoize

section OrNone

variable {x : Eval (Option Value)} {m : Memory}

theorem run_orNone_ok {o : Option Value} (computed : (x.run m).1 = .ok o) :
    (orNone x).run m = (.ok o, (x.run m).2) := by
  simp only [orNone, ExceptT.run_mk]
  rw [show x.run m = (.ok o, (x.run m).2) from Prod.ext computed rfl]

theorem run_orNone_failed {f : Failure} (computed : (x.run m).1 = .error (.failed f)) :
    (orNone x).run m =
      (.ok none, { (x.run m).2 with dropped := f :: (x.run m).2.dropped }) := by
  simp only [orNone, ExceptT.run_mk]
  rw [show x.run m = (.error (.failed f), (x.run m).2) from Prod.ext computed rfl]

theorem run_orNone_outOfFuel (computed : (x.run m).1 = .error .outOfFuel) :
    (orNone x).run m = (.error .outOfFuel, (x.run m).2) := by
  simp only [orNone, ExceptT.run_mk]
  rw [show x.run m = (.error .outOfFuel, (x.run m).2) from Prod.ext computed rfl]

theorem going_of_orNone (going : ((orNone x).run m).1 ≠ .error .outOfFuel) :
    (x.run m).1 ≠ .error .outOfFuel :=
  fun stuck => going (by rw [run_orNone_outOfFuel stuck])

end OrNone

end Eval

end ConstExpr
