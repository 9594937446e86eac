import ConstExpr.Proofs.Simulation
import Mathlib.Data.Nat.Find

/-!
Constants by expansion alone: each constant is replaced by its initializer, nothing is remembered
and nothing is in progress. A constant is grounded when some depth of expansion is enough; then
forcing it gives the same result, from every memory that agrees with what expansion gives.
-/

namespace ConstExpr.Registry

variable {r : Registry} {asked : Option Class}

/-- The value of a constant with initializers expanded to a depth. -/
def expand (r : Registry) : Nat → Evaluator
  | 0, _ => throw .outOfFuel
  | depth + 1, k => r.valueOf (r.expand depth) k.subject k.initializer

def outcome (r : Registry) (depth : Nat) (k : LazyConstant) : Except Halt Value :=
  ((r.expand depth k).run {}).1

def refinement (r : Registry) : r.Simulation where
  Rel x y := ∀ m m' : Memory, (x.run m).1 ≠ .error .outOfFuel → (y.run m').1 = (x.run m).1
  ofPure a m m' _ := rfl
  ofBind {_ _ x y f g} here later m m' going := by
    cases first : (x.run m).1 with
    | error h =>
      rw [Eval.run_bind_error first] at going ⊢
      have second : (y.run m').1 = .error h := first ▸ here m m' (by simpa [first] using going)
      rw [Eval.run_bind_error second]
    | ok a =>
      rw [Eval.run_bind_ok first] at going ⊢
      have second : (y.run m').1 = .ok a := first ▸ here m m' (by simp [first])
      rw [Eval.run_bind_ok second]
      exact later a _ _ going
  ofFail f m m' _ := rfl
  ofLogged x m m' _ := rfl
  ofOrNone {x y _} _ here m m' going := by
    rcases first : (x.run m).1 with (f | _) | o
    · have second : (y.run m').1 = .error (.failed f) := first ▸ here m m' (by simp [first])
      rw [Eval.run_orNone_failed first, Eval.run_orNone_failed second]
    · rw [Eval.run_orNone_outOfFuel first] at going
      exact absurd rfl going
    · have second : (y.run m').1 = .ok o := first ▸ here m m' (by simp [first])
      rw [Eval.run_orNone_ok first, Eval.run_orNone_ok second]

theorem expand_refines (depth extra : Nat) {k : LazyConstant} (declared : r.Declares asked k) :
    r.refinement.Rel (r.expand depth k) (r.expand (depth + extra) k) := by
  induction depth generalizing k with
  | zero => exact fun m m' going => absurd rfl going
  | succ depth ih =>
    rw [Nat.succ_add]
    exact r.refinement.valueOf (fun _ other => ih other) declared.places k.initializer

theorem expand_run (depth : Nat) {k : LazyConstant} (declared : r.Declares asked k) (m : Memory) :
    ((r.expand depth k).run m).1 = r.outcome depth k := by
  have alike := expand_refines depth 0 declared
  by_cases going : r.outcome depth k = .error .outOfFuel
  · rw [going]
    by_contra ends
    exact ends ((alike m {} ends).symm.trans going)
  · exact alike {} m going

theorem outcome_mono {shallow deep : Nat} (more : shallow ≤ deep) {k : LazyConstant}
    (declared : r.Declares asked k) (ends : r.outcome shallow k ≠ .error .outOfFuel) :
    r.outcome deep k = r.outcome shallow k := by
  obtain ⟨extra, rfl⟩ := Nat.exists_eq_add_of_le more
  exact expand_refines shallow extra declared {} {} ends

def Grounded (r : Registry) (k : LazyConstant) : Prop :=
  ∃ depth, r.outcome depth k ≠ .error .outOfFuel

open Classical in
noncomputable def limit (r : Registry) (k : LazyConstant) : Except Halt Value :=
  if grounded : r.Grounded k then r.outcome grounded.choose k else .error .outOfFuel

theorem limit_eq {depth : Nat} {k : LazyConstant} (declared : r.Declares asked k)
    (ends : r.outcome depth k ≠ .error .outOfFuel) : r.limit k = r.outcome depth k := by
  have grounded : r.Grounded k := ⟨depth, ends⟩
  rw [limit, dif_pos grounded]
  rcases Nat.le_total grounded.choose depth with more | less
  · exact (outcome_mono more declared grounded.choose_spec).symm
  · exact outcome_mono less declared ends

theorem limit_eq_outOfFuel {k : LazyConstant} (stuck : ¬r.Grounded k) :
    r.limit k = .error .outOfFuel := by
  rw [limit, dif_neg stuck]

theorem Grounded.limit_ne {k : LazyConstant} (grounded : r.Grounded k) :
    r.limit k ≠ .error .outOfFuel := by
  rw [limit, dif_pos grounded]
  exact grounded.choose_spec

theorem grounded_of_limit {k : LazyConstant} {v : Value} (value : r.limit k = .ok v) :
    r.Grounded k := by
  by_contra stuck
  rw [limit_eq_outOfFuel stuck] at value
  cases value

theorem outcome_eq_outOfFuel {k : LazyConstant} (stuck : ¬r.Grounded k) (depth : Nat) :
    r.outcome depth k = .error .outOfFuel := by
  by_contra ends
  exact stuck ⟨depth, ends⟩

theorem exists_enough {k : LazyConstant} (declared : r.Declares asked k) :
    ∃ enough, ∀ depth, enough ≤ depth → r.outcome depth k = r.limit k := by
  by_cases grounded : r.Grounded k
  · obtain ⟨enough, ends⟩ := grounded
    refine ⟨enough, fun depth more => ?_⟩
    rw [outcome_mono more declared ends, limit_eq declared ends]
  · refine ⟨0, fun depth _ => ?_⟩
    rw [limit_eq_outOfFuel grounded, outcome_eq_outOfFuel grounded]

theorem exists_depth (coherent : r.Coherent) (asked : Option Class) :
    ∃ depth, ∀ k, r.Declares asked k → r.outcome depth k = r.limit k := by
  have each : ∀ constants : List LazyConstant, ∃ enough, ∀ k ∈ constants, r.Declares asked k →
      ∀ depth, enough ≤ depth → r.outcome depth k = r.limit k := by
    intro constants
    induction constants with
    | nil => exact ⟨0, by simp⟩
    | cons first rest ih =>
      obtain ⟨later, others⟩ := ih
      by_cases declared : r.Declares asked first
      · obtain ⟨own, here⟩ := exists_enough declared
        refine ⟨max own later, fun k member known depth more => ?_⟩
        rcases List.mem_cons.mp member with rfl | inside
        · exact here depth (by omega)
        · exact others k inside known depth (by omega)
      · refine ⟨later, fun k member known depth more => ?_⟩
        rcases List.mem_cons.mp member with rfl | inside
        · exact absurd known declared
        · exact others k inside known depth more
  -- evaluation comes across finitely many constants, so one depth is enough for all
  obtain ⟨enough, all⟩ := each (r.lazyConstants asked)
  exact ⟨enough, fun k declared =>
    all k (declared.mem_lazyConstants coherent) declared enough (Nat.le_refl _)⟩

def Agrees (r : Registry) (asked : Option Class) (m : Memory) : Prop :=
  ∀ k, r.Declares asked k → r.Grounded k → ∀ v, Assoc.get? m.values k.slot = some v →
    r.limit k = .ok v

/-- No constant in progress is grounded at a depth. -/
def Clear (r : Registry) (asked : Option Class) (depth : Nat) (m : Memory) : Prop :=
  ∀ k, r.Declares asked k → k.slot ∈ m.pending → r.outcome depth k = .error .outOfFuel

def Adds (r : Registry) (asked : Option Class) (before after : Memory) : Prop :=
  ∀ slot v, Assoc.get? after.values slot = some v → Assoc.get? before.values slot = some v ∨
    ∃ k, r.Declares asked k ∧ k.slot = slot ∧ r.limit k = .ok v

theorem Adds.refl (m : Memory) : r.Adds asked m m := fun _ _ known => .inl known

theorem Adds.trans {first second third : Memory} (one : r.Adds asked first second)
    (two : r.Adds asked second third) : r.Adds asked first third := by
  intro slot v known
  rcases two slot v known with earlier | new
  · exact one slot v earlier
  · exact .inr new

theorem Adds.finish {before after : Memory} (adds : r.Adds asked before after) {k : LazyConstant}
    (declared : r.Declares asked k) {result : Except Halt Value}
    (value : ∀ v, result = .ok v → r.limit k = .ok v) :
    r.Adds asked before (after.finish k.slot result) := by
  cases result with
  | error h => exact adds
  | ok v =>
    intro slot w known
    by_cases own : slot = k.slot
    · subst own
      obtain rfl : v = w := by simpa [Memory.finish, Assoc.get?_put_self] using known
      exact .inr ⟨k, declared, rfl, value v rfl⟩
    · exact adds slot w (by simpa [Memory.finish, Assoc.get?_put_of_ne _ _ own] using known)

theorem Agrees.adds (coherent : r.Coherent) (admits : r.Admits asked) {before after : Memory}
    (agrees : r.Agrees asked before) (adds : r.Adds asked before after) :
    r.Agrees asked after := by
  intro k declared grounded v known
  rcases adds _ v known with earlier | ⟨other, there, same, value⟩
  · exact agrees k declared grounded v earlier
  · rwa [declared.eq_of_slot coherent admits there same.symm]

theorem Adds.agrees (coherent : r.Coherent) (admits : r.Admits asked) {m : Memory}
    (faithful : r.Adds asked {} m) : r.Agrees asked m :=
  Agrees.adds coherent admits (fun _ _ _ _ no => by cases no) faithful

/-- Where nothing in progress is grounded at the depth that the second computation expands to, the
first one gives the same result and adds only values that expansion gives. -/
def grounding (r : Registry) (coherent : r.Coherent) {asked : Option Class}
    (admits : r.Admits asked) (depth : Nat) : r.Simulation where
  Rel x y := ∀ m m' : Memory, r.Agrees asked m → r.Clear asked depth m →
    (x.run m).1 ≠ .error .outOfFuel → (y.run m').1 ≠ .error .outOfFuel →
    (x.run m).1 = (y.run m').1 ∧ r.Adds asked m (x.run m).2 ∧ (x.run m).2.pending = m.pending
  ofPure a m m' _ _ _ _ := ⟨rfl, .refl m, rfl⟩
  ofBind {_ _ x y f g} here later m m' agrees clear going ends := by
    obtain ⟨same, adds, kept⟩ :=
      here m m' agrees clear (Eval.going_of_bind going) (Eval.going_of_bind ends)
    cases first : (x.run m).1 with
    | error h =>
      rw [Eval.run_bind_error first, Eval.run_bind_error (same ▸ first)]
      exact ⟨rfl, adds, kept⟩
    | ok a =>
      rw [Eval.run_bind_ok first] at going ⊢
      rw [Eval.run_bind_ok (same ▸ first)] at ends ⊢
      have clear' : r.Clear asked depth (x.run m).2 := by
        intro k declared started
        exact clear k declared (kept ▸ started)
      obtain ⟨same', adds', kept'⟩ :=
        later a _ _ (agrees.adds coherent admits adds) clear' going ends
      exact ⟨same', adds.trans adds', kept'.trans kept⟩
  ofFail f m m' _ _ _ _ := ⟨rfl, .refl m, rfl⟩
  ofLogged x m m' _ _ _ _ := ⟨rfl, .refl m, rfl⟩
  ofOrNone {x y _} _ here m m' agrees clear going ends := by
    obtain ⟨same, adds, kept⟩ :=
      here m m' agrees clear (Eval.going_of_orNone going) (Eval.going_of_orNone ends)
    rcases first : (x.run m).1 with (f | _) | o
    · rw [Eval.run_orNone_failed first, Eval.run_orNone_failed (same ▸ first)]
      exact ⟨rfl, adds, kept⟩
    · exact absurd first (Eval.going_of_orNone going)
    · rw [Eval.run_orNone_ok first, Eval.run_orNone_ok (same ▸ first)]
      exact ⟨rfl, adds, kept⟩

/-- Forcing a constant that is grounded gives what its expansion comes to: the constants it needs
are grounded at a lesser depth than itself, so none of them is in progress. -/
theorem force_grounded (coherent : r.Coherent) (admits : r.Admits asked) (fuel depth : Nat)
    {k : LazyConstant} (declared : r.Declares asked k) :
    (r.grounding coherent admits depth).Rel (r.force fuel k) (r.expand depth k) := by
  induction fuel generalizing depth k with
  | zero => exact fun m m' _ _ going _ => absurd rfl going
  | succ fuel ih =>
    intro m m' agrees clear going ends
    rw [expand_run depth declared] at ends ⊢
    have value := limit_eq declared ends
    simp only [force] at going ⊢
    cases known : Assoc.get? m.values k.slot with
    | some v =>
      rw [Eval.run_memoize_known known]
      exact ⟨by rw [← value, agrees k declared ⟨depth, ends⟩ v known], .refl m, rfl⟩
    | none =>
      have fresh : k.slot ∉ m.pending := fun started => ends (clear k declared started)
      -- the least depth that is enough for the constant leaves one less for its initializer
      have some : ∃ least, r.outcome least k ≠ .error .outOfFuel := ⟨depth, ends⟩
      classical
      obtain ⟨least, enough, minimal⟩ := Nat.findX some
      cases least with
      | zero => exact absurd rfl enough
      | succ inner =>
        -- so neither the constant itself nor one in progress is grounded there
        have clear' : r.Clear asked inner (m.start k.slot) := by
          intro other there started
          rcases List.mem_cons.mp started with own | old
          · rw [there.eq_of_slot coherent admits declared own]
            exact not_not.mp (minimal inner (Nat.lt_succ_self inner))
          · by_contra early
            have late := clear other there old
            have below : inner ≤ depth := by
              by_contra above
              exact minimal depth (by omega) ends
            rw [outcome_mono below there early] at late
            exact early late
        have expanded : ((r.valueOf (r.expand inner) k.subject k.initializer).run {}).1 =
            r.outcome depth k := (limit_eq declared enough).symm.trans value
        rw [Eval.run_memoize_start known fresh] at going ⊢
        obtain ⟨same, adds, kept⟩ := (r.grounding coherent admits inner).valueOf
          (fun _ other => ih inner other) declared.places k.initializer (m.start k.slot) {}
          agrees clear' going (expanded ▸ ends)
        rw [expanded] at same
        refine ⟨same, adds.finish declared fun v result => ?_, by simp [kept]⟩
        rw [value, ← same, result]

def AllClear (r : Registry) (asked : Option Class) (m : Memory) : Prop :=
  ∀ k, r.Declares asked k → k.slot ∈ m.pending → ¬r.Grounded k

theorem force_eq_limit (coherent : r.Coherent) (admits : r.Admits asked) {fuel : Nat}
    {k : LazyConstant} (declared : r.Declares asked k) (grounded : r.Grounded k)
    {m : Memory} (agrees : r.Agrees asked m) (clear : r.AllClear asked m)
    (going : ((r.force fuel k).run m).1 ≠ .error .outOfFuel) :
    ((r.force fuel k).run m).1 = r.limit k ∧ r.Adds asked m ((r.force fuel k).run m).2 ∧
      ((r.force fuel k).run m).2.pending = m.pending := by
  obtain ⟨enough, ends⟩ := grounded
  have clear' : r.Clear asked enough m := fun other there started =>
    outcome_eq_outOfFuel (clear other there started) enough
  rw [limit_eq declared ends]
  exact force_grounded coherent admits fuel enough declared m {} agrees clear' going ends

end ConstExpr.Registry
