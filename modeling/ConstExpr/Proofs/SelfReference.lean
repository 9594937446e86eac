import ConstExpr.Proofs.Expansion
import Mathlib.Data.Set.Basic

/-!
Constants that are not grounded. Evaluation comes to a constant in progress when it tries one, and
fails; unless that failure is passed over on the way, the constant fails with it. So a run that
passes over no such failure is told by an oracle that knows what expansion comes to and lets all
other constants fail at once.
-/

namespace ConstExpr

def Failure.isSelfReference : Failure → Bool
  | selfReferencingConstant _ => true
  | _ => false

/-- How many failures of constants that depend on themselves were passed over. -/
def Memory.masked (m : Memory) : Nat := m.dropped.countP Failure.isSelfReference

@[simp] theorem Memory.masked_start (m : Memory) (slot : Slot) :
    (m.start slot).masked = m.masked := rfl

@[simp] theorem Memory.masked_finish (m : Memory) (slot : Slot) (result : Except Halt Value) :
    (m.finish slot result).masked = m.masked := by
  rw [Memory.masked, Memory.finish_dropped, Memory.masked]

namespace Eval

variable {α β : Type}

/-- The computation ends, and passes over no self-reference. -/
def Calm (x : Eval α) (m : Memory) : Prop :=
  (x.run m).1 ≠ .error .outOfFuel ∧ (x.run m).2.masked = m.masked

def Grows (x : Eval α) : Prop := ∀ m, m.masked ≤ (x.run m).2.masked

theorem Grows.pure (a : α) : (Pure.pure a : Eval α).Grows := fun _ => Nat.le_refl _

theorem Grows.throw (h : Halt) : (MonadExcept.throw h : Eval α).Grows := fun _ => Nat.le_refl _

theorem Grows.fail (f : Failure) : (Eval.fail f : Eval α).Grows := fun _ => Nat.le_refl _

theorem Grows.logged (x : Logged α) : (Eval.logged x).Grows := fun _ => Nat.le_refl _

theorem Grows.bind {x : Eval α} {f : α → Eval β} (here : x.Grows) (later : ∀ a, (f a).Grows) :
    (x >>= f).Grows := by
  intro m
  cases first : (x.run m).1 with
  | error h =>
    rw [run_bind_error first]
    exact here m
  | ok a =>
    rw [run_bind_ok first]
    exact (here m).trans (later a _)

theorem masked_drop (f : Failure) (m : Memory) :
    Memory.masked { m with dropped := f :: m.dropped } =
      m.masked + if f.isSelfReference then 1 else 0 := by
  simp only [Memory.masked, List.countP_cons]

theorem Grows.orNone {x : Eval (Option Value)} (here : x.Grows) : (Eval.orNone x).Grows := by
  intro m
  have inner := here m
  rcases first : (x.run m).1 with (f | _) | o
  · rw [run_orNone_failed first, masked_drop]
    omega
  · rw [run_orNone_outOfFuel first]
    exact inner
  · rw [run_orNone_ok first]
    exact inner

theorem Grows.memoize {slot : Slot} {cycle : Failure} {compute : Eval Value}
    (here : compute.Grows) : (Eval.memoize slot cycle compute).Grows := by
  intro m
  cases known : Assoc.get? m.values slot with
  | some v => rw [run_memoize_known known]
  | none =>
    by_cases started : slot ∈ m.pending
    · rw [run_memoize_cycle known started]
    · rw [run_memoize_start known started, Memory.masked_finish, ← Memory.masked_start m slot]
      exact here _

theorem Calm.of_bind {x : Eval α} {f : α → Eval β} {m : Memory} (here : x.Grows)
    (later : ∀ a, (f a).Grows) (calm : (x >>= f).Calm m) :
    x.Calm m ∧ ∀ a, (x.run m).1 = .ok a → (f a).Calm (x.run m).2 := by
  have going := going_of_bind calm.1
  cases first : (x.run m).1 with
  | error h =>
    rw [Calm, run_bind_error first] at calm
    exact ⟨⟨going, calm.2⟩, by simp⟩
  | ok a =>
    rw [Calm, run_bind_ok first] at calm
    have before := here m
    have after := later a (x.run m).2
    refine ⟨⟨going, by omega⟩, ?_⟩
    rintro _ ⟨⟩
    exact ⟨calm.1, by omega⟩

theorem Calm.bind_error {x : Eval α} {m : Memory} (here : x.Calm m) {h : Halt}
    (first : (x.run m).1 = .error h) (f : α → Eval β) : (x >>= f).Calm m := by
  rw [Calm, run_bind_error first]
  exact ⟨by simpa [first] using here.1, here.2⟩

theorem Calm.bind_ok {x : Eval α} {m : Memory} (here : x.Calm m) {a : α}
    (first : (x.run m).1 = .ok a) {f : α → Eval β} (later : (f a).Calm (x.run m).2) :
    (x >>= f).Calm m := by
  rw [Calm, run_bind_ok first]
  exact ⟨later.1, later.2.trans here.2⟩

theorem Calm.of_orNone {x : Eval (Option Value)} {m : Memory} (here : x.Grows)
    (calm : (Eval.orNone x).Calm m) :
    x.Calm m ∧ ∀ f, (x.run m).1 = .error (.failed f) → f.isSelfReference = false := by
  have before := here m
  have going := going_of_orNone calm.1
  rcases first : (x.run m).1 with (f | _) | o
  · rw [Calm, run_orNone_failed first, masked_drop] at calm
    have plain : f.isSelfReference = false := by
      by_contra self
      simp only [Bool.not_eq_false] at self
      have counted := calm.2
      rw [self, if_pos rfl] at counted
      omega
    have same : (x.run m).2.masked = m.masked := by simpa [plain] using calm.2
    refine ⟨⟨going, same⟩, ?_⟩
    rintro _ ⟨⟩
    exact plain
  · exact absurd first going
  · rw [Calm, run_orNone_ok first] at calm
    exact ⟨⟨going, calm.2⟩, by simp⟩

theorem Calm.orNone {x : Eval (Option Value)} {m : Memory} (here : x.Calm m)
    (plain : ∀ f, (x.run m).1 = .error (.failed f) → f.isSelfReference = false) :
    (Eval.orNone x).Calm m := by
  rcases first : (x.run m).1 with (f | _) | o
  · rw [Calm, run_orNone_failed first, masked_drop, plain f first]
    exact ⟨by simp, here.2⟩
  · exact absurd first here.1
  · rw [Calm, run_orNone_ok first]
    exact ⟨by simp, here.2⟩

end Eval

def SelfReferring {α : Type} (result : Except Halt α) : Prop :=
  ∃ f, result = .error (.failed f) ∧ f.isSelfReference = true

def Alike {α : Type} (one other : Except Halt α) : Prop :=
  one = other ∨ SelfReferring one ∧ SelfReferring other

theorem Alike.eq_ok {α : Type} {a : α} {other : Except Halt α} (alike : Alike (.ok a) other) :
    other = .ok a := by
  rcases alike with same | ⟨⟨f, no, -⟩, -⟩
  · exact same.symm
  · cases no

theorem Alike.eq_error {α : Type} (β : Type) {h : Halt} {other : Except Halt α}
    (alike : Alike (.error h) other) :
    ∃ h', other = .error h' ∧ Alike (.error h : Except Halt β) (.error h') := by
  rcases alike with same | ⟨⟨f, one, self⟩, f', two, self'⟩
  · exact ⟨h, same.symm, .inl rfl⟩
  · cases one
    exact ⟨_, two, .inr ⟨⟨f, rfl, self⟩, f', rfl, self'⟩⟩

theorem Alike.selfReferring {α : Type} {one other : Except Halt α} (alike : Alike one other)
    (self : SelfReferring other) : SelfReferring one := by
  rcases alike with same | ⟨both, -⟩
  · rwa [same]
  · exact both

namespace Registry

variable {r : Registry} {asked : Option Class}

open Classical in
/-- Gives what the expansion of a constant comes to, and lets a constant of a given set fail where
expansion comes to no end. -/
noncomputable def oracle (r : Registry) (doubtful : Set Slot) : Evaluator := fun k =>
  ExceptT.mk fun m =>
    if ¬r.Grounded k ∧ k.slot ∈ doubtful then (.error (.failed k.cycle), m) else (r.limit k, m)

theorem run_oracle_failed {doubtful : Set Slot} {k : LazyConstant}
    (stuck : ¬r.Grounded k) (inside : k.slot ∈ doubtful) (m : Memory) :
    (r.oracle doubtful k).run m = (.error (.failed k.cycle), m) :=
  if_pos ⟨stuck, inside⟩

theorem run_oracle_limit {doubtful : Set Slot} {k : LazyConstant}
    (told : r.Grounded k ∨ k.slot ∉ doubtful) (m : Memory) :
    (r.oracle doubtful k).run m = (r.limit k, m) := by
  apply if_neg
  rintro ⟨stuck, inside⟩
  rcases told with grounded | outside
  · exact stuck grounded
  · exact outside inside

theorem oracle_congr {one other : Set Slot} {k : LazyConstant}
    (same : k.slot ∈ one ↔ k.slot ∈ other) : r.oracle one k = r.oracle other k := by
  classical
  unfold oracle
  congr 1
  funext m
  exact if_congr (and_congr Iff.rfl same) rfl rfl

theorem oracle_grows (doubtful : Set Slot) (k : LazyConstant) : (r.oracle doubtful k).Grows := by
  intro m
  by_cases told : r.Grounded k ∨ k.slot ∉ doubtful
  · rw [run_oracle_limit told]
  · simp only [not_or, not_not] at told
    rw [run_oracle_failed told.1 told.2]

theorem Declares.cycle {k : LazyConstant} (declared : r.Declares asked k) :
    k.cycle.isSelfReference = true := by
  cases declared with
  | space found =>
    obtain ⟨initializer, -, rfl⟩ := Option.map_eq_some_iff.mp found
    rfl
  | cls known found =>
    unfold Class.lazyConstant? at found
    split at found
    next => cases found
    next =>
      obtain ⟨item, -, rfl⟩ := Option.map_eq_some_iff.mp found
      rfl

def deciding (r : Registry) : r.Simulation where
  Rel x y := x.Grows ∧ ∀ m m' : Memory, x.Calm m →
    SelfReferring (x.run m).1 ∨ (y.run m').1 = (x.run m).1
  ofPure a := ⟨.pure a, fun m m' _ => .inr rfl⟩
  ofBind {_ _ x y f g} here later := by
    refine ⟨here.1.bind fun a => (later a).1, fun m m' calm => ?_⟩
    obtain ⟨before, after⟩ := calm.of_bind here.1 fun a => (later a).1
    rcases here.2 m m' before with ⟨f, first, self⟩ | same
    · rw [Eval.run_bind_error first]
      exact .inl ⟨f, rfl, self⟩
    · cases first : (x.run m).1 with
      | error h =>
        rw [Eval.run_bind_error first, Eval.run_bind_error (same.trans first)]
        exact .inr rfl
      | ok a =>
        rw [Eval.run_bind_ok first, Eval.run_bind_ok (same.trans first)]
        exact (later a).2 _ _ (after a first)
  ofFail f := ⟨.fail f, fun m m' _ => .inr rfl⟩
  ofLogged x := ⟨.logged x, fun m m' _ => .inr rfl⟩
  ofOrNone {x y _} _ here := by
    refine ⟨here.1.orNone, fun m m' calm => .inr ?_⟩
    obtain ⟨inner, plain⟩ := calm.of_orNone here.1
    -- a calm run passes over no self-reference, so what it passes over expansion has as well
    rcases here.2 m m' inner with ⟨f, first, self⟩ | same
    · rw [plain f first] at self
      cases self
    · rcases first : (x.run m).1 with (f | _) | o
      · rw [Eval.run_orNone_failed first, Eval.run_orNone_failed (same.trans first)]
      · exact absurd first inner.1
      · rw [Eval.run_orNone_ok first, Eval.run_orNone_ok (same.trans first)]

theorem oracle_decides (doubtful : Set Slot) {depth : Nat} {k : LazyConstant}
    (declared : r.Declares asked k) (enough : r.outcome depth k = r.limit k) :
    r.deciding.Rel (r.oracle doubtful k) (r.expand depth k) := by
  refine ⟨oracle_grows doubtful k, fun m m' calm => ?_⟩
  rw [expand_run depth declared, enough]
  by_cases told : r.Grounded k ∨ k.slot ∉ doubtful
  · rw [run_oracle_limit told]
    exact .inr rfl
  · simp only [not_or, not_not] at told
    rw [run_oracle_failed told.1 told.2]
    exact .inl ⟨_, rfl, declared.cycle⟩

theorem selfReferring_of_stuck (coherent : r.Coherent) {doubtful : Set Slot} {k : LazyConstant}
    (declared : r.Declares asked k) (stuck : ¬r.Grounded k) {m : Memory}
    (calm : (r.valueOf (r.oracle doubtful) k.subject k.initializer).Calm m) :
    SelfReferring ((r.valueOf (r.oracle doubtful) k.subject k.initializer).run m).1 := by
  obtain ⟨depth, enough⟩ := exists_depth coherent asked
  have decided := (r.deciding.valueOf (fun other there => oracle_decides doubtful there
    (enough other there)) declared.places k.initializer).2 m {} calm
  rcases decided with self | same
  · exact self
  · -- otherwise expansion would come to an end
    have none := outcome_eq_outOfFuel stuck (depth + 1)
    exact absurd (same.symm.trans none) calm.1

/-- The constants in progress, the innermost first, when each was started in a calm run of the
initializer before it. None of them is grounded. -/
inductive Stack (r : Registry) (asked : Option Class) : List Slot → Prop
  | nil : Stack r asked []
  | cons {k : LazyConstant} {m : Memory} {fuel : Nat} (declared : r.Declares asked k)
      (stuck : ¬r.Grounded k) (faithful : r.Adds asked {} m)
      (below : Stack r asked m.pending)
      (calm : (r.valueOf (r.force fuel) k.subject k.initializer).Calm (m.start k.slot)) :
      Stack r asked (k.slot :: m.pending)

def doubtful (r : Registry) (asked : Option Class) : Set Slot :=
  {slot | ∃ below, r.Stack asked (slot :: below)}

theorem Stack.mem_doubtful {pending : List Slot} (stack : r.Stack asked pending) {slot : Slot}
    (started : slot ∈ pending) : slot ∈ r.doubtful asked := by
  induction stack with
  | nil => cases started
  | @cons k m fuel declared stuck faithful below calm ih =>
    rcases List.mem_cons.mp started with rfl | old
    · exact ⟨_, .cons declared stuck faithful below calm⟩
    · exact ih old

theorem Stack.allClear (coherent : r.Coherent) (admits : r.Admits asked) {m : Memory}
    (stack : r.Stack asked m.pending) : r.AllClear asked m := by
  intro k declared started
  generalize m.pending = pending at stack started
  induction stack with
  | nil => cases started
  | cons there stuck _ _ _ ih =>
    rcases List.mem_cons.mp started with own | old
    · rwa [declared.eq_of_slot coherent admits there own]
    · exact ih old

/-- The second computation is told by the oracle all that a calm run of the first one finds out. -/
def telling (r : Registry) (asked : Option Class) : r.Simulation where
  Rel x y := x.Grows ∧ ∀ m m' : Memory, r.Adds asked {} m → r.Stack asked m.pending → x.Calm m →
    y.Calm m' ∧ Alike (x.run m).1 (y.run m').1 ∧ r.Adds asked {} (x.run m).2 ∧
      (x.run m).2.pending = m.pending
  ofPure a := ⟨.pure a, fun m m' faithful _ _ => ⟨⟨by simp, rfl⟩, .inl rfl, faithful, rfl⟩⟩
  ofBind {_ _ x y f g} here later := by
    refine ⟨here.1.bind fun a => (later a).1, fun m m' faithful stack calm => ?_⟩
    obtain ⟨before, after⟩ := calm.of_bind here.1 fun a => (later a).1
    obtain ⟨told, alike, faithful', kept⟩ := here.2 m m' faithful stack before
    cases first : (x.run m).1 with
    | error h =>
      obtain ⟨h', second, alike⟩ := (first ▸ alike).eq_error _
      refine ⟨told.bind_error second g, ?_⟩
      rw [Eval.run_bind_error first, Eval.run_bind_error second]
      exact ⟨alike, faithful', kept⟩
    | ok a =>
      have second : (y.run m').1 = .ok a := (first ▸ alike).eq_ok
      obtain ⟨told', alike', faithful'', kept'⟩ :=
        (later a).2 _ (y.run m').2 faithful' (kept ▸ stack) (after a first)
      refine ⟨told.bind_ok second told', ?_⟩
      rw [Eval.run_bind_ok first, Eval.run_bind_ok second]
      exact ⟨alike', faithful'', kept'.trans kept⟩
  ofFail f := ⟨.fail f, fun m m' faithful _ _ => ⟨⟨by simp, rfl⟩, .inl rfl, faithful, rfl⟩⟩
  ofLogged x := ⟨.logged x, fun m m' faithful _ _ => ⟨⟨by simp, rfl⟩, .inl rfl, faithful, rfl⟩⟩
  ofOrNone {x y _} _ here := by
    refine ⟨here.1.orNone, fun m m' faithful stack calm => ?_⟩
    obtain ⟨inner, plain⟩ := calm.of_orNone here.1
    obtain ⟨told, alike, faithful', kept⟩ := here.2 m m' faithful stack inner
    rcases alike with same | ⟨⟨f, first, self⟩, -⟩
    · refine ⟨told.orNone fun f failed => plain f (same.trans failed), ?_⟩
      rcases first : (x.run m).1 with (f | _) | o
      · rw [Eval.run_orNone_failed first, Eval.run_orNone_failed (same.symm.trans first)]
        exact ⟨.inl rfl, faithful', kept⟩
      · exact absurd first inner.1
      · rw [Eval.run_orNone_ok first, Eval.run_orNone_ok (same.symm.trans first)]
        exact ⟨.inl rfl, faithful', kept⟩
    · rw [plain f first] at self
      cases self

theorem force_told (coherent : r.Coherent) (admits : r.Admits asked) (fuel : Nat)
    {k : LazyConstant} (declared : r.Declares asked k) :
    (r.telling asked).Rel (r.force fuel k) (r.oracle (r.doubtful asked) k) := by
  induction fuel generalizing k with
  | zero => exact ⟨.throw _, fun m m' _ _ calm => absurd rfl calm.1⟩
  | succ fuel ih =>
    have initializer := (r.telling asked).valueOf (fun _ other => ih other) declared.places
      k.initializer
    refine ⟨initializer.1.memoize, fun m m' faithful stack calm => ?_⟩
    rcases Classical.em (r.Grounded k) with grounded | stuck
    · obtain ⟨same, adds, kept⟩ := force_eq_limit coherent admits declared grounded
        (faithful.agrees coherent admits) (stack.allClear coherent admits) calm.1
      rw [Eval.Calm, run_oracle_limit (.inl grounded)]
      exact ⟨⟨grounded.limit_ne, rfl⟩, .inl same, faithful.trans adds, kept⟩
    · simp only [force] at calm ⊢
      cases known : Assoc.get? m.values k.slot with
      | some v =>
        rcases faithful _ v known with no | ⟨other, there, own, value⟩
        · cases no
        · rw [there.eq_of_slot coherent admits declared own] at value
          exact absurd (grounded_of_limit value) stuck
      | none =>
        by_cases started : k.slot ∈ m.pending
        · rw [Eval.run_memoize_cycle known started, Eval.Calm,
            run_oracle_failed stuck (stack.mem_doubtful started)]
          exact ⟨⟨by simp, rfl⟩, .inl rfl, faithful, rfl⟩
        · -- the run of the initializer is itself a calm one, and puts the constant on the stack
          rw [Eval.Calm, Eval.run_memoize_start known started, Memory.masked_finish] at calm
          have deeper : r.Stack asked (m.start k.slot).pending :=
            .cons declared stuck faithful stack calm
          have inside : k.slot ∈ r.doubtful asked := ⟨_, deeper⟩
          obtain ⟨told, alike, faithful', kept⟩ :=
            initializer.2 (m.start k.slot) m' faithful deeper calm
          obtain ⟨f, failed, self⟩ :=
            alike.selfReferring (selfReferring_of_stuck coherent declared stuck told)
          rw [Eval.run_memoize_start known started, Eval.Calm, run_oracle_failed stuck inside,
            failed]
          exact ⟨⟨by simp, rfl⟩, .inr ⟨⟨f, rfl, self⟩, _, rfl, declared.cycle⟩, faithful',
            by simp [kept]⟩

/-- A set of constants whose initializers, with all of the set failing, run calmly. -/
def Closed (r : Registry) (asked : Option Class) (doubtful : Set Slot) : Prop :=
  ∀ k, r.Declares asked k → ¬r.Grounded k → k.slot ∈ doubtful →
    ∃ m, (r.valueOf (r.oracle doubtful) k.subject k.initializer).Calm m

theorem doubtful_closed (coherent : r.Coherent) (admits : r.Admits asked) :
    r.Closed asked (r.doubtful asked) := by
  rintro k declared stuck ⟨below, stack⟩
  generalize started : k.slot :: below = pending at stack
  cases stack with
  | nil => cases started
  | @cons other m fuel there _ faithful rest calm =>
    obtain ⟨own, -⟩ := List.cons.inj started
    obtain rfl := declared.eq_of_slot coherent admits there own
    have told := ((r.telling asked).valueOf (fun _ there => force_told coherent admits fuel there)
      declared.places k.initializer).2 (m.start k.slot) {} faithful
      (.cons declared stuck faithful rest calm) calm
    exact ⟨{}, told.1⟩

end Registry

end ConstExpr
