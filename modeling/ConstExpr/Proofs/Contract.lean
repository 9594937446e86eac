import ConstExpr.Proofs.Run
import Mathlib.Data.List.Forall2

/-!
Contracts of computations: a condition on memory that is kept however a computation ends, a
condition on the failures it may end with, and one on its value. There is one rule for each way in
which computations are put together.
-/

namespace ConstExpr

/-- What is kept of memory, whatever is noted there, and which failures may occur. -/
structure Contract where
  keeps : Memory → Prop
  allows : Failure → Prop
  noted : ∀ {m : Memory} (warnings : List Warning) (dropped : List Failure), keeps m →
    keeps { m with warnings := warnings, dropped := dropped }

namespace Contract

variable (t : Contract) {α β : Type}

/-- A computation that honours the contract, and whose value is good if it has one. -/
def Ensures (x : Eval α) (good : α → Prop) : Prop :=
  ∀ m, t.keeps m → t.keeps (x.run m).2 ∧ (∀ a, (x.run m).1 = .ok a → good a) ∧
    ∀ f, (x.run m).1 = .error (.failed f) → t.allows f

variable {t} {good : α → Prop}

theorem Ensures.mono {x : Eval α} (here : t.Ensures x good) {better : α → Prop}
    (follows : ∀ a, good a → better a) : t.Ensures x better := by
  intro m kept
  obtain ⟨kept', value, failure⟩ := here m kept
  exact ⟨kept', fun a result => follows a (value a result), failure⟩

theorem ensures_pure {a : α} (fine : good a) : t.Ensures (pure a) good := by
  intro m kept
  refine ⟨kept, ?_, ?_⟩
  · rintro _ ⟨⟩
    exact fine
  · rintro f ⟨⟩

theorem ensures_fail {f : Failure} (allowed : t.allows f) :
    t.Ensures (Eval.fail f : Eval α) good := by
  intro m kept
  refine ⟨kept, ?_, ?_⟩
  · rintro a ⟨⟩
  · rintro _ ⟨⟩
    exact allowed

theorem ensures_outOfFuel : t.Ensures (throw .outOfFuel : Eval α) good := by
  intro m kept
  refine ⟨kept, ?_, ?_⟩
  · rintro a ⟨⟩
  · rintro f ⟨⟩

theorem ensures_logged {x : Logged α} (fine : good x.value) : t.Ensures (Eval.logged x) good := by
  intro m kept
  refine ⟨t.noted _ m.dropped kept, ?_, ?_⟩
  · rintro _ ⟨⟩
    exact fine
  · rintro f ⟨⟩

theorem Ensures.bind {x : Eval α} (here : t.Ensures x good) {f : α → Eval β} {after : β → Prop}
    (later : ∀ a, good a → t.Ensures (f a) after) : t.Ensures (x >>= f) after := by
  intro m kept
  obtain ⟨kept', value, failure⟩ := here m kept
  cases first : (x.run m).1 with
  | error h =>
    rw [Eval.run_bind_error first]
    refine ⟨kept', ?_, ?_⟩
    · rintro b ⟨⟩
    · rintro f ⟨⟩
      exact failure f first
  | ok a =>
    rw [Eval.run_bind_ok first]
    exact later a (value a first) _ kept'

theorem Ensures.map {x : Eval α} (here : t.Ensures x good) {f : α → β} {after : β → Prop}
    (follows : ∀ a, good a → after (f a)) : t.Ensures (f <$> x) after :=
  here.bind fun a fine => ensures_pure (follows a fine)

theorem ensures_bindLookup {x : Except Failure α} (allowed : ∀ f, x = .error f → t.allows f)
    {f : α → Eval β} {after : β → Prop} (later : ∀ a, x = .ok a → t.Ensures (f a) after) :
    t.Ensures (Eval.ofLookup x >>= f) after := by
  cases x with
  | error failure => exact ensures_fail (allowed failure rfl)
  | ok a => exact later a rfl

theorem ensures_lookup {x : Except Failure α} (allowed : ∀ f, x = .error f → t.allows f) :
    t.Ensures (Eval.ofLookup x) fun a => x = .ok a := by
  cases x with
  | error failure => exact ensures_fail (allowed failure rfl)
  | ok a => exact ensures_pure rfl

theorem Ensures.orNone {x : Eval (Option Value)} {good : Option Value → Prop}
    (here : t.Ensures x good) (absent : good none) : t.Ensures (Eval.orNone x) good := by
  intro m kept
  obtain ⟨kept', value, -⟩ := here m kept
  rcases first : (x.run m).1 with (f | _) | o
  · rw [Eval.run_orNone_failed first]
    refine ⟨t.noted (x.run m).2.warnings _ kept', ?_, ?_⟩
    · rintro _ ⟨⟩
      exact absent
    · rintro f ⟨⟩
  · rw [Eval.run_orNone_outOfFuel first]
    refine ⟨kept', ?_, ?_⟩
    · rintro a ⟨⟩
    · rintro f ⟨⟩
  · rw [Eval.run_orNone_ok first]
    refine ⟨kept', ?_, ?_⟩
    · rintro _ ⟨⟩
      exact value o first
    · rintro f ⟨⟩

theorem ensures_memoize {slot : Slot} {cycle : Failure} {compute : Eval Value} {good : Value → Prop}
    (known : ∀ m v, t.keeps m → Assoc.get? m.values slot = some v → good v)
    (allowed : t.allows cycle) (start : ∀ m, t.keeps m → t.keeps (m.start slot))
    (finish : ∀ m result, t.keeps m → (∀ v, result = .ok v → good v) →
      t.keeps (m.finish slot result))
    (computed : t.Ensures compute good) : t.Ensures (Eval.memoize slot cycle compute) good := by
  intro m kept
  cases value : Assoc.get? m.values slot with
  | some v =>
    rw [Eval.run_memoize_known value]
    refine ⟨kept, ?_, ?_⟩
    · rintro _ ⟨⟩
      exact known m v kept value
    · rintro f ⟨⟩
  | none =>
    by_cases started : slot ∈ m.pending
    · rw [Eval.run_memoize_cycle value started]
      refine ⟨kept, ?_, ?_⟩
      · rintro v ⟨⟩
      · rintro _ ⟨⟩
        exact allowed
    · rw [Eval.run_memoize_start value started]
      obtain ⟨kept', fine, failure⟩ := computed _ (start m kept)
      exact ⟨finish _ _ kept' fine, fine, failure⟩

theorem ensures_firstSome {f : α → Eval (Option β)} {good : α → Option β → Prop}
    {members : List α} (each : ∀ a ∈ members, t.Ensures (f a) (good a)) :
    t.Ensures (Eval.firstSome f members) fun o =>
      (∃ b, o = some b ∧ ∃ a ∈ members, good a (some b)) ∨
        o = none ∧ ∀ a ∈ members, good a none := by
  induction members with
  | nil => exact ensures_pure (.inr ⟨rfl, by simp⟩)
  | cons a rest ih =>
    refine (each a List.mem_cons_self).bind fun found fine => ?_
    cases found with
    | some b => exact ensures_pure (.inl ⟨b, rfl, a, List.mem_cons_self, fine⟩)
    | none =>
      refine (ih fun other member => each other (List.mem_cons_of_mem _ member)).mono ?_
      rintro o (⟨b, rfl, other, member, later⟩ | ⟨rfl, later⟩)
      · exact .inl ⟨b, rfl, other, List.mem_cons_of_mem _ member, later⟩
      · exact .inr ⟨rfl, List.forall_mem_cons.mpr ⟨fine, later⟩⟩

theorem ensures_mapM {f : α → Eval β} {good : α → β → Prop} {members : List α}
    (each : ∀ a ∈ members, t.Ensures (f a) (good a)) :
    t.Ensures (members.mapM f) (List.Forall₂ good members) := by
  induction members with
  | nil => exact ensures_pure .nil
  | cons a rest ih =>
    rw [List.mapM_cons]
    refine (each a List.mem_cons_self).bind fun b fine => ?_
    refine (ih fun other member => each other (List.mem_cons_of_mem _ member)).bind ?_
    exact fun found later => ensures_pure (.cons fine later)

theorem ensures_mapM_all {f : α → Eval β} {good : β → Prop} {members : List α}
    (each : ∀ a ∈ members, t.Ensures (f a) good) :
    t.Ensures (members.mapM f) fun found => ∀ b ∈ found, good b := by
  refine (ensures_mapM each).mono fun found fines => ?_
  induction fines with
  | nil => simp
  | cons fine _ later =>
    exact List.forall_mem_cons.mpr
      ⟨fine, later fun a member => each a (List.mem_cons_of_mem _ member)⟩

end Contract

end ConstExpr
