import ConstExpr.Proofs.Simulation
import Mathlib.Data.Finset.Card
import Mathlib.Data.Finset.Filter
import Mathlib.Data.Finset.Dedup

/-!
Evaluation ends. The constants in progress are different from each other, and there are only so many
that evaluation can come across; so a bound read off the registry is never used up, whatever refers
to whatever, and more fuel changes nothing.
-/

namespace ConstExpr.Registry

variable {r : Registry} {asked : Option Class}

def unstarted (r : Registry) (asked : Option Class) (pending : List Slot) : Finset Slot :=
  ((r.lazyConstants asked).map LazyConstant.slot).toFinset.filter (· ∉ pending)

theorem card_unstarted_lt_depthBound (pending : List Slot) :
    (r.unstarted asked pending).card < r.depthBound asked := by
  have few := List.toFinset_card_le ((r.lazyConstants asked).map LazyConstant.slot)
  rw [List.length_map] at few
  have fewer : (r.unstarted asked pending).card ≤ _ := Finset.card_filter_le _ _
  exact Nat.lt_of_le_of_lt (fewer.trans few) (r.length_lazyConstants asked)

theorem card_unstarted_cons (coherent : r.Coherent) {k : LazyConstant}
    (declared : r.Declares asked k) {pending : List Slot} (fresh : k.slot ∉ pending) :
    (r.unstarted asked (k.slot :: pending)).card < (r.unstarted asked pending).card := by
  have listed : k.slot ∈ ((r.lazyConstants asked).map LazyConstant.slot).toFinset :=
    List.mem_toFinset.mpr (List.mem_map_of_mem (declared.mem_lazyConstants coherent))
  apply Finset.card_lt_card
  rw [Finset.ssubset_iff_of_subset]
  · exact ⟨k.slot, Finset.mem_filter.mpr ⟨listed, fresh⟩, fun member =>
      (Finset.mem_filter.mp member).2 List.mem_cons_self⟩
  · intro slot member
    obtain ⟨known, apart⟩ := Finset.mem_filter.mp member
    exact Finset.mem_filter.mpr ⟨known, fun old => apart (List.mem_cons_of_mem _ old)⟩

/-- From memory with fewer constants left to start on than `fuel`, the first computation does not
run out of fuel, the second does just the same, and no constant is left in progress. -/
def halting (r : Registry) (asked : Option Class) (fuel : Nat) : r.Simulation where
  Rel x y := ∀ m : Memory, (r.unstarted asked m.pending).card < fuel →
    (x.run m).1 ≠ .error .outOfFuel ∧ (x.run m).2.pending = m.pending ∧ y.run m = x.run m
  ofPure a m _ := ⟨by simp, rfl, rfl⟩
  ofBind {_ _ x y f g} here later m enough := by
    obtain ⟨going, kept, same⟩ := here m enough
    cases first : (x.run m).1 with
    | error h =>
      rw [Eval.run_bind_error first, Eval.run_bind_error (by rw [same, first]), same]
      exact ⟨by simpa [first] using going, kept, rfl⟩
    | ok a =>
      rw [Eval.run_bind_ok first, Eval.run_bind_ok (by rw [same, first]), same]
      rw [← kept] at enough ⊢
      exact later a _ enough
  ofFail f m _ := ⟨by simp, rfl, rfl⟩
  ofLogged x m _ := ⟨by simp, rfl, rfl⟩
  ofOrNone {x y _} _ here m enough := by
    obtain ⟨going, kept, same⟩ := here m enough
    rcases first : (x.run m).1 with (f | _) | a
    · rw [Eval.run_orNone_failed first, Eval.run_orNone_failed (by rw [same, first]), same]
      exact ⟨by simp, kept, rfl⟩
    · exact absurd first going
    · rw [Eval.run_orNone_ok first, Eval.run_orNone_ok (by rw [same, first]), same]
      exact ⟨by simp, kept, rfl⟩

theorem force_halts (coherent : r.Coherent) (fuel extra : Nat) {k : LazyConstant}
    (declared : r.Declares asked k) :
    (r.halting asked fuel).Rel (r.force fuel k) (r.force (fuel + extra) k) := by
  induction fuel generalizing k with
  | zero => exact fun m enough => absurd enough (Nat.not_lt_zero _)
  | succ fuel ih =>
    intro m enough
    rw [Nat.succ_add]
    simp only [force]
    cases known : Assoc.get? m.values k.slot with
    | some v =>
      rw [Eval.run_memoize_known known, Eval.run_memoize_known known]
      exact ⟨by simp, rfl, rfl⟩
    | none =>
      by_cases started : k.slot ∈ m.pending
      · rw [Eval.run_memoize_cycle known started, Eval.run_memoize_cycle known started]
        exact ⟨by simp, rfl, rfl⟩
      · -- the constant is started on, so one fewer is left for one unit of fuel less
        have inner := (r.halting asked fuel).valueOf (fun _ other => ih other) declared.places
          k.initializer (m.start k.slot)
          (Nat.lt_of_lt_of_le (card_unstarted_cons coherent declared started)
            (Nat.le_of_lt_succ enough))
        obtain ⟨going, kept, same⟩ := inner
        rw [Eval.run_memoize_start known started, Eval.run_memoize_start known started, same]
        exact ⟨going, by simp [kept], rfl⟩

theorem answer_halts (coherent : r.Coherent) (q : Query) (m : Memory) (extra : Nat) :
    ((r.answer q).run m).1 ≠ .error .outOfFuel ∧ ((r.answer q).run m).2.pending = m.pending ∧
      (r.reply (r.force (r.depthBound (r.classAsked q) + extra)) q).run m =
        (r.answer q).run m :=
  (r.halting (r.classAsked q) (r.depthBound (r.classAsked q))).reply q
    (fun _ declared => force_halts coherent _ extra declared) m
    (card_unstarted_lt_depthBound m.pending)

/-- Every query ends with an answer or with a failure, from whatever is remembered, and no larger
bound would make a difference: the fuel is never used up. -/
theorem answer_ends (predefined builtin : Bool) (constants : List (String × Value))
    (files : List (String × List Stmt)) (m : Memory) (q : Query) (extra : Nat) :
    let r := build predefined builtin constants files
    ((∃ a, ((r.answer q).run m).1 = .ok a) ∨ ∃ f, ((r.answer q).run m).1 = .error (.failed f)) ∧
      (r.reply (r.force (r.depthBound (r.classAsked q) + extra)) q).run m =
        (r.answer q).run m := by
  intro r
  obtain ⟨going, -, same⟩ :=
    answer_halts (build_coherent predefined builtin constants files) q m extra
  refine ⟨?_, same⟩
  rcases result : ((r.answer q).run m).1 with (f | _) | a
  · exact .inr ⟨f, rfl⟩
  · exact absurd result going
  · exact .inl ⟨a, rfl⟩

end ConstExpr.Registry
