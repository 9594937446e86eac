import ConstExpr.Proofs.Simulation

/-!
The books that evaluation keeps on constants: which ones have a value, and which ones are in
progress. They are in order before and after every computation, however deep it is nested and
however it ends, and what they record is never changed.
-/

namespace ConstExpr.Registry

variable {r : Registry} {asked : Option Class}

/-- The books are in order: no constant is in progress twice or has two values, none that has a
value is in progress, and only declared ones have a value. -/
structure Books (r : Registry) (asked : Option Class) (m : Memory) : Prop where
  distinct : m.pending.Nodup
  once : (Assoc.keys m.values).Nodup
  apart : ∀ slot ∈ m.pending, slot ∉ Assoc.keys m.values
  declared : ∀ slot ∈ Assoc.keys m.values, ∃ k, r.Declares asked k ∧ k.slot = slot

theorem books_empty : r.Books asked {} :=
  ⟨List.nodup_nil, List.nodup_nil, by simp, by simp [Assoc.keys]⟩

/-- What a computation does to the books: the same constants are in progress as before, and the
values that were known stay first and unchanged. -/
structure Kept (r : Registry) (asked : Option Class) (before after : Memory) : Prop where
  pending : after.pending = before.pending
  values : before.values <+: after.values
  books : r.Books asked after

theorem Kept.refl {m : Memory} (books : r.Books asked m) : r.Kept asked m m :=
  ⟨rfl, List.prefix_refl _, books⟩

theorem Kept.trans {first second third : Memory} (one : r.Kept asked first second)
    (two : r.Kept asked second third) : r.Kept asked first third :=
  ⟨two.pending.trans one.pending, one.values.trans two.values, two.books⟩

theorem Kept.noted {before after : Memory} (kept : r.Kept asked before after)
    (warnings : List Warning) (dropped : List Failure) :
    r.Kept asked before { after with warnings := warnings, dropped := dropped } :=
  ⟨kept.pending, kept.values,
    ⟨kept.books.distinct, kept.books.once, kept.books.apart, kept.books.declared⟩⟩

/-- Runs a computation, but refuses to when the books are not in order or would not be kept. -/
noncomputable def audit (r : Registry) (asked : Option Class) {α : Type} (x : Eval α) : Eval α :=
  open Classical in
  ExceptT.mk fun m =>
    if r.Books asked m ∧ r.Kept asked m (x.run m).2 then x.run m else (.error .outOfFuel, m)

theorem run_audit {α : Type} {x : Eval α} {m : Memory} (books : r.Books asked m)
    (kept : r.Kept asked m (x.run m).2) : (r.audit asked x).run m = x.run m :=
  if_pos ⟨books, kept⟩

/-- Forces constants under audit: of each constant as a whole, and of its initializer while the
constant is in progress. -/
noncomputable def audited (r : Registry) (asked : Option Class) : Nat → Evaluator
  | 0, _ => throw .outOfFuel
  -- once for the constant as a whole, once for its initializer while it is in progress
  | fuel + 1, k => r.audit asked (Eval.memoize k.slot k.cycle
      (r.audit asked (r.valueOf (r.audited asked fuel) k.subject k.initializer)))

/-- From books in order the first computation keeps them, and the second does just the same. -/
def bookkeeping (r : Registry) (asked : Option Class) : r.Simulation where
  Rel x y := ∀ m : Memory, r.Books asked m → r.Kept asked m (x.run m).2 ∧ y.run m = x.run m
  ofPure a m books := ⟨.refl books, rfl⟩
  ofBind {_ _ x y f g} here later m books := by
    obtain ⟨kept, same⟩ := here m books
    cases first : (x.run m).1 with
    | error h =>
      rw [Eval.run_bind_error first, Eval.run_bind_error (by rw [same, first]), same]
      exact ⟨kept, rfl⟩
    | ok a =>
      rw [Eval.run_bind_ok first, Eval.run_bind_ok (by rw [same, first]), same]
      obtain ⟨kept', same'⟩ := later a _ kept.books
      exact ⟨kept.trans kept', same'⟩
  ofFail f m books := ⟨.refl books, rfl⟩
  ofLogged x m books := ⟨(Kept.refl books).noted _ _, rfl⟩
  ofOrNone {x y _} _ here m books := by
    obtain ⟨kept, same⟩ := here m books
    rcases first : (x.run m).1 with (f | _) | a
    · rw [Eval.run_orNone_failed first, Eval.run_orNone_failed (by rw [same, first]), same]
      exact ⟨kept.noted _ _, rfl⟩
    · rw [Eval.run_orNone_outOfFuel first, Eval.run_orNone_outOfFuel (by rw [same, first]), same]
      exact ⟨kept, rfl⟩
    · rw [Eval.run_orNone_ok first, Eval.run_orNone_ok (by rw [same, first]), same]
      exact ⟨kept, rfl⟩

theorem Books.start {m : Memory} (books : r.Books asked m) {slot : Slot}
    (unknown : slot ∉ Assoc.keys m.values) (fresh : slot ∉ m.pending) :
    r.Books asked (m.start slot) where
  distinct := List.nodup_cons.mpr ⟨fresh, books.distinct⟩
  once := books.once
  apart := List.forall_mem_cons.mpr ⟨unknown, books.apart⟩
  declared := books.declared

theorem Kept.finish {m after : Memory} {k : LazyConstant} (declared : r.Declares asked k)
    (kept : r.Kept asked (m.start k.slot) after) (result : Except Halt Value) :
    r.Kept asked m (after.finish k.slot result) := by
  have pending : (after.finish k.slot result).pending = m.pending := by simp [kept.pending]
  have started : k.slot :: m.pending = after.pending := kept.pending.symm
  obtain ⟨fresh, distinct⟩ := List.nodup_cons.mp (started ▸ kept.books.distinct)
  obtain ⟨unknown, apart⟩ := List.forall_mem_cons.mp (started ▸ kept.books.apart)
  cases result with
  | error h =>
    exact ⟨pending, kept.values, pending ▸ distinct, kept.books.once, pending ▸ apart,
      kept.books.declared⟩
  | ok v =>
    -- in progress means without a value, so the new one comes last
    have keys : Assoc.keys (after.finish k.slot (.ok v)).values =
        Assoc.keys after.values ++ [k.slot] := by
      rw [Memory.finish, Assoc.keys_put, if_neg unknown]
    refine ⟨pending, ?_, pending ▸ distinct, ?_, ?_, ?_⟩
    · rw [Memory.finish, Assoc.put_of_not_mem v unknown]
      exact kept.values.trans (List.prefix_append _ _)
    · rw [keys]
      refine List.nodup_append.mpr ⟨kept.books.once, by simp, ?_⟩
      intro one known other last same
      exact unknown (by rwa [← List.mem_singleton.mp last, ← same])
    · rw [pending, keys]
      intro other member known
      rcases List.mem_append.mp known with old | new
      · exact apart other member old
      · exact fresh (List.mem_singleton.mp new ▸ member)
    · rw [keys]
      intro other known
      rcases List.mem_append.mp known with old | new
      · exact kept.books.declared other old
      · exact ⟨k, declared, (List.mem_singleton.mp new).symm⟩

theorem force_kept (fuel : Nat) {k : LazyConstant} (declared : r.Declares asked k) :
    (r.bookkeeping asked).Rel (r.force fuel k) (r.audited asked fuel k) := by
  induction fuel generalizing k with
  | zero => exact fun m books => ⟨.refl books, rfl⟩
  | succ fuel ih =>
    intro m books
    simp only [force, audited]
    generalize looking : r.valueOf (r.force fuel) k.subject k.initializer = compute
    generalize watching : r.valueOf (r.audited asked fuel) k.subject k.initializer = watched
    have inner : (r.bookkeeping asked).Rel compute watched := by
      rw [← looking, ← watching]
      exact (r.bookkeeping asked).valueOf (fun _ other => ih other) declared.places k.initializer
    -- the audit of the initializer passes, so only the constant as a whole is left
    suffices whole : r.Kept asked m ((Eval.memoize k.slot k.cycle compute).run m).2 ∧
        (Eval.memoize k.slot k.cycle (r.audit asked watched)).run m =
          (Eval.memoize k.slot k.cycle compute).run m by
      obtain ⟨kept, same⟩ := whole
      exact ⟨kept, by rw [run_audit books (same ▸ kept), same]⟩
    cases known : Assoc.get? m.values k.slot with
    | some v =>
      rw [Eval.run_memoize_known known, Eval.run_memoize_known known]
      exact ⟨.refl books, rfl⟩
    | none =>
      by_cases started : k.slot ∈ m.pending
      · rw [Eval.run_memoize_cycle known started, Eval.run_memoize_cycle known started]
        exact ⟨.refl books, rfl⟩
      · have begun := books.start (Assoc.get?_eq_none_iff.mp known) started
        obtain ⟨kept, same⟩ := inner _ begun
        have same : (r.audit asked watched).run _ = _ :=
          (run_audit begun (same ▸ kept)).trans same
        rw [Eval.run_memoize_start known started, Eval.run_memoize_start known started, same]
        exact ⟨kept.finish declared _, rfl⟩

theorem answer_kept (q : Query) {m : Memory} (books : r.Books (r.classAsked q) m) :
    r.Kept (r.classAsked q) m ((r.answer q).run m).2 ∧
      (r.reply (r.audited (r.classAsked q) (r.depthBound (r.classAsked q))) q).run m =
        (r.answer q).run m :=
  (r.bookkeeping (r.classAsked q)).reply q (fun _ declared => force_kept _ declared) m books

section Sessions

theorem after_invariant_of {P : Memory → Prop} (start : P {}) {history : List Query}
    (step : ∀ m, ∀ q ∈ history, P m → P (r.step m q).2) : P (r.after history) := by
  unfold after
  generalize ({} : Memory) = m at start
  induction history generalizing m with
  | nil => exact start
  | cons q rest ih =>
    exact ih (fun m q member => step m q (List.mem_cons_of_mem _ member)) _
      (step m q List.mem_cons_self start)

theorem after_invariant {P : Memory → Prop} (start : P {})
    (step : ∀ m q, P m → P (r.step m q).2) (history : List Query) : P (r.after history) :=
  after_invariant_of start fun m q _ => step m q

theorem Books.mono {m : Memory} (books : r.Books none m) : r.Books asked m where
  distinct := books.distinct
  once := books.once
  apart := books.apart
  declared slot known := by
    obtain ⟨k, declared, own⟩ := books.declared slot known
    exact ⟨k, declared.mono, own⟩

theorem Books.settle (coherent : r.Coherent) (admits : r.Admits asked) {m : Memory}
    (books : r.Books asked m) : r.Books none m.settle := by
  have part : List.Sublist (Assoc.keys m.settle.values) (Assoc.keys m.values) :=
    List.filter_sublist.map _
  refine ⟨books.distinct, books.once.sublist part, ?_, ?_⟩
  · exact fun slot started known => books.apart slot started (part.subset known)
  · intro slot known
    obtain ⟨entry, member, rfl⟩ := List.mem_map.mp known
    obtain ⟨old, stays⟩ := List.mem_filter.mp member
    obtain ⟨k, declared, own⟩ := books.declared entry.1 (List.mem_map_of_mem old)
    refine ⟨k, (declares_none_iff coherent admits).mpr ⟨declared, ?_⟩, own⟩
    simpa [own] using stays

theorem Books.values_settle (coherent : r.Coherent) {m : Memory} (books : r.Books none m) :
    m.settle.values = m.values := by
  apply List.filter_eq_self.mpr
  intro entry member
  obtain ⟨k, declared, own⟩ := books.declared entry.1 (List.mem_map_of_mem member)
  have stays := ((declares_none_iff coherent admits_none).mp declared).2
  simp [← own, stays]

theorem step_kept (coherent : r.Coherent) {m : Memory} (idle : m.pending = [])
    (books : r.Books none m) (q : Query) :
    (r.step m q).2.pending = [] ∧ r.Books none (r.step m q).2 ∧
      m.values <+: (r.step m q).2.values := by
  have wider : r.Books (r.classAsked q) m := books.mono
  obtain ⟨kept, -⟩ := answer_kept q wider
  have grown := kept.values.filter fun entry : Slot × Value => !entry.1.isDetached
  have stayed := books.values_settle coherent
  refine ⟨kept.pending.trans idle, kept.books.settle coherent (r.admits_classAsked q), ?_⟩
  exact stayed ▸ grown

end Sessions

/-- At any point of a session no constant is in progress and the books are in order. A further
query, however it ends, leaves the same constants in progress and the known values as they are, and
so does every evaluation that is nested in it: under audit it does just the same. -/
theorem session_keeps_books (predefined builtin : Bool) (constants : List (String × Value))
    (files : List (String × List Stmt)) (history : List Query) (q : Query) :
    let r := build predefined builtin constants files
    let m := r.after history
    m.pending = [] ∧ r.Books none m ∧ r.Kept (r.classAsked q) m ((r.answer q).run m).2 ∧
      (r.reply (r.audited (r.classAsked q) (r.depthBound (r.classAsked q))) q).run m =
        (r.answer q).run m ∧
      m.values <+: (r.step m q).2.values := by
  intro r m
  have coherent : r.Coherent := build_coherent predefined builtin constants files
  obtain ⟨idle, books⟩ : m.pending = [] ∧ r.Books none m :=
    after_invariant (P := fun m => m.pending = [] ∧ r.Books none m) ⟨rfl, books_empty⟩
      (fun m q held => ⟨(step_kept coherent held.1 held.2 q).1,
        (step_kept coherent held.1 held.2 q).2.1⟩) history
  obtain ⟨kept, same⟩ := answer_kept q books.mono
  exact ⟨idle, books, kept, same, (step_kept coherent idle books q).2.2⟩

end ConstExpr.Registry
