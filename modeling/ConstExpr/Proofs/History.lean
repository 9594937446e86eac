import ConstExpr.Proofs.Bookkeeping
import ConstExpr.Proofs.SelfReference
import ConstExpr.Proofs.Termination
import Mathlib

/-!
What earlier queries leave behind. A query that passes over no self-reference when it is asked first
has the same result after every history: what it needs is either grounded, and then known with the
value that expansion gives, or it depends on itself, and then it is never known at all.
-/

namespace ConstExpr.Registry

variable {r : Registry} {asked : Option Class} {doubtful : Set Slot}

/-- Memory in which the grounded constants have the values that expansion gives, no constant of a
given set has a value unless it is grounded, and none in progress is grounded. -/
structure Sound (r : Registry) (asked : Option Class) (doubtful : Set Slot) (m : Memory) :
    Prop where
  agrees : r.Agrees asked m
  -- a value that depends on what was in progress would be one of these
  unknown : ∀ k, r.Declares asked k → ¬r.Grounded k → k.slot ∈ doubtful →
    Assoc.get? m.values k.slot = none
  clear : r.AllClear asked m

theorem sound_empty : r.Sound asked doubtful {} where
  agrees := fun _ _ _ _ no => by cases no
  unknown := fun _ _ _ _ => rfl
  clear := fun _ _ no => by cases no

theorem Sound.adds (coherent : r.Coherent) (admits : r.Admits asked) {before after : Memory}
    (sound : r.Sound asked doubtful before) (adds : r.Adds asked before after)
    (kept : after.pending = before.pending) : r.Sound asked doubtful after where
  agrees := sound.agrees.adds coherent admits adds
  unknown k declared stuck inside := by
    cases known : Assoc.get? after.values k.slot with
    | none => rfl
    | some v =>
      rcases adds _ v known with old | ⟨other, there, own, value⟩
      · rw [sound.unknown k declared stuck inside] at old
        cases old
      · rw [there.eq_of_slot coherent admits declared own] at value
        exact absurd (grounded_of_limit value) stuck
  clear k declared started := sound.clear k declared (kept ▸ started)

theorem Sound.start (coherent : r.Coherent) (admits : r.Admits asked) {m : Memory}
    (sound : r.Sound asked doubtful m) {k : LazyConstant} (declared : r.Declares asked k)
    (stuck : ¬r.Grounded k) : r.Sound asked doubtful (m.start k.slot) where
  agrees := sound.agrees
  unknown := sound.unknown
  clear other there started := by
    rcases List.mem_cons.mp started with own | old
    · rwa [there.eq_of_slot coherent admits declared own]
    · exact sound.clear other there old

theorem Sound.finish (coherent : r.Coherent) (admits : r.Admits asked) {m : Memory}
    (sound : r.Sound asked doubtful m) {k : LazyConstant} (declared : r.Declares asked k)
    (stuck : ¬r.Grounded k) {result : Except Halt Value}
    (fails : k.slot ∈ doubtful → ∃ h, result = .error h) :
    r.Sound asked doubtful (m.finish k.slot result) := by
  have clear : r.AllClear asked (m.finish k.slot result) := by
    intro other there started
    rw [Memory.finish_pending] at started
    exact sound.clear other there (List.mem_of_mem_erase started)
  cases result with
  | error h => exact ⟨sound.agrees, sound.unknown, clear⟩
  | ok v =>
    refine ⟨fun other there grounded w known => ?_, fun other there stuck' inside => ?_, clear⟩
    · have apart : other.slot ≠ k.slot := by
        intro own
        rw [there.eq_of_slot coherent admits declared own] at grounded
        exact stuck grounded
      rw [Memory.finish, Assoc.get?_put_of_ne _ _ apart] at known
      exact sound.agrees other there grounded w known
    · have apart : other.slot ≠ k.slot := by
        intro own
        obtain ⟨h, no⟩ := fails (own ▸ inside)
        cases no
      rw [Memory.finish, Assoc.get?_put_of_ne _ _ apart]
      exact sound.unknown other there stuck' inside

/-- The first computation keeps memory sound, and its result is the one that the oracle tells when
the second one is calm. -/
def guarding (r : Registry) (asked : Option Class) (doubtful : Set Slot) : r.Simulation where
  Rel x y := y.Grows ∧ ∀ m m' : Memory, r.Sound asked doubtful m →
    (x.run m).1 ≠ .error .outOfFuel → r.Sound asked doubtful (x.run m).2 ∧
      (x.run m).2.pending = m.pending ∧ (y.Calm m' → Alike (x.run m).1 (y.run m').1)
  ofPure a := ⟨.pure a, fun m m' sound _ => ⟨sound, rfl, fun _ => .inl rfl⟩⟩
  ofBind {_ _ x y f g} here later := by
    refine ⟨here.1.bind fun a => (later a).1, fun m m' sound going => ?_⟩
    obtain ⟨sound', kept, alike⟩ := here.2 m m' sound (Eval.going_of_bind going)
    cases first : (x.run m).1 with
    | error h =>
      rw [Eval.run_bind_error first]
      refine ⟨sound', kept, fun calm => ?_⟩
      obtain ⟨before, -⟩ := calm.of_bind here.1 fun a => (later a).1
      obtain ⟨h', second, alike⟩ := (first ▸ alike before).eq_error _
      rw [Eval.run_bind_error second]
      exact alike
    | ok a =>
      rw [Eval.run_bind_ok first] at going ⊢
      obtain ⟨sound'', kept', alike'⟩ := (later a).2 _ (y.run m').2 sound' going
      refine ⟨sound'', kept'.trans kept, fun calm => ?_⟩
      obtain ⟨before, after⟩ := calm.of_bind here.1 fun a => (later a).1
      have second : (y.run m').1 = .ok a := (first ▸ alike before).eq_ok
      rw [Eval.run_bind_ok second]
      exact alike' (after a second)
  ofFail f := ⟨.fail f, fun m m' sound _ => ⟨sound, rfl, fun _ => .inl rfl⟩⟩
  ofLogged x := ⟨.logged x, fun m m' sound _ =>
    ⟨⟨sound.agrees, sound.unknown, sound.clear⟩, rfl, fun _ => .inl rfl⟩⟩
  ofOrNone {x y _} _ here := by
    refine ⟨here.1.orNone, fun m m' sound going => ?_⟩
    obtain ⟨sound', kept, alike⟩ := here.2 m m' sound (Eval.going_of_orNone going)
    rcases first : (x.run m).1 with (f | _) | o
    · rw [Eval.run_orNone_failed first]
      refine ⟨⟨sound'.agrees, sound'.unknown, sound'.clear⟩, kept, fun calm => .inl ?_⟩
      obtain ⟨before, plain⟩ := calm.of_orNone here.1
      rcases alike before with same | ⟨-, f', second, self⟩
      · rw [Eval.run_orNone_failed (same.symm.trans first)]
      · rw [plain f' second] at self
        cases self
    · exact absurd first (Eval.going_of_orNone going)
    · rw [Eval.run_orNone_ok first]
      refine ⟨sound', kept, fun calm => .inl ?_⟩
      obtain ⟨before, -⟩ := calm.of_orNone here.1
      rw [Eval.run_orNone_ok (first ▸ alike before).eq_ok]

theorem not_calm_oracle {k : LazyConstant} (stuck : ¬r.Grounded k)
    (outside : k.slot ∉ doubtful) (m : Memory) : ¬(r.oracle doubtful k).Calm m := by
  rw [Eval.Calm, run_oracle_limit (.inr outside)]
  exact fun calm => calm.1 (limit_eq_outOfFuel stuck)

theorem force_guarded (coherent : r.Coherent) (admits : r.Admits asked)
    (closed : r.Closed asked doubtful) (fuel : Nat) {k : LazyConstant}
    (declared : r.Declares asked k) :
    (r.guarding asked doubtful).Rel (r.force fuel k) (r.oracle doubtful k) := by
  induction fuel generalizing k with
  | zero => exact ⟨oracle_grows doubtful k, fun m m' _ going => absurd rfl going⟩
  | succ fuel ih =>
    refine ⟨oracle_grows doubtful k, fun m m' sound going => ?_⟩
    have initializer := (r.guarding asked doubtful).valueOf (fun _ other => ih other)
      declared.places k.initializer
    rcases Classical.em (r.Grounded k) with grounded | stuck
    · obtain ⟨same, adds, kept⟩ :=
        force_eq_limit coherent admits declared grounded sound.agrees sound.clear going
      refine ⟨sound.adds coherent admits adds kept, kept, fun _ => .inl ?_⟩
      rw [same, run_oracle_limit (.inl grounded)]
    · simp only [force] at going ⊢
      cases known : Assoc.get? m.values k.slot with
      | some v =>
        rw [Eval.run_memoize_known known]
        -- what is known without being grounded is outside the set, where the oracle is not calm
        refine ⟨sound, rfl, fun calm => absurd calm (not_calm_oracle stuck ?_ m')⟩
        intro inside
        rw [sound.unknown k declared stuck inside] at known
        cases known
      | none =>
        by_cases started : k.slot ∈ m.pending
        · rw [Eval.run_memoize_cycle known started]
          refine ⟨sound, rfl, fun calm => ?_⟩
          by_cases inside : k.slot ∈ doubtful
          · rw [run_oracle_failed stuck inside]
            exact .inl rfl
          · exact absurd calm (not_calm_oracle stuck inside m')
        · rw [Eval.run_memoize_start known started] at going ⊢
          have begun := sound.start coherent admits declared stuck
          by_cases inside : k.slot ∈ doubtful
          · -- the set is closed, so the oracle finds a self-reference and the initializer does too
            obtain ⟨m'', calm⟩ := closed k declared stuck inside
            obtain ⟨sound', kept, alike⟩ := initializer.2 _ m'' begun going
            have self := (alike calm).selfReferring
              (selfReferring_of_stuck coherent declared stuck calm)
            refine ⟨sound'.finish coherent admits declared stuck fun _ => ?_, by simp [kept],
              fun _ => .inr ⟨self, ?_⟩⟩
            · obtain ⟨f, failed, -⟩ := self
              exact ⟨_, failed⟩
            · rw [run_oracle_failed stuck inside]
              exact ⟨_, rfl, declared.cycle⟩
          · obtain ⟨sound', kept, -⟩ := initializer.2 _ {} begun going
            exact ⟨sound'.finish coherent admits declared stuck fun no => absurd no inside,
              by simp [kept], fun calm => absurd calm (not_calm_oracle stuck inside m')⟩

def agreeing (r : Registry) (asked : Option Class) (doubtful : Set Slot) : r.Simulation where
  -- two memories with the same constants in progress may know different ones outside the set
  Rel x y := (r.guarding asked doubtful).Rel x y ∧ ∀ m₁ m₂ m' : Memory,
    r.Sound asked doubtful m₁ → r.Sound asked doubtful m₂ → m₁.pending = m₂.pending →
    (x.run m₁).1 ≠ .error .outOfFuel → (x.run m₂).1 ≠ .error .outOfFuel → y.Calm m' →
    (x.run m₁).1 = (x.run m₂).1
  ofPure a := ⟨(r.guarding asked doubtful).ofPure a, fun _ _ _ _ _ _ _ _ _ => rfl⟩
  ofBind {_ _ x y f g} here later := by
    refine ⟨(r.guarding asked doubtful).ofBind here.1 fun a => (later a).1, ?_⟩
    intro m₁ m₂ m' sound₁ sound₂ pending going₁ going₂ calm
    obtain ⟨before, after⟩ := calm.of_bind here.1.1 fun a => (later a).1.1
    have same := here.2 m₁ m₂ m' sound₁ sound₂ pending (Eval.going_of_bind going₁)
      (Eval.going_of_bind going₂) before
    obtain ⟨sound₁', kept₁, alike⟩ := here.1.2 m₁ m' sound₁ (Eval.going_of_bind going₁)
    obtain ⟨sound₂', kept₂, -⟩ := here.1.2 m₂ m' sound₂ (Eval.going_of_bind going₂)
    cases first : (x.run m₁).1 with
    | error h => rw [Eval.run_bind_error first, Eval.run_bind_error (same.symm.trans first)]
    | ok a =>
      rw [Eval.run_bind_ok first] at going₁ ⊢
      rw [Eval.run_bind_ok (same.symm.trans first)] at going₂ ⊢
      have told : (y.run m').1 = .ok a := (first ▸ alike before).eq_ok
      exact (later a).2 _ _ _ sound₁' sound₂' (by rw [kept₁, kept₂, pending]) going₁ going₂
        (after a told)
  ofFail f := ⟨(r.guarding asked doubtful).ofFail f, fun _ _ _ _ _ _ _ _ _ => rfl⟩
  ofLogged x := ⟨(r.guarding asked doubtful).ofLogged x, fun _ _ _ _ _ _ _ _ _ => rfl⟩
  ofOrNone {x y _} declared here := by
    refine ⟨(r.guarding asked doubtful).ofOrNone declared here.1, ?_⟩
    intro m₁ m₂ m' sound₁ sound₂ pending going₁ going₂ calm
    have same := here.2 m₁ m₂ m' sound₁ sound₂ pending (Eval.going_of_orNone going₁)
      (Eval.going_of_orNone going₂) (calm.of_orNone here.1.1).1
    rcases first : (x.run m₁).1 with (f | _) | o
    · rw [Eval.run_orNone_failed first, Eval.run_orNone_failed (same.symm.trans first)]
    · exact absurd first (Eval.going_of_orNone going₁)
    · rw [Eval.run_orNone_ok first, Eval.run_orNone_ok (same.symm.trans first)]

theorem force_agrees (coherent : r.Coherent) (admits : r.Admits asked)
    (closed : r.Closed asked doubtful) (fuel : Nat) {k : LazyConstant}
    (declared : r.Declares asked k) :
    (r.agreeing asked doubtful).Rel (r.force fuel k) (r.oracle doubtful k) := by
  induction fuel generalizing k with
  | zero =>
    exact ⟨force_guarded coherent admits closed 0 declared,
      fun _ _ _ _ _ _ going => absurd rfl going⟩
  | succ fuel ih =>
    refine ⟨force_guarded coherent admits closed _ declared, ?_⟩
    intro m₁ m₂ m' sound₁ sound₂ pending going₁ going₂ calm
    rcases Classical.em (r.Grounded k) with grounded | stuck
    · rw [(force_eq_limit coherent admits declared grounded sound₁.agrees sound₁.clear going₁).1,
        (force_eq_limit coherent admits declared grounded sound₂.agrees sound₂.clear going₂).1]
    · by_cases inside : k.slot ∈ doubtful
      · have known₁ := sound₁.unknown k declared stuck inside
        have known₂ := sound₂.unknown k declared stuck inside
        simp only [force] at going₁ going₂ ⊢
        by_cases started : k.slot ∈ m₁.pending
        · rw [Eval.run_memoize_cycle known₁ started,
            Eval.run_memoize_cycle known₂ (pending ▸ started)]
        · rw [Eval.run_memoize_start known₁ started] at going₁ ⊢
          rw [Eval.run_memoize_start known₂ (pending ▸ started)] at going₂ ⊢
          obtain ⟨m'', calm'⟩ := closed k declared stuck inside
          exact ((r.agreeing asked doubtful).valueOf (fun _ other => ih other) declared.places
            k.initializer).2 _ _ m'' (sound₁.start coherent admits declared stuck)
            (sound₂.start coherent admits declared stuck) (by simp [pending]) going₁ going₂ calm'
      · exact absurd calm (not_calm_oracle stuck inside m')

section Sessions

def enduring (doubtful : Set Slot) : Set Slot := {slot | slot ∈ doubtful ∧ slot.isDetached = false}

def sameness (r : Registry) : r.Simulation where
  Rel x y := x = y
  ofPure a := rfl
  ofBind here later := by rw [here, funext later]
  ofFail f := rfl
  ofLogged x := rfl
  ofOrNone _ here := by rw [here]

theorem Closed.enduring (coherent : r.Coherent) (closed : r.Closed asked doubtful)
    {other : Option Class} (admits : r.Admits other) : r.Closed other (enduring doubtful) := by
  rintro k declared stuck ⟨inside, stays⟩
  have registered := (declares_none_iff coherent admits).mpr ⟨declared, stays⟩
  obtain ⟨m, calm⟩ := closed k registered.mono stuck inside
  refine ⟨m, ?_⟩
  -- an initializer of the registry only needs constants of the registry
  have same : r.valueOf (r.oracle doubtful) k.subject k.initializer =
      r.valueOf (r.oracle (Registry.enduring doubtful)) k.subject k.initializer := by
    refine r.sameness.valueOf (fun needed there => ?_) registered.places k.initializer
    have lasting := ((declares_none_iff coherent admits_none).mp there).2
    have kept : needed.slot ∈ Registry.enduring doubtful ↔ needed.slot ∈ doubtful :=
      ⟨fun both => both.1, fun member => ⟨member, lasting⟩⟩
    exact oracle_congr kept.symm
  rwa [← same]

theorem Sound.settle (coherent : r.Coherent) (admits : r.Admits asked) {m : Memory}
    (sound : r.Sound asked doubtful m) : r.Sound none doubtful m.settle := by
  have before : ∀ k, r.Declares none k →
      Assoc.get? m.settle.values k.slot = Assoc.get? m.values k.slot := by
    intro k declared
    have stays := ((declares_none_iff coherent admits).mp declared).2
    rw [Memory.settle, Assoc.get?_filter m.values (fun slot => !slot.isDetached), stays]
    rfl
  refine ⟨fun k declared grounded v known => ?_, fun k declared stuck inside => ?_,
    fun k declared started => sound.clear k declared.mono started⟩
  · exact sound.agrees k declared.mono grounded v (by rwa [← before k declared])
  · rw [before k declared]
    exact sound.unknown k declared.mono stuck inside

theorem Sound.widen (coherent : r.Coherent) (admits : r.Admits asked) {m : Memory}
    (idle : m.pending = []) (books : r.Books none m) {lasting : Set Slot}
    (sound : r.Sound none lasting m) (part : enduring doubtful ⊆ lasting) :
    r.Sound asked doubtful m := by
  have registered : ∀ k, r.Declares asked k → ∀ v, Assoc.get? m.values k.slot = some v →
      r.Declares none k := by
    intro k declared v known
    obtain ⟨other, there, own⟩ :=
      books.declared k.slot (List.mem_map_of_mem (Assoc.mem_of_get? known))
    have stays := ((declares_none_iff coherent admits).mp there).2
    exact (declares_none_iff coherent admits).mpr ⟨declared, own ▸ stays⟩
  refine ⟨fun k declared grounded v known => ?_, fun k declared stuck inside => ?_,
    fun k _ started => by rw [idle] at started; cases started⟩
  · exact sound.agrees k (registered k declared v known) grounded v known
  · cases known : Assoc.get? m.values k.slot with
    | none => rfl
    | some v =>
      have here := registered k declared v known
      have stays := ((declares_none_iff coherent admits).mp here).2
      rw [sound.unknown k here stuck (part ⟨inside, stays⟩)] at known
      cases known

theorem after_sound (coherent : r.Coherent) (closed : r.Closed asked doubtful)
    (history : List Query) :
    (r.after history).pending = [] ∧ r.Books none (r.after history) ∧
      r.Sound none (enduring doubtful) (r.after history) := by
  refine after_invariant (P := fun m => m.pending = [] ∧ r.Books none m ∧
    r.Sound none (enduring doubtful) m) ?_ ?_ history
  · exact ⟨rfl, books_empty, sound_empty⟩
  · rintro m q ⟨idle, books, sound⟩
    obtain ⟨idle', books', -⟩ := step_kept coherent idle books q
    have admits := r.admits_classAsked q
    have here : r.Sound (r.classAsked q) (enduring doubtful) m :=
      sound.widen coherent admits idle books fun slot inside => inside.1
    have closed' := closed.enduring coherent admits
    have forced := fun k => force_guarded coherent admits closed'
      (r.depthBound (r.classAsked q)) (k := k)
    have guarded := (r.guarding (r.classAsked q) (enduring doubtful)).reply q forced
    have going := (answer_halts coherent q m 0).1
    exact ⟨idle', books', (guarded.2 m {} here going).1.settle coherent admits⟩

theorem answer_after (coherent : r.Coherent) (q : Query) (calm : (r.answer q).Calm {})
    (history : List Query) :
    ((r.answer q).run (r.after history)).1 = ((r.answer q).run {}).1 := by
  have admits := r.admits_classAsked q
  have closed := doubtful_closed coherent admits
  obtain ⟨idle, books, sound⟩ := after_sound coherent closed history
  -- the fresh run shows which constants depend on themselves; none of these is ever known
  have told := ((r.telling (r.classAsked q)).reply q
    fun _ declared => force_told coherent admits _ declared).2 {} {} (.refl {}) .nil calm
  exact ((r.agreeing (r.classAsked q) (r.doubtful (r.classAsked q))).reply q
    fun _ declared => force_agrees coherent admits closed _ declared).2 _ _ {}
    (sound.widen coherent admits idle books fun slot inside => inside) sound_empty idle
    (answer_halts coherent q _ 0).1 (answer_halts coherent q _ 0).1 told.1

end Sessions

/-- A query that passes over no self-reference when it is asked first has the same result after
every session, whatever was passed over there. -/
theorem result_after_history (predefined builtin : Bool) (constants : List (String × Value))
    (files : List (String × List Stmt)) (history : List Query) (q : Query)
    (unmasked : (((build predefined builtin constants files).answer q).run {}).2.masked = 0) :
    let r := build predefined builtin constants files
    (r.step (r.after history) q).1.result = (r.step {} q).1.result := by
  intro r
  have coherent : r.Coherent := build_coherent predefined builtin constants files
  exact answer_after coherent q ⟨(answer_halts coherent q {} 0).1, unmasked⟩ history

def mention (name : String) : Expr := .constant (.parse name) {}

def crossed : List (String × List Stmt) :=
  [("/app/a.php", [.const [⟨"A", mention "\\B", {}⟩, ⟨"B", mention "\\A", {}⟩,
    ⟨"C", mention "\\D", {}⟩, ⟨"D", .int 4 {}, {}⟩] {}])]

def askFor (name : String) : Query := .namespaceConstant "/app/a.php" "" name

theorem unmasked_after_crossed :
    (((build false false [] crossed).answer (askFor "C")).run {}).2.masked = 0 ∧
      let r := build false false [] crossed
      (r.step (r.after [askFor "B"]) (askFor "C")).1.result =
        (r.step {} (askFor "C")).1.result := by
  have unmasked : (((build false false [] crossed).answer (askFor "C")).run {}).2.masked = 0 := by
    cbv
  exact ⟨unmasked, result_after_history false false [] crossed [askFor "B"] (askFor "C") unmasked⟩

theorem crossed_depends_on_history :
    let r := build false false [] crossed
    (r.step {} (askFor "A")).1.result = .ok (.value (some (.text "A"))) ∧
      (r.step (r.after [askFor "B"]) (askFor "A")).1.result = .ok (.value (some (.text "B"))) ∧
      (r.step (r.after [askFor "B"]) (askFor "A")).1.result ≠
        (r.step {} (askFor "A")).1.result := by
  intro r
  -- asked first, A is in progress when B needs it, so B has the name of A for a value, and A has the
  -- value of B; asked after B, it is the other way round
  have first : (r.step {} (askFor "A")).1.result = .ok (.value (some (.text "A"))) := by cbv
  have later : (r.step (r.after [askFor "B"]) (askFor "A")).1.result =
      .ok (.value (some (.text "B"))) := by cbv
  have apart : Bytes.ofString "B" ≠ Bytes.ofString "A" := by decide
  refine ⟨first, later, ?_⟩
  rw [first, later]
  intro same
  injection same with same
  injection same with same
  exact apart (Value.str.inj (Option.some.inj same))

end ConstExpr.Registry
