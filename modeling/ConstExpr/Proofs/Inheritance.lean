import ConstExpr.Proofs.Adequacy
import ConstExpr.Proofs.AncestorSet
import ConstExpr.Proofs.Listing

/-!
Cycles in the hierarchy of classes are reported, and nothing else is. Where no class is its own
ancestor no query about the registry reports one, whichever way a walk takes; where a class has a
cycle above it, it cannot list its constants, and a search that finds nothing on its way ends with
the report.
-/

namespace ConstExpr.Registry

variable {r : Registry} {asked : Option Class}

section Straight

def Straight (r : Registry) (asked : Option Class) : Prop :=
  ∀ c a, r.Knows asked c → Relation.TransGen r.Above c a → foldCase a.name ≠ foldCase c.name

/-- A class that is not in the registry can be asked about, but not under the name of one of its own
ancestors. -/
def Joins (r : Registry) (c : Class) : Prop :=
  r.Knows none c ∨ ∀ a, Relation.TransGen r.Above c a → foldCase a.name ≠ foldCase c.name

theorem joins_of_named {q : Query} (named : q.Named) {c : Class} (asks : r.classAsked q = some c) :
    r.Joins c := by
  obtain ⟨given, same, found⟩ := class_of_classAsked asks
  obtain ⟨name, rfl⟩ := named given same
  exact .inl (.inr (.inl ⟨name, found⟩))

theorem knows_of_transGen {c a : Class} (above : Relation.TransGen r.Above c a) :
    r.Knows none a := by
  cases above with
  | single edge => exact edge.knows
  | tail _ edge => exact edge.knows

theorem straight_of_acyclic (coherent : r.Coherent) (unambiguous : r.Unambiguous)
    (acyclic : ∀ c, r.Knows none c → ¬Relation.TransGen r.Above c c)
    (joins : ∀ c, asked = some c → r.Joins c) : r.Straight asked := by
  have apart : r.NamesApart none := by
    apply Separate.namesApart coherent unambiguous
    intro c no
    cases no
  have own : ∀ c a, r.Knows none c → Relation.TransGen r.Above c a →
      foldCase a.name ≠ foldCase c.name := by
    intro c a known above same
    -- names tell the classes of the registry apart, so the name came back with its class
    have again : a = c := apart a c (knows_of_transGen above) known same
    exact acyclic c known (again ▸ above)
  intro c a known above
  rcases known with asks | known
  · rcases joins c asks with known | fresh
    · exact own c a known above
    · exact fresh a above
  · exact own c a (.inr known) above

/-- On a straight hierarchy a walk never comes back to a name: all names on its path belong to
descendants of the class it is at. -/
def straightness (r : Registry) (asked : Option Class) (straight : r.Straight asked) :
    r.Discipline asked where
  Fine _ := True
  Allowed f := f.isCircular = false
  Walks path c := r.Knows asked c ∧
    ∀ name ∈ path, ∃ d, r.Knows asked d ∧ foldCase d.name = name ∧ Relation.TransGen r.Above d c
  plain _ := trivial
  given _ := trivial
  builtin _ _ _ _ := trivial
  empty := trivial
  unpack _ _ := trivial
  store _ _ _ := trivial
  append _ _ := trivial
  element _ _ := trivial
  binary _ _ _ := trivial
  unary _ _ := trivial
  cast _ _ := trivial
  other plain := plain
  start known := ⟨known, by simp⟩
  step := by
    rintro path c a ⟨known, below⟩ - above
    refine ⟨above.knows, List.forall_mem_cons.mpr ⟨⟨c, known, rfl, .single above⟩, ?_⟩⟩
    intro name member
    obtain ⟨d, known', same, climbs⟩ := below name member
    exact ⟨d, known', same, climbs.tail above⟩
  again := by
    rintro path c ⟨-, below⟩ shown
    obtain ⟨d, known, same, climbs⟩ := below _ shown
    exact absurd same.symm (straight d c known climbs)

theorem answer_not_circular (q : Query) (straight : r.Straight (r.classAsked q)) (m : Memory)
    (name : String) :
    ((r.answer q).run m).1 ≠ .error (.failed (.circularInheritance name)) := by
  intro reported
  have kept := answer_disciplined q (r.straightness _ straight) m fun _ _ => trivial
  have plain : (Failure.circularInheritance name).isCircular = false := kept.2.2 _ reported
  cases plain

end Straight

section Cycles

/-- The names of the parent and of the interfaces of a class are those of classes. -/
def Resolves (r : Registry) (c : Class) : Prop :=
  ∃ parent interfaces, r.parent c = .ok parent ∧ r.interfaces c = .ok interfaces

abbrev Below (r : Registry) : Class → Class → Prop := Function.swap r.Above

theorem not_acc_of_cycle {c d : Class} (climbs : Relation.ReflTransGen r.Above c d)
    (cycle : Relation.TransGen r.Above d d) : ¬Acc r.Below c := by
  intro ends
  induction climbs using Relation.ReflTransGen.head_induction_on with
  | refl =>
    have ends' : Acc (Relation.TransGen r.Below) d := ends.transGen
    induction ends' with
    | intro d _ ih => exact ih d (Relation.transGen_swap.mpr cycle) cycle ends
  | head edge _ ih => exact ih (ends.inv edge)

def reporting (r : Registry) (c : Class) : Contract where
  keeps _ := True
  allows f := ∃ d, Relation.ReflTransGen r.Above c d ∧ f = .circularInheritance d.name
  noted _ _ _ := trivial

theorem search_reports {evaluator : Evaluator} {start : Class} {name : String}
    (resolves : ∀ d, Relation.ReflTransGen r.Above start d → r.Resolves d)
    (nowhere : ∀ d, Relation.ReflTransGen r.Above start d → name ∉ d.ownConstantNames)
    (fuel : Nat) (path : List String) {c : Class}
    (reached : Relation.ReflTransGen r.Above start c) :
    (r.reporting start).Ensures (r.searchConstant evaluator name fuel path c) fun o =>
      o = none ∧ Acc r.Below c := by
  induction fuel generalizing path c with
  | zero => exact Contract.ensures_outOfFuel
  | succ fuel ih =>
    rw [searchConstant]
    by_cases shown : foldCase c.name ∈ path
    · rw [climb, if_pos shown]
      exact Contract.ensures_fail ⟨c, reached, rfl⟩
    · obtain ⟨parent, interfaces, found, named⟩ := resolves c reached
      rw [climb_new shown, consult_eq found named, ownConstant_of_lacks (nowhere c reached)]
      -- nothing is found on the way, so all that is next above the class is searched
      have each := fun a (member : a ∈ parent.toList ++ interfaces.map Prod.snd) =>
        ih (foldCase c.name :: path) (reached.tail ((above_iff found named).mpr member))
      refine (Contract.ensures_firstSome each).mono ?_
      rintro o (⟨v, -, a, -, no, -⟩ | ⟨rfl, all⟩)
      · cases no
      · refine ⟨rfl, Acc.intro c fun a above => ?_⟩
        exact (all a ((above_iff found named).mp above)).2

def lenient : Contract where
  keeps _ := True
  allows _ := True
  noted _ _ _ := trivial

theorem lenient_ensures {α : Type} (x : Eval α) : lenient.Ensures x fun _ => True :=
  fun _ _ => ⟨trivial, fun _ _ => trivial, fun _ _ => trivial⟩

theorem gather_ends {evaluator : Evaluator} (fuel : Nat) (path : List String) (c : Class) :
    lenient.Ensures (r.gatherConstants evaluator fuel path c) fun _ => Acc r.Below c := by
  induction fuel generalizing path c with
  | zero => exact Contract.ensures_outOfFuel
  | succ fuel ih =>
    rw [gatherConstants]
    by_cases shown : foldCase c.name ∈ path
    · rw [climb, if_pos shown]
      exact Contract.ensures_fail trivial
    · rw [climb_new shown]
      refine (lenient_ensures _).bind fun own _ => ?_
      refine Contract.ensures_bindLookup (fun _ _ => trivial) fun parent found => ?_
      refine Contract.ensures_bindLookup (fun _ _ => trivial) fun interfaces named => ?_
      have each := fun a (_ : a ∈ parent.toList ++ interfaces.map Prod.snd) =>
        (ih (foldCase c.name :: path) a).mono fun _ ends => And.intro ends trivial
      refine (Contract.ensures_mapM each).bind fun inherited above => ?_
      have ends := (List.forall₂_and_left _ _).mp above
      refine Contract.ensures_pure (Acc.intro c fun a edge => ?_)
      exact ends.1 a ((above_iff found named).mp edge)

variable (coherent : r.Coherent) {given : ClassSource} {c d : Class}
  (found : r.source given = .ok c) (climbs : Relation.ReflTransGen r.Above c d)
  (cycle : Relation.TransGen r.Above d d) (m : Memory)

include coherent found climbs cycle

theorem constants_fail : ∃ f, ((r.answer (.constants given)).run m).1 = .error (.failed f) := by
  have halts := (answer_halts coherent (.constants given) m 0).1
  rw [answer_constants found] at halts ⊢
  rcases result : ((Answer.values <$> r.constantsOf c).run m).1 with (f | _) | t
  · exact ⟨f, rfl⟩
  · exact absurd result halts
  · obtain ⟨t, listed, -⟩ := Eval.ok_of_map result
    exact absurd ((gather_ends _ _ c m trivial).2.1 t listed) (not_acc_of_cycle climbs cycle)

theorem constant_reported (resolves : ∀ d, Relation.ReflTransGen r.Above c d → r.Resolves d)
    {name : String} (nowhere : ∀ d, Relation.ReflTransGen r.Above c d → name ∉ d.ownConstantNames) :
    ∃ d, Relation.ReflTransGen r.Above c d ∧ ((r.answer (.constant given name)).run m).1 =
      .error (.failed (.circularInheritance d.name)) := by
  have halts := (answer_halts coherent (.constant given name) m 0).1
  rw [answer_constant found] at halts ⊢
  have ensured : (r.reporting c).Ensures (Answer.value <$> r.searchConstant
      (r.force (r.depthBound (some c))) name r.hierarchyBound [] c) fun _ => Acc r.Below c :=
    (search_reports resolves nowhere r.hierarchyBound [] .refl).map fun o good => good.2
  obtain ⟨-, value, failure⟩ := ensured m trivial
  rcases result : ((Answer.value <$> r.searchConstant (r.force (r.depthBound (some c))) name
    r.hierarchyBound [] c).run m).1 with (f | _) | o
  · obtain ⟨d, reached, rfl⟩ := failure f result
    exact ⟨d, reached, rfl⟩
  · exact absurd result halts
  · exact absurd (value o result) (not_acc_of_cycle climbs cycle)

end Cycles

/-- If no class of the registry is its own ancestor, no query about the registry ever ends with the
report of a cycle, however many ways lead to an ancestor. -/
theorem acyclic_never_reported (predefined builtin : Bool) (constants : List (String × Value))
    (files : List (String × List Stmt))
    (unambiguous : (build predefined builtin constants files).Unambiguous) :
    let r := build predefined builtin constants files
    (∀ c, r.Knows none c → ¬Relation.TransGen r.Above c c) →
      ∀ q : Query, q.Named → ∀ m name,
        (r.step m q).1.result ≠ .error (.failed (.circularInheritance name)) := by
  intro r acyclic q named m name
  have coherent : r.Coherent := build_coherent predefined builtin constants files
  have straight : r.Straight (r.classAsked q) :=
    straight_of_acyclic coherent unambiguous acyclic fun _ asks => joins_of_named named asks
  exact answer_not_circular q straight m name

/-- Cycles in the hierarchy are reported exactly where there are any. If no class of the registry is
its own ancestor, a query never ends with the report, and it may also hand in a class, as long as no
ancestor of that class has its name. If there is a cycle above a class and the names up to it
resolve, its constants cannot be listed, and a search for a name that no ancestor declares ends with
the report. The walks may as well share one set of names: each leaves it as it found it, however it
ends. -/
theorem cycles_reported_exactly (predefined builtin : Bool) (constants : List (String × Value))
    (files : List (String × List Stmt))
    (unambiguous : (build predefined builtin constants files).Unambiguous) :
    let r := build predefined builtin constants files
    ((∀ c, r.Knows none c → ¬Relation.TransGen r.Above c c) →
      ∀ q, (∀ c, r.classAsked q = some c → r.Joins c) → ∀ m name,
        (r.step m q).1.result ≠ .error (.failed (.circularInheritance name))) ∧
    (∀ given c, r.source given = .ok c →
      (∀ d, Relation.ReflTransGen r.Above c d → r.Resolves d) →
      (∃ d, Relation.ReflTransGen r.Above c d ∧ Relation.TransGen r.Above d d) → ∀ m,
        (∃ f, (r.step m (.constants given)).1.result = .error (.failed f)) ∧
        ∀ name, (∀ d, Relation.ReflTransGen r.Above c d → name ∉ d.ownConstantNames) →
          ∃ d, Relation.ReflTransGen r.Above c d ∧ (r.step m (.constant given name)).1.result =
            .error (.failed (.circularInheritance d.name))) ∧
    ∀ evaluator name fuel path c,
      Tracked.Restores path.toFinset (r.searchConstant evaluator name fuel path c)
        (r.trackedSearch evaluator name fuel c) ∧
      Tracked.Restores path.toFinset (r.gatherConstants evaluator fuel path c)
        (r.trackedGather evaluator fuel c) ∧
      Tracked.Restores path.toFinset (r.searchProperty evaluator name fuel path c)
        (r.trackedProperty evaluator name fuel c) := by
  intro r
  have coherent : r.Coherent := build_coherent predefined builtin constants files
  refine ⟨?_, ?_, ?_⟩
  · intro acyclic q joins m name
    have straight : r.Straight (r.classAsked q) :=
      straight_of_acyclic coherent unambiguous acyclic joins
    exact answer_not_circular q straight m name
  · intro given c found resolves cyclic m
    obtain ⟨d, climbs, cycle⟩ := cyclic
    refine ⟨constants_fail coherent found climbs cycle m, fun name nowhere => ?_⟩
    exact constant_reported coherent found climbs cycle m resolves nowhere
  · intro evaluator name fuel path c
    exact ⟨search_restores evaluator name fuel path c, gather_restores evaluator fuel path c,
      property_restores evaluator name fuel path c⟩

section Checks

def checksAbove (r : Registry) (test : Class → List Class → Bool) : Bool :=
  r.classes.all fun p =>
    match r.parent (kept p), r.interfaces (kept p) with
    | .ok parent, .ok interfaces => test (kept p) (parent.toList ++ interfaces.map Prod.snd)
    | _, _ => false

theorem above_of_checks {test : Class → List Class → Bool} (bare : r.internals = [])
    (passed : r.checksAbove test = true) {c : Class} (known : r.Knows none c) :
    r.Resolves c ∧ ∃ next, (∀ a, r.Above c a ↔ a ∈ next) ∧ test c next = true := by
  have builtin : ∀ name, r.internal? name ≠ some c := by
    intro name
    simp [internal?, bare, Assoc.get?]
  obtain ⟨p, member, rfl⟩ : ∃ p ∈ r.classes, c = kept p := by
    rcases known with no | ⟨name, found⟩ | ⟨name, inside⟩
    · cases no
    · rcases find_eq found with ⟨entry, here, same⟩ | inside
      · exact ⟨_, Assoc.mem_of_get? here, same⟩
      · exact absurd inside (builtin name)
    · exact absurd inside (builtin name)
  have here := List.all_eq_true.mp passed p member
  cases found : r.parent (kept p) with
  | error f => simp [found] at here
  | ok parent =>
    cases named : r.interfaces (kept p) with
    | error f => simp [found, named] at here
    | ok interfaces =>
      refine ⟨⟨parent, interfaces, found, named⟩, _, fun a => above_iff found named, ?_⟩
      simpa [found, named] using here

theorem acyclic_of_lower {height : Class → Nat}
    (lower : ∀ c a, r.Knows none c → r.Above c a → height a < height c) {c : Class}
    (known : r.Knows none c) : ¬Relation.TransGen r.Above c c := by
  have climbs : ∀ a, Relation.TransGen r.Above c a → height a < height c := by
    intro a above
    induction above with
    | single edge => exact lower _ _ known edge
    | tail before edge ih => exact (lower _ _ (knows_of_transGen before) edge).trans ih
  intro cycle
  exact absurd (climbs c cycle) (Nat.lt_irrefl _)

theorem knows_of_reach {c d : Class} (known : r.Knows none c)
    (reached : Relation.ReflTransGen r.Above c d) : r.Knows none d := by
  cases reached with
  | refl => exact known
  | tail _ edge => exact edge.knows

end Checks

def ring : List (String × List Stmt) :=
  -- A and B extend each other, and C extends A
  [("/app/a.php", [classWith "A" [.parse "\\B"] [], classWith "B" [.parse "\\A"] [],
    classWith "C" [.parse "\\A"] []])]

def diamondHeight (c : Class) : Nat :=
  if c.name = "C" then 2 else if c.name = "P" then 1 else 0

theorem diamond_passes_ring_reported :
    (let r := build false false [] diamond;
      r.Unambiguous ∧ (∀ c, r.Knows none c → ¬Relation.TransGen r.Above c c) ∧
      ∀ m n name, (r.step m (.constant (.named "C") n)).1.result ≠
        .error (.failed (.circularInheritance name))) ∧
    (let r := build false false [] ring;
      r.Unambiguous ∧ ∃ c, r.source (.named "C") = .ok c ∧
      (∀ d, Relation.ReflTransGen r.Above c d → r.Resolves d ∧ "X" ∉ d.ownConstantNames) ∧
      (∃ d, Relation.ReflTransGen r.Above c d ∧ Relation.TransGen r.Above d d) ∧
      ∀ m, ∃ d, Relation.ReflTransGen r.Above c d ∧
        (r.step m (.constant (.named "C") "X")).1.result =
          .error (.failed (.circularInheritance d.name))) := by
  have bare : ∀ files, (build false false [] files).internals = [] := by
    intro files
    apply build_invariant (P := fun r => r.internals = [])
    · exact fun _ _ held => held
    · rfl
    · intro r space file _ s _ held
      cases s <;> exact held
  have plain : ∀ files, (build false false [] files).Unambiguous := by
    intro files key _ builtin
    rw [bare files] at builtin
    cases builtin
  constructor
  · intro r
    have passed : (build false false [] diamond).checksAbove (fun c next =>
        next.all fun a => diamondHeight a < diamondHeight c) = true := by cbv
    have lower : ∀ c a, r.Knows none c → r.Above c a → diamondHeight a < diamondHeight c := by
      intro c a known above
      obtain ⟨-, next, all, lower⟩ := above_of_checks (bare diamond) passed known
      exact of_decide_eq_true (List.all_eq_true.mp lower a ((all a).mp above))
    have acyclic : ∀ c, r.Knows none c → ¬Relation.TransGen r.Above c c :=
      fun c known => acyclic_of_lower lower known
    refine ⟨plain diamond, acyclic, fun m n name => ?_⟩
    have named : (Query.constant (.named "C") n).Named := by
      rintro _ ⟨⟩
      exact ⟨"C", rfl⟩
    exact (cycles_reported_exactly false false [] diamond (plain diamond)).1 acyclic _
      (fun c asks => joins_of_named named asks) m name
  · intro r
    have passed : (build false false [] ring).checksAbove (fun c next =>
        c.ownConstantNames.isEmpty &&
          next.map (·.name) == [if c.name = "A" then "B" else "A"]) = true := by cbv
    have next : ∀ c, r.Knows none c → r.Resolves c ∧ c.ownConstantNames = [] ∧
        ∃ a, r.Above c a ∧ a.name = if c.name = "A" then "B" else "A" := by
      intro c known
      obtain ⟨resolves, next, all, passes⟩ := above_of_checks (bare ring) passed known
      obtain ⟨empty, names⟩ : c.ownConstantNames = [] ∧
          next.map (·.name) = [if c.name = "A" then "B" else "A"] := by simpa using passes
      obtain ⟨a, rfl, name⟩ := List.map_eq_singleton_iff.mp names
      exact ⟨resolves, empty, a, (all a).mpr List.mem_cons_self, name⟩
    have called : ((build false false [] ring).source (.named "C")).toOption.map (·.name) =
        some "C" := by cbv
    obtain ⟨c, found, name⟩ : ∃ c, r.source (.named "C") = .ok c ∧ c.name = "C" := by
      cases found : r.source (.named "C") with
      | error f => simp [r, found, Except.toOption] at called
      | ok c => exact ⟨c, rfl, by simpa [r, found, Except.toOption] using called⟩
    have known : r.Knows none c := .inr (.inl ⟨"C", found⟩)
    obtain ⟨-, -, a, edge, first⟩ := next c known
    obtain ⟨-, -, b, edge', second⟩ := next a edge.knows
    obtain ⟨-, -, a', edge'', third⟩ := next b edge'.knows
    have first : a.name = "A" := by simpa [name] using first
    have second : b.name = "B" := by simpa [first] using second
    have third : a'.name = "A" := by simpa [second] using third
    have apart : r.NamesApart none :=
      Separate.namesApart (build_coherent false false [] ring) (plain ring) fun _ no => by cases no
    obtain rfl : a' = a := apart a' a edge''.knows edge.knows (by rw [third, first])
    have cyclic : ∃ d, Relation.ReflTransGen r.Above c d ∧ Relation.TransGen r.Above d d :=
      ⟨a', .single edge, .tail (.single edge') edge''⟩
    have all : ∀ d, Relation.ReflTransGen r.Above c d →
        r.Resolves d ∧ "X" ∉ d.ownConstantNames := by
      intro d reached
      obtain ⟨resolves, empty, -⟩ := next d (knows_of_reach known reached)
      exact ⟨resolves, by simp [empty]⟩
    refine ⟨plain ring, c, found, all, cyclic, fun m => ?_⟩
    have reported := (cycles_reported_exactly false false [] ring (plain ring)).2.1 (.named "C") c
      found (fun d reached => (all d reached).1) cyclic m
    exact reported.2 "X" fun d reached => (all d reached).2

end ConstExpr.Registry
