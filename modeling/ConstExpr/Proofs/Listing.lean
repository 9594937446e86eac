import ConstExpr.Proofs.Derivation
import ConstExpr.Proofs.Discipline
import Mathlib

/-!
Searching for one constant and listing them all are two walks through the ancestors of a class. Once
a list is known, a search agrees with it: both prefer what the class declares itself, then its
parent, then its interfaces in order, and neither computes a value a second time.
-/

namespace ConstExpr

namespace Assoc

variable {κ α : Type} [DecidableEq κ]

/-- The entries whose key has not come before. -/
def firstOccurrences : Assoc κ α → Assoc κ α
  | [] => []
  | entry :: rest => entry :: (firstOccurrences rest).filter fun other => other.1 ≠ entry.1

theorem get?_firstOccurrences (m : Assoc κ α) (key : κ) :
    get? (firstOccurrences m) key = get? m key := by
  induction m with
  | nil => rfl
  | cons entry rest ih =>
    by_cases same : entry.1 = key
    · simp [firstOccurrences, get?, same]
    · have kept := get?_filter (firstOccurrences rest) (fun other => other ≠ entry.1) key
      simp only [firstOccurrences, get?, if_neg same]
      rw [kept, if_pos (by simpa using Ne.symm same), ih]

theorem mem_of_mem_firstOccurrences {m : Assoc κ α} {entry : κ × α}
    (member : entry ∈ firstOccurrences m) : entry ∈ m := by
  induction m with
  | nil => exact member
  | cons first rest ih =>
    rcases List.mem_cons.mp member with rfl | later
    · exact List.mem_cons_self
    · exact List.mem_cons_of_mem _ (ih (List.mem_filter.mp later).1)

theorem firstOccurrences_concat (m : Assoc κ α) (key : κ) (a : α) :
    firstOccurrences (m ++ [(key, a)]) = putNew (firstOccurrences m) key a := by
  induction m with
  | nil => rfl
  | cons entry rest ih =>
    rw [List.cons_append, firstOccurrences, ih]
    by_cases same : entry.1 = key
    · have known : has (firstOccurrences (entry :: rest)) key := by
        simp [has, firstOccurrences, get?, same]
      have whole : putNew (firstOccurrences (entry :: rest)) key a =
          firstOccurrences (entry :: rest) := if_pos known
      rw [whole, firstOccurrences]
      unfold putNew
      split
      · rfl
      · simp [same]
    · have known : has (firstOccurrences (entry :: rest)) key =
          has (firstOccurrences rest) key := by
        simp only [has, get?_firstOccurrences, get?, if_neg same]
      unfold putNew
      rw [known]
      split
      · rfl
      · simp [firstOccurrences, Ne.symm same]

theorem firstOccurrences_append (m other : Assoc κ α) :
    firstOccurrences (m ++ other) = union (firstOccurrences m) other := by
  induction other generalizing m with
  | nil => simp [union]
  | cons entry rest ih =>
    calc firstOccurrences (m ++ entry :: rest)
      _ = firstOccurrences ((m ++ [entry]) ++ rest) := by simp
      _ = union (firstOccurrences (m ++ [entry])) rest := ih _
      _ = union (firstOccurrences m) (entry :: rest) := by
        rw [firstOccurrences_concat m entry.1 entry.2]
        rfl

theorem foldl_union_firstOccurrences (m : Assoc κ α) (lists : List (Assoc κ α)) :
    lists.foldl union (firstOccurrences m) = firstOccurrences (m ++ lists.flatten) := by
  induction lists generalizing m with
  | nil => simp
  | cons first rest ih =>
    rw [List.foldl_cons, ← firstOccurrences_append, ih, List.flatten_cons, List.append_assoc]

theorem put_known {m : Assoc κ α} {key : κ} {a : α} (known : get? m key = some a) :
    put m key a = m := by
  induction m with
  | nil => cases known
  | cons entry rest ih =>
    by_cases same : entry.1 = key
    · obtain rfl : entry.2 = a := by simpa [get?, same] using known
      rw [put, if_pos same]
    · simp [put, same, ih (by simpa [get?, same] using known)]

theorem put_eq_putNew {m : Assoc κ α} {key : κ} {a : α}
    (agrees : ∀ b, get? m key = some b → b = a) : put m key a = putNew m key a := by
  unfold putNew
  cases known : get? m key with
  | some b =>
    obtain rfl := agrees b known
    rw [if_pos (by simp [has, known]), put_known known]
  | none => rw [if_neg (by simp [has, known]), put_of_not_mem a (get?_eq_none_iff.mp known)]

end Assoc

namespace Eval

variable {α β : Type} {m : Memory}

theorem run_bind_idle {x : Eval α} {a : α} (first : x.run m = (.ok a, m)) (f : α → Eval β) :
    (x >>= f).run m = (f a).run m := by
  rw [run_bind_ok (by rw [first]), first]

theorem run_mapM_idle {f : α → Eval β} {members : List α} {found : List β}
    (each : List.Forall₂ (fun a b => (f a).run m = (.ok b, m)) members found) :
    (members.mapM f).run m = (.ok found, m) := by
  induction each with
  | nil => rfl
  | cons first _ ih =>
    rw [List.mapM_cons, run_bind_idle first, run_bind_idle ih]
    rfl

theorem firstSome_append (f : α → Eval (Option β)) (first second : List α) :
    firstSome f (first ++ second) = firstSome f first >>= fun
      | some b => pure (some b)
      | none => firstSome f second := by
  induction first with
  | nil => rfl
  | cons a rest ih =>
    rw [List.cons_append, firstSome, firstSome, bind_assoc]
    congr 1
    funext found
    cases found with
    | some b => rfl
    | none => exact ih

theorem run_firstSome_idle {search : α → Eval (Option Value)} {name : String} {members : List α}
    {lists : List (Assoc String Value)}
    (each : List.Forall₂ (fun a list => (search a).run m = (.ok (Assoc.get? list name), m))
      members lists) :
    (firstSome search members).run m = (.ok (Assoc.get? lists.flatten name), m) := by
  induction each with
  | nil => rfl
  | @cons a list members lists first _ ih =>
    rw [firstSome, run_bind_idle first, List.flatten_cons, Assoc.get?_append]
    cases Assoc.get? list name with
    | some v => rfl
    | none => exact ih

end Eval

namespace Memory

def Remembers (m earlier : Memory) : Prop :=
  ∀ slot v, Assoc.get? earlier.values slot = some v → Assoc.get? m.values slot = some v

theorem Remembers.refl (m : Memory) : m.Remembers m := fun _ _ known => known

theorem Remembers.trans {first second third : Memory} (later : third.Remembers second)
    (earlier : second.Remembers first) : third.Remembers first :=
  fun slot v known => later slot v (earlier slot v known)

theorem remembers_of_prefix {m earlier : Memory} (longer : earlier.values <+: m.values) :
    m.Remembers earlier := by
  intro slot v known
  obtain ⟨rest, same⟩ := longer
  rw [← same, Assoc.get?_append, known]
  rfl

end Memory

def Class.recalled (c : Class) (m : Memory) (name : String) : Option Value :=
  match c.lazyConstant? name with
  | some k => Assoc.get? m.values k.slot
  | none => c.builtinConstant? name

namespace Registry

variable {r : Registry} {asked : Option Class}

theorem Kept.remembers {before after : Memory} (kept : r.Kept asked before after) :
    after.Remembers before :=
  Memory.remembers_of_prefix kept.values

/-- The constants of a class as they are listed: those of its own in the order they are declared,
then those of its parent and of its interfaces as they are listed there; what comes first under a
name hides what comes later. -/
def Lists (r : Registry) (m : Memory) : Nat → List String → Class → Assoc String Value → Prop
  | 0, _, _, _ => False
  | fuel + 1, path, c, t => foldCase c.name ∉ path ∧ ∃ parent interfaces own inherited,
    r.parent c = .ok parent ∧ r.interfaces c = .ok interfaces ∧
    Assoc.keys own = c.ownConstantNames ∧
    (∀ entry ∈ own, c.recalled m entry.1 = some entry.2) ∧
    List.Forall₂ (r.Lists m fuel (foldCase c.name :: path))
      (parent.toList ++ interfaces.map Prod.snd) inherited ∧
    t = Assoc.firstOccurrences (own ++ inherited.flatten)

theorem Lists.widen {m : Memory} {fuel more : Nat} {path fewer : List String} {c : Class}
    {t : Assoc String Value} (lists : r.Lists m fuel path c t) (longer : fuel ≤ more)
    (shorter : fewer ⊆ path) : r.Lists m more fewer c t := by
  induction fuel generalizing more path fewer c t with
  | zero => exact lists.elim
  | succ fuel ih =>
    obtain ⟨new, parent, interfaces, own, inherited, found, named, keys, recalled, above, rfl⟩ :=
      lists
    obtain ⟨more, rfl⟩ : ∃ n, more = n + 1 := ⟨more - 1, by omega⟩
    refine ⟨fun old => new (shorter old), parent, interfaces, own, inherited, found, named, keys,
      recalled, above.imp fun a list there => ?_, rfl⟩
    exact ih there (by omega) (List.cons_subset_cons _ shorter)

theorem run_ownConstant_recalled {c : Class} {m : Memory} {name : String} {v : Value}
    (known : c.recalled m name = some v) (depth : Nat) :
    (ownConstant (r.force (depth + 1)) c name).run m = (.ok (some v), m) := by
  unfold Class.recalled at known
  unfold ownConstant
  cases found : c.lazyConstant? name with
  | none =>
    simp only [found] at known ⊢
    rw [known]
    rfl
  | some k =>
    simp only [found] at known ⊢
    have forced : (r.force (depth + 1) k).run m = (.ok v, m) := Eval.run_memoize_known known
    rw [Eval.map_eq_bind, Eval.run_bind_ok (by rw [forced]), forced]
    rfl

theorem consult_eq {evaluator : Evaluator} {c : Class} {parent : Option Class}
    {interfaces : Assoc String Class} (found : r.parent c = .ok parent)
    (named : r.interfaces c = .ok interfaces) (name : String)
    (search : Class → Eval (Option Value)) :
    r.consult evaluator name c search = ownConstant evaluator c name >>= fun
      | some v => pure (some v)
      | none => Eval.firstSome search (parent.toList ++ interfaces.map Prod.snd) := by
  unfold consult
  congr 1
  funext own
  cases own with
  | some v => rfl
  | none =>
    rw [found, named]
    refine Eq.trans ?_ (Eval.firstSome_append search parent.toList (interfaces.map Prod.snd)).symm
    refine congrArg (Eval.firstSome search parent.toList >>= ·) (funext fun inherited => ?_)
    cases inherited <;> rfl

theorem climb_new {α : Type} {path : List String} {c : Class} (new : foldCase c.name ∉ path)
    (walk : List String → Eval α) : climb path c walk = walk (foldCase c.name :: path) :=
  if_neg new

/-- A constant is found where it is listed, and nowhere if it is not. -/
theorem Lists.search {m : Memory} {fuel : Nat} {path : List String} {c : Class}
    {t : Assoc String Value} (lists : r.Lists m fuel path c t) (depth : Nat) (name : String) :
    (r.searchConstant (r.force (depth + 1)) name fuel path c).run m =
      (.ok (Assoc.get? t name), m) := by
  induction fuel generalizing path c t with
  | zero => exact lists.elim
  | succ fuel ih =>
    obtain ⟨new, parent, interfaces, own, inherited, found, named, keys, recalled, above, rfl⟩ :=
      lists
    rw [searchConstant, climb_new new, consult_eq found named, Assoc.get?_firstOccurrences,
      Assoc.get?_append]
    cases here : Assoc.get? own name with
    | some v =>
      have known := recalled _ (Assoc.mem_of_get? here)
      rw [Eval.run_bind_idle (run_ownConstant_recalled known depth)]
      rfl
    | none =>
      have lacks : name ∉ c.ownConstantNames := keys ▸ Assoc.get?_eq_none_iff.mp here
      rw [ownConstant_of_lacks lacks]
      exact Eval.run_firstSome_idle (above.imp fun a list there => ih there)

theorem put_recalled {c : Class} {m : Memory} {before : Assoc String Value} {name : String}
    {v : Value} (recalled : ∀ entry ∈ before, c.recalled m entry.1 = some entry.2)
    (known : c.recalled m name = some v) :
    Assoc.put (Assoc.firstOccurrences before) name v =
      Assoc.firstOccurrences (before ++ [(name, v)]) := by
  rw [Assoc.firstOccurrences_concat]
  apply Assoc.put_eq_putNew
  intro w old
  rw [Assoc.get?_firstOccurrences] at old
  have same := recalled _ (Assoc.mem_of_get? old)
  exact Option.some.inj (same.symm.trans known)

theorem run_ownConstants_recalled {c : Class} {m : Memory} (before : Assoc String Value)
    {own : Assoc String Value}
    (recalled : ∀ entry ∈ before ++ own, c.recalled m entry.1 = some entry.2) (depth : Nat) :
    (ownConstants (r.force (depth + 1)) c (Assoc.keys own) (Assoc.firstOccurrences before)).run m =
      (.ok (Assoc.firstOccurrences (before ++ own)), m) := by
  induction own generalizing before with
  | nil => simp [Assoc.keys, ownConstants]
  | cons entry rest ih =>
    have known := recalled entry (by simp)
    have joined : before ++ entry :: rest = (before ++ [entry]) ++ rest := by simp
    have stored : Assoc.put (Assoc.firstOccurrences before) entry.1 entry.2 =
        Assoc.firstOccurrences (before ++ [entry]) :=
      put_recalled (fun other member => recalled other (List.mem_append_left _ member)) known
    rw [joined] at recalled ⊢
    rw [← ih _ recalled, ← stored]
    exact Eval.run_bind_idle (run_ownConstant_recalled known depth) _

theorem gather_eq {evaluator : Evaluator} {fuel : Nat} {path : List String} {c : Class}
    {parent : Option Class} {interfaces : Assoc String Class} (new : foldCase c.name ∉ path)
    (found : r.parent c = .ok parent) (named : r.interfaces c = .ok interfaces) :
    r.gatherConstants evaluator (fuel + 1) path c = do
      let own ← ownConstants evaluator c c.ownConstantNames []
      let inherited ← (parent.toList ++ interfaces.map Prod.snd).mapM
        (r.gatherConstants evaluator fuel (foldCase c.name :: path))
      return inherited.foldl Assoc.union own := by
  rw [gatherConstants, climb_new new, found, named]
  rfl

theorem Lists.gather {m : Memory} {fuel : Nat} {path : List String} {c : Class}
    {t : Assoc String Value} (lists : r.Lists m fuel path c t) (depth : Nat) :
    (r.gatherConstants (r.force (depth + 1)) fuel path c).run m = (.ok t, m) := by
  induction fuel generalizing path c t with
  | zero => exact lists.elim
  | succ fuel ih =>
    obtain ⟨new, parent, interfaces, own, inherited, found, named, keys, recalled, above, rfl⟩ :=
      lists
    have first : (ownConstants (r.force (depth + 1)) c (Assoc.keys own) []).run m = _ :=
      run_ownConstants_recalled [] recalled depth
    have later := Eval.run_mapM_idle (above.imp fun a list there => ih there)
    rw [gather_eq new found named, ← keys, Eval.run_bind_idle first, Eval.run_bind_idle later,
      ← Assoc.foldl_union_firstOccurrences]
    rfl

theorem exists_of_forall₂ {α β : Type} {R : α → β → Prop} {members : List α} {found : List β}
    (each : List.Forall₂ R members found) {b : β} (inside : b ∈ found) : ∃ a ∈ members, R a b := by
  induction each with
  | nil => cases inside
  | cons first _ ih =>
    rcases List.mem_cons.mp inside with rfl | later
    · exact ⟨_, List.mem_cons_self, first⟩
    · obtain ⟨a, member, there⟩ := ih later
      exact ⟨a, List.mem_cons_of_mem _ member, there⟩

theorem Lists.declared {m : Memory} {fuel : Nat} {path : List String} {c : Class}
    {t : Assoc String Value} (lists : r.Lists m fuel path c t) {entry : String × Value}
    (member : entry ∈ t) :
    ∃ d, Relation.ReflTransGen r.Above c d ∧ entry.1 ∈ d.ownConstantNames ∧
      d.recalled m entry.1 = some entry.2 := by
  induction fuel generalizing path c t with
  | zero => exact lists.elim
  | succ fuel ih =>
    obtain ⟨new, parent, interfaces, own, inherited, found, named, keys, recalled, above, rfl⟩ :=
      lists
    rcases List.mem_append.mp (Assoc.mem_of_mem_firstOccurrences member) with here | there
    · exact ⟨c, .refl, keys ▸ List.mem_map_of_mem here, recalled entry here⟩
    · obtain ⟨list, inside, among⟩ := List.mem_flatten.mp there
      obtain ⟨a, up, lists⟩ := exists_of_forall₂ above inside
      obtain ⟨d, climbs, rest⟩ := ih lists among
      exact ⟨d, .head ((above_iff found named).mpr up) climbs, rest⟩

section Listed

variable {depth : Nat} {c : Class} {m later : Memory}

theorem get?_of_force {k : LazyConstant} {v : Value} (done : ((r.force depth k).run m).1 = .ok v) :
    Assoc.get? ((r.force depth k).run m).2.values k.slot = some v := by
  cases depth with
  | zero => cases done
  | succ depth =>
    simp only [force] at done ⊢
    cases known : Assoc.get? m.values k.slot with
    | some w =>
      rw [Eval.run_memoize_known known] at done ⊢
      rw [known, Except.ok.inj done]
    | none =>
      by_cases started : k.slot ∈ m.pending
      · rw [Eval.run_memoize_cycle known started] at done
        cases done
      · rw [Eval.run_memoize_start known started] at done ⊢
        dsimp only at done ⊢
        rw [done]
        exact Assoc.get?_put_self _ _ _

theorem recalled_of_ownConstant {name : String} (declared : name ∈ c.ownConstantNames)
    {o : Option Value} (done : ((ownConstant (r.force depth) c name).run m).1 = .ok o)
    (remembers : later.Remembers ((ownConstant (r.force depth) c name).run m).2) :
    ∃ v, o = some v ∧ c.recalled later name = some v := by
  unfold ownConstant at done remembers
  unfold Class.recalled
  cases found : c.lazyConstant? name with
  | none =>
    simp only [found] at done ⊢
    obtain rfl : c.builtinConstant? name = o := Except.ok.inj done
    cases builtin : c.builtinConstant? name with
    | some v => exact ⟨v, rfl, rfl⟩
    | none => exact absurd declared (lacks_iff.mpr ⟨found, builtin⟩)
  | some k =>
    simp only [found] at done remembers ⊢
    obtain ⟨v, forced, rfl⟩ := Eval.ok_of_map done
    rw [Eval.map_eq_bind, Eval.run_bind_ok forced] at remembers
    exact ⟨v, rfl, remembers _ _ (get?_of_force forced)⟩

theorem own_of_ownConstants (known : r.Knows asked c) (books : r.Books asked m)
    {names : List String} (declared : ∀ name ∈ names, name ∈ c.ownConstantNames)
    (before : Assoc String Value) {t : Assoc String Value}
    (recalled : ∀ entry ∈ before, c.recalled later entry.1 = some entry.2)
    (done : ((ownConstants (r.force depth) c names (Assoc.firstOccurrences before)).run m).1 =
      .ok t)
    (remembers : later.Remembers
      ((ownConstants (r.force depth) c names (Assoc.firstOccurrences before)).run m).2) :
    ∃ own, Assoc.keys own = names ∧ (∀ entry ∈ own, c.recalled later entry.1 = some entry.2) ∧
      t = Assoc.firstOccurrences (before ++ own) := by
  induction names generalizing m before with
  | nil =>
    obtain rfl := Except.ok.inj done
    exact ⟨[], rfl, by simp, by simp⟩
  | cons name rest ih =>
    have forced : ∀ k, r.Declares asked k →
        (r.bookkeeping asked).Rel (r.force depth k) (r.audited asked depth k) :=
      fun k declared => force_kept depth declared
    obtain ⟨o, first, others⟩ := Eval.ok_of_bind done
    rw [ownConstants, Eval.run_bind_ok first] at remembers
    have kept := ((r.bookkeeping asked).ownConstant forced known name m books).1
    -- the value of this constant is not lost while the others are computed
    have kept' := fun values =>
      ((r.bookkeeping asked).ownConstants forced known rest values _ kept.books).1
    have next : later.Remembers ((ownConstant (r.force depth) c name).run m).2 := by
      cases o with
      | some v => exact remembers.trans (kept' _).remembers
      | none => exact remembers.trans (kept' _).remembers
    obtain ⟨v, rfl, value⟩ := recalled_of_ownConstant (declared name List.mem_cons_self) first next
    have stored : Assoc.put (Assoc.firstOccurrences before) name v =
        Assoc.firstOccurrences (before ++ [(name, v)]) :=
      put_recalled recalled value
    have all : ∀ entry ∈ before ++ [(name, v)], c.recalled later entry.1 = some entry.2 := by
      intro entry member
      rcases List.mem_append.mp member with old | new
      · exact recalled entry old
      · rw [List.mem_singleton.mp new, value]
    dsimp only at others remembers
    rw [stored] at others remembers
    obtain ⟨own, keys, values, same⟩ := ih kept.books
      (fun other member => declared other (List.mem_cons_of_mem _ member)) _ all others remembers
    refine ⟨(name, v) :: own, ?_, ?_, ?_⟩
    · rw [Assoc.keys, List.map_cons, ← keys]
      rfl
    · exact List.forall_mem_cons.mpr ⟨value, values⟩
    · rw [same, List.append_assoc]
      rfl

theorem forall₂_of_mapM {α β : Type} {f g : α → Eval β} {R : α → β → Prop} {members : List α}
    (kept : ∀ a ∈ members, (r.bookkeeping asked).Rel (f a) (g a))
    (each : ∀ a ∈ members, ∀ m b, r.Books asked m → ((f a).run m).1 = .ok b →
      later.Remembers ((f a).run m).2 → R a b)
    (books : r.Books asked m) {found : List β} (done : ((members.mapM f).run m).1 = .ok found)
    (remembers : later.Remembers ((members.mapM f).run m).2) : List.Forall₂ R members found := by
  induction members generalizing m found with
  | nil =>
    obtain rfl := Except.ok.inj done
    exact .nil
  | cons a rest ih =>
    rw [List.mapM_cons] at done remembers
    obtain ⟨b, first, others⟩ := Eval.ok_of_bind done
    obtain ⟨bs, second, same⟩ := Eval.ok_of_bind others
    obtain rfl := Except.ok.inj same
    rw [Eval.run_bind_ok first, Eval.run_bind_ok second] at remembers
    have here := (kept a List.mem_cons_self m books).1
    have there := ((r.bookkeeping asked).mapM
      (fun other member => kept other (List.mem_cons_of_mem _ member)) _ here.books).1
    refine .cons (each a List.mem_cons_self m b books first (remembers.trans there.remembers)) ?_
    exact ih (fun other member => kept other (List.mem_cons_of_mem _ member))
      (fun other member => each other (List.mem_cons_of_mem _ member)) here.books second remembers

theorem lists_of_gather {fuel : Nat} {path : List String}
    (walked : Simulation.Path r asked fuel path) (known : r.Knows asked c) (books : r.Books asked m)
    {t : Assoc String Value}
    (done : ((r.gatherConstants (r.force depth) fuel path c).run m).1 = .ok t)
    (remembers : later.Remembers ((r.gatherConstants (r.force depth) fuel path c).run m).2) :
    r.Lists later fuel path c t := by
  have forced : ∀ k, r.Declares asked k →
      (r.bookkeeping asked).Rel (r.force depth k) (r.audited asked depth k) :=
    fun k declared => force_kept depth declared
  induction fuel generalizing path c m t with
  | zero => cases done
  | succ fuel ih =>
    -- it has ended well, so neither the class nor the names of its ancestors were in the way
    have new : foldCase c.name ∉ path := by
      intro shown
      rw [gatherConstants, climb, if_pos shown] at done
      cases done
    obtain ⟨parent, interfaces, found, named⟩ : ∃ parent interfaces,
        r.parent c = .ok parent ∧ r.interfaces c = .ok interfaces := by
      rw [gatherConstants, climb_new new] at done
      obtain ⟨first, -, rest⟩ := Eval.ok_of_bind done
      obtain ⟨parent, found, rest⟩ := Eval.ok_of_bind_lookup rest
      obtain ⟨interfaces, named, -⟩ := Eval.ok_of_bind_lookup rest
      exact ⟨parent, interfaces, found, named⟩
    rw [gather_eq new found named] at done remembers
    obtain ⟨first, own, rest⟩ := Eval.ok_of_bind done
    obtain ⟨inherited, above, same⟩ := Eval.ok_of_bind rest
    rw [Eval.run_bind_ok own, Eval.run_bind_ok above] at remembers
    have known' : ∀ a ∈ parent.toList ++ interfaces.map Prod.snd, r.Knows asked a :=
      fun a member => ((above_iff found named).mpr member).knows
    have kept := ((r.bookkeeping asked).ownConstants forced known c.ownConstantNames [] m books).1
    have climbs : ∀ a ∈ parent.toList ++ interfaces.map Prod.snd, (r.bookkeeping asked).Rel
        (r.gatherConstants (r.force depth) fuel (foldCase c.name :: path) a)
        (r.gatherConstants (r.audited asked depth) fuel (foldCase c.name :: path) a) :=
      fun a member => (r.bookkeeping asked).gatherConstants forced (walked.step known new)
        (known' a member)
    have kept' := ((r.bookkeeping asked).mapM climbs _ kept.books).1
    obtain ⟨declared, keys, recalled, whole⟩ := own_of_ownConstants known books
      (fun name member => member) [] (by simp) own (remembers.trans kept'.remembers)
    refine ⟨new, parent, interfaces, declared, inherited, found, named, keys, recalled, ?_, ?_⟩
    · refine forall₂_of_mapM climbs (fun a member m list books done there => ?_) kept.books above
        remembers
      exact ih (walked.step known new) (known' a member) books done there
    · rw [← Assoc.foldl_union_firstOccurrences]
      exact whole ▸ (Except.ok.inj same).symm

end Listed

section Moments

variable {c : Class} {m m' : Memory}

def Within (r : Registry) (c : Class) (q : Query) : Prop :=
  ∀ d, r.classAsked q = some d → d = c ∨ r.Knows none d

/-- What can happen to memory while a class is at hand: another query is answered and the class is
kept, or a query of the session is done with, which only forgets classes outside the registry. -/
inductive Moves (r : Registry) (c : Class) : Memory → Memory → Prop
  | ask {m : Memory} {q : Query} (within : r.Within c q) : Moves r c m ((r.answer q).run m).2
  | step {m : Memory} (kept : c.home? ≠ some .detached) (q : Query) : Moves r c m (r.step m q).2

theorem Within.declares {q : Query} (within : r.Within c q) {k : LazyConstant}
    (declared : r.Declares (r.classAsked q) k) : r.Declares (some c) k := by
  cases declared with
  | space found => exact .space found
  | @cls d name _ known found =>
    refine .cls ?_ found
    rcases known with asks | found
    · rcases within d asks with rfl | no | found
      · exact .inl rfl
      · cases no
      · exact .inr found
    · exact .inr found

theorem declares_of_kept (coherent : r.Coherent) (admits : r.Admits (some c))
    (kept : c.home? ≠ some .detached) {k : LazyConstant} (declared : r.Declares (some c) k) :
    r.Declares none k := by
  refine (declares_none_iff coherent admits).mpr ⟨declared, ?_⟩
  cases declared with
  | space found =>
    obtain ⟨initializer, -, rfl⟩ := Option.map_eq_some_iff.mp found
    rfl
  | cls known found =>
    obtain ⟨home, lives, slot⟩ := lazyConstant?_eq found
    rw [slot]
    rcases known.home_cases coherent admits lives with ⟨key, entry, -, rfl, -⟩ | ⟨asks, rfl⟩
    · rfl
    · rw [Option.some.inj asks] at kept
      exact absurd lives kept

theorem Moves.keeps (coherent : r.Coherent) (admits : r.Admits (some c)) (moves : r.Moves c m m')
    (idle : m.pending = []) (books : r.Books (some c) m) :
    m'.pending = [] ∧ r.Books (some c) m' ∧ m'.Remembers m := by
  cases moves with
  | @ask q within =>
    obtain ⟨kept, -⟩ := (r.bookkeeping (some c)).reply q
      (fun k declared => force_kept _ (within.declares declared)) m books
    exact ⟨kept.pending.trans idle, kept.books, kept.remembers⟩
  | step kept q =>
    have own : r.Books none m := by
      refine ⟨books.distinct, books.once, books.apart, fun slot known => ?_⟩
      obtain ⟨k, declared, same⟩ := books.declared slot known
      exact ⟨k, declares_of_kept coherent admits kept declared, same⟩
    obtain ⟨idle', books', values⟩ := step_kept coherent idle own q
    exact ⟨idle', books'.mono, Memory.remembers_of_prefix values⟩

theorem session_idle (coherent : r.Coherent) (history : List Query) :
    (r.after history).pending = [] ∧ r.Books none (r.after history) :=
  after_invariant (P := fun m => m.pending = [] ∧ r.Books none m) ⟨rfl, books_empty⟩
    (fun _ q held => ⟨(step_kept coherent held.1 held.2 q).1,
      (step_kept coherent held.1 held.2 q).2.1⟩) history

theorem moves_keep (coherent : r.Coherent) (admits : r.Admits (some c))
    (moves : Relation.ReflTransGen (r.Moves c) m m') (idle : m.pending = [])
    (books : r.Books (some c) m) : m'.pending = [] ∧ r.Books (some c) m' ∧ m'.Remembers m := by
  induction moves with
  | refl => exact ⟨idle, books, .refl m⟩
  | tail _ move ih =>
    obtain ⟨idle, books, remembers⟩ := ih
    obtain ⟨idle', books', remembers'⟩ := move.keeps coherent admits idle books
    exact ⟨idle', books', remembers'.trans remembers⟩

def constantsOf (r : Registry) (c : Class) : Eval (Assoc String Value) :=
  r.gatherConstants (r.force (r.depthBound (some c))) r.hierarchyBound [] c

/-- The value of a constant that a class declares itself. -/
def declaredValue (r : Registry) (c : Class) (name : String) : Eval (Option Value) :=
  ownConstant (r.force (r.depthBound (some c))) c name

theorem answer_constants {given : ClassSource} (found : r.source given = .ok c) :
    r.answer (.constants given) = Answer.values <$> r.constantsOf c := by
  simp only [answer, classAsked, reply, found]
  rfl

theorem answer_constant {given : ClassSource} (found : r.source given = .ok c) (name : String) :
    r.answer (.constant given name) = Answer.value <$>
      r.searchConstant (r.force (r.depthBound (some c))) name r.hierarchyBound [] c := by
  simp only [answer, classAsked, reply, found]
  rfl

theorem Lists.constantsOf {fuel : Nat} {path : List String} {t : Assoc String Value}
    (lists : r.Lists m fuel path c t) (short : fuel ≤ r.hierarchyBound) :
    (r.constantsOf c).run m = (.ok t, m) :=
  (lists.widen short (List.nil_subset _)).gather _

end Moments

/-- Once a class has listed its constants, at any moment of any session, a search for a name finds
what is listed and nothing else. The list is that of its own constants in the order they are
declared, then those that its parent lists and those that each interface lists, without the names
that came before; so an entry has the value that it has in the class that declares it. -/
theorem search_finds_listed (predefined builtin : Bool) (constants : List (String × Value))
    (files : List (String × List Stmt)) (history : List Query) (given : ClassSource) (c : Class)
    (m m' : Memory) (t : Assoc String Value) :
    let r := build predefined builtin constants files
    r.source given = .ok c → Relation.ReflTransGen (r.Moves c) (r.after history) m →
    ((r.answer (.constants given)).run m).1 = .ok (.values t) →
    Relation.ReflTransGen (r.Moves c) ((r.answer (.constants given)).run m).2 m' →
    (∀ name, ((r.answer (.constant given name)).run m').1 = .ok (.value (Assoc.get? t name))) ∧
    (∃ parent interfaces own inherited,
      r.parent c = .ok parent ∧ r.interfaces c = .ok interfaces ∧
      Assoc.keys own = c.ownConstantNames ∧
      (∀ entry ∈ own, ((r.declaredValue c entry.1).run m').1 = .ok (some entry.2)) ∧
      List.Forall₂ (fun a list => ((r.constantsOf a).run m').1 = .ok list)
        (parent.toList ++ interfaces.map Prod.snd) inherited ∧
      t = Assoc.firstOccurrences (own ++ inherited.flatten)) ∧
    ∀ entry ∈ t, ∃ d, Relation.ReflTransGen r.Above c d ∧ entry.1 ∈ d.ownConstantNames ∧
      ((r.declaredValue d entry.1).run m').1 = .ok (some entry.2) := by
  intro r found reached listed later
  have coherent : r.Coherent := build_coherent predefined builtin constants files
  have admits : r.Admits (some c) := admits_source found
  obtain ⟨idle, books, -⟩ : m.pending = [] ∧ r.Books (some c) m ∧ _ := by
    have start := session_idle coherent history
    exact moves_keep coherent admits reached start.1 start.2.mono
  have about : r.Within c (.constants given) := by
    intro d asks
    simp only [classAsked, found] at asks
    exact .inl (Option.some.inj asks).symm
  obtain ⟨idle', books', -⟩ := (Moves.ask about).keeps coherent admits idle books
  obtain ⟨-, -, remembers⟩ := moves_keep coherent admits later idle' books'
  rw [answer_constants found] at listed remembers
  obtain ⟨t, done, same⟩ := Eval.ok_of_map listed
  cases same
  rw [Eval.map_eq_bind, Eval.run_bind_ok done] at remembers
  -- nothing is forgotten in between, so the list of then is the list of now
  have lists : r.Lists m' r.hierarchyBound [] c t :=
    lists_of_gather (Simulation.Path.start r (some c)) (.inl rfl) books done remembers
  refine ⟨fun name => ?_, ?_, fun entry member => ?_⟩
  · rw [answer_constant found]
    exact Eval.run_map_ok (by rw [depthBound, lists.search]) _
  · obtain ⟨-, parent, interfaces, own, inherited, up, named, keys, recalled, above, rfl⟩ := lists
    refine ⟨parent, interfaces, own, inherited, up, named, keys, fun entry member => ?_, ?_, rfl⟩
    · rw [declaredValue, depthBound, run_ownConstant_recalled (recalled entry member)]
    · exact above.imp fun a list there => by rw [there.constantsOf (Nat.le_succ _)]
  · obtain ⟨d, climbs, declared, known⟩ := lists.declared member
    exact ⟨d, climbs, declared, by rw [declaredValue, depthBound, run_ownConstant_recalled known]⟩

def ofSelf (name : String) : Expr := .classConstant (.named (.parse "self")) name {}

def diamond : List (String × List Stmt) :=
  [("/app/a.php", [
    .cls ⟨.interface, "I", [], [], [],
      [.const [] [⟨"X", .int 1 {}, {}⟩, ⟨"Y", .int 2 {}, {}⟩] {}], {}⟩,
    .cls ⟨.cls, "P", [], [], [.parse "\\I"],
      [.const [] [⟨"Y", .int 5 {}, {}⟩, ⟨"W", ofSelf "X", {}⟩] {}], {}⟩,
    .cls ⟨.cls, "C", [], [.parse "\\P"], [.parse "\\I"],
      [.const [] [⟨"Z", ofSelf "Y", {}⟩, ⟨"A", .int 7 {}, {}⟩, ⟨"Z", .int 9 {}, {}⟩] {}], {}⟩])]

theorem diamond_search_finds_listed :
    let r := build false false [] diamond
    let listed := (r.answer (.constants (.named "C"))).run (r.after [.constant (.named "P") "W"])
    let m := ((r.answer (.globalConstant "Y")).run listed.2).2
    listed.1 = .ok (.values
      [("Z", .int 5), ("A", .int 7), ("Y", .int 5), ("W", .int 1), ("X", .int 1)]) ∧
    ((r.answer (.constant (.named "C") "Y")).run m).1 = .ok (.value (some (.int 5))) ∧
    ((r.answer (.constant (.named "C") "Q")).run m).1 = .ok (.value none) := by
  intro r listed m
  have done : (((build false false [] diamond).answer (.constants (.named "C"))).run
      ((build false false [] diamond).after [.constant (.named "P") "W"])).1 = .ok (.values
        [("Z", .int 5), ("A", .int 7), ("Y", .int 5), ("W", .int 1), ("X", .int 1)]) := by cbv
  have known : ((build false false [] diamond).source (.named "C")).toOption.isSome = true := by cbv
  obtain ⟨c, found⟩ : ∃ c, r.source (.named "C") = .ok c := by
    cases found : r.source (.named "C") with
    | ok c => exact ⟨c, rfl⟩
    | error f => simp [r, found, Except.toOption] at known
  have move : r.Moves c listed.2 m := .ask (fun d no => by cases no)
  have finds := (search_finds_listed false false [] diamond [.constant (.named "P") "W"]
    (.named "C") c _ m _ found .refl done (.single move)).1
  exact ⟨done, finds "Y", finds "Q"⟩

end Registry

end ConstExpr
