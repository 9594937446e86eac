import ConstExpr.Proofs.NameText
import ConstExpr.Text.Directory
import Mathlib.Logic.Function.Iterate

/-!
Directories of paths. A path that is not empty is slashes only, or one component, or a component
below a directory, the last two with any number of slashes at the end; the three cases settle the
directory of every path. Going up from a path leads to the root, or to the dot where the path does
not begin there.
-/

namespace ConstExpr

/-- The text holds nothing but slashes. -/
def Slashes (s : String) : Prop := ∀ c ∈ s.toList, c = '/'

/-- The text does not end in a slash. -/
def Bare (s : String) : Prop := s.toList.getLast? ≠ some '/'

instance (s : String) : Decidable (Slashes s) := List.decidableBAll (· = '/') s.toList

instance (s : String) : Decidable (Bare s) :=
  inferInstanceAs (Decidable (s.toList.getLast? ≠ some '/'))

section Trim

variable {s t : String}

theorem trimRight_append_slashes (slashes : Slashes t) :
    trimRight '/' (s ++ t) = trimRight '/' s := by
  have all : ∀ c ∈ t.toList.reverse, (c == '/') = true := by
    intro c member
    simpa using slashes c (List.mem_reverse.mp member)
  rw [trimRight, String.toList_append, List.reverse_append, List.dropWhile_append_of_pos all]
  rfl

theorem trimRight_slashes (slashes : Slashes s) : trimRight '/' s = "" := by
  have front := trimRight_append_slashes (s := "") slashes
  rw [String.empty_append] at front
  exact front

theorem trimRight_of_bare (bare : Bare s) : trimRight '/' s = s := by
  rw [← String.toList_inj, trimRight, String.toList_ofList]
  refine List.rdropWhile_eq_self_iff.mpr fun filled last => bare ?_
  rw [List.getLast?_eq_some_getLast filled, beq_iff_eq.mp last]

theorem exists_trimmed (s : String) :
    ∃ front back, s = front ++ back ∧ Bare front ∧ Slashes back := by
  have split := List.rdropWhile_append_rtakeWhile (p := (· == '/')) (l := s.toList)
  refine ⟨String.ofList (s.toList.rdropWhile (· == '/')),
    String.ofList (s.toList.rtakeWhile (· == '/')), ?_, ?_, ?_⟩
  · rw [← String.ofList_append, split, String.ofList_toList]
  · intro last
    rw [String.toList_ofList] at last
    have filled : s.toList.rdropWhile (· == '/') ≠ [] := by
      intro empty
      rw [empty] at last
      cases last
    rw [List.getLast?_eq_some_getLast filled] at last
    have stays := List.rdropWhile_last_not (· == '/') s.toList filled
    rw [Option.some.inj last] at stays
    exact stays rfl
  · intro c member
    rw [String.toList_ofList] at member
    simpa using List.mem_rtakeWhile_imp member

theorem exists_lastSlash (inside : '/' ∈ s.toList) :
    ∃ before base, s = before ++ "/" ++ base ∧ '/' ∉ base.toList := by
  obtain ⟨after, before, split, plain⟩ :=
    List.eq_append_cons_of_mem (List.mem_reverse.mpr inside)
  refine ⟨String.ofList before.reverse, String.ofList after.reverse, ?_, by simpa using plain⟩
  have whole := congrArg List.reverse split
  rw [List.reverse_reverse] at whole
  rw [← String.toList_inj, whole]
  simp

theorem Slashes.exists_last (slashes : Slashes s) (filled : s ≠ "") :
    ∃ first, s = first ++ "/" ∧ Slashes first := by
  rcases List.eq_nil_or_concat s.toList with none | ⟨first, c, split⟩
  · exact absurd (String.toList_inj.mp none) filled
  · have last : c = '/' := slashes c (by simp [split])
    refine ⟨String.ofList first, ?_, fun x member => slashes x ?_⟩
    · rw [← String.toList_inj, split, last]
      simp
    · rw [String.toList_ofList] at member
      simp [split, member]

theorem bare_append (named : t ≠ "") (plain : '/' ∉ t.toList) : Bare (s ++ t) := by
  intro last
  have filled : t.toList ≠ [] := fun none => named (String.toList_inj.mp none)
  rw [String.toList_append, List.getLast?_append_of_ne_nil _ filled] at last
  exact plain (List.mem_of_getLast? last)

end Trim

/-- How a path is made up that is not empty. -/
inductive Divided : String → Prop where
  | top {t : String} (slashes : Slashes t) (filled : t ≠ "") : Divided t
  | single {base t : String} (named : base ≠ "") (plain : '/' ∉ base.toList)
      (slashes : Slashes t) : Divided (base ++ t)
  | below {d s base t : String} (bare : Bare d) (between : Slashes s) (apart : s ≠ "")
      (named : base ≠ "") (plain : '/' ∉ base.toList) (slashes : Slashes t) :
      Divided (d ++ s ++ base ++ t)

theorem Divided.of_ne_empty {p : String} (filled : p ≠ "") : Divided p := by
  obtain ⟨front, t, rfl, bare, slashes⟩ := exists_trimmed p
  by_cases empty : front = ""
  · rw [empty, String.empty_append] at filled ⊢
    exact .top slashes filled
  -- the last slash of what is left stands before the last component
  by_cases inside : '/' ∈ front.toList
  · obtain ⟨before, base, rfl, plain⟩ := exists_lastSlash inside
    obtain ⟨d, s, rfl, above, between⟩ := exists_trimmed before
    have named : base ≠ "" := by
      rintro rfl
      exact bare (by simp)
    have between : Slashes (s ++ "/") := by
      intro c member
      rw [String.toList_append] at member
      rcases List.mem_append.mp member with first | last
      · exact between c first
      · exact List.mem_singleton.mp last
    have whole : d ++ s ++ "/" ++ base ++ t = d ++ (s ++ "/") ++ base ++ t := by
      simp only [String.append_assoc]
    rw [whole]
    exact .below above between (by simp) named plain slashes
  · exact .single empty inside slashes

section Value

variable {d s base t : String}

theorem directory_append_slashes {p : String} (filled : p ≠ "") (slashes : Slashes t) :
    directory (p ++ t) = directory p := by
  have whole : ¬p.isEmpty := fun empty => filled (String.isEmpty_iff.mp empty)
  have longer : ¬(p ++ t).isEmpty := by simp [filled]
  simp only [directory, trimRight_append_slashes slashes, whole, longer, Bool.false_eq_true,
    if_false]

theorem directory_of_bare {p : String} (filled : p ≠ "") (bare : Bare p) :
    directory p = (splitLast '/' p).elim "." fun parts =>
      if trimRight '/' parts.1 = "" then "/" else trimRight '/' parts.1 := by
  have whole : ¬p.isEmpty := fun empty => filled (String.isEmpty_iff.mp empty)
  simp only [directory, trimRight_of_bare bare, whole, Bool.false_eq_true, if_false,
    String.isEmpty_iff]
  cases splitLast '/' p <;> rfl

theorem directory_top (slashes : Slashes t) (filled : t ≠ "") : directory t = "/" := by
  have whole : ¬t.isEmpty := fun empty => filled (String.isEmpty_iff.mp empty)
  simp only [directory, trimRight_slashes slashes, whole, Bool.false_eq_true, if_false]
  rfl

theorem directory_single (named : base ≠ "") (plain : '/' ∉ base.toList) (slashes : Slashes t) :
    directory (base ++ t) = "." := by
  have bare : Bare base := by
    have alone := bare_append (s := "") named plain
    rwa [String.empty_append] at alone
  rw [directory_append_slashes named slashes, directory_of_bare named bare,
    splitLast_eq_none plain, Option.elim_none]

theorem directory_below (bare : Bare d) (between : Slashes s) (apart : s ≠ "") (named : base ≠ "")
    (plain : '/' ∉ base.toList) (slashes : Slashes t) :
    directory (d ++ s ++ base ++ t) = if d = "" then "/" else d := by
  obtain ⟨first, rfl, before⟩ := between.exists_last apart
  have filled : d ++ (first ++ "/") ++ base ≠ "" := by simp [named]
  have parts : splitLast '/' (d ++ (first ++ "/") ++ base) = some (d ++ first, base) := by
    rw [← String.append_assoc]
    exact splitLast_append (d ++ first) plain
  have above : trimRight '/' (d ++ first) = d := by
    rw [trimRight_append_slashes before, trimRight_of_bare bare]
  rw [directory_append_slashes filled slashes, directory_of_bare filled (bare_append named plain),
    parts, Option.elim_some, above]

end Value

section Ascent

/-- Where going up from a path ends. -/
def topmost (p : String) : String := if p.toList.head? = some '/' then "/" else "."

theorem topmost_of_slashes {s : String} (slashes : Slashes s) (filled : s ≠ "") (rest : String) :
    topmost (s ++ rest) = "/" := by
  cases chars : s.toList with
  | nil => exact absurd (String.toList_inj.mp chars) filled
  | cons c tail =>
    have first : c = '/' := slashes c (by simp [chars])
    simp [topmost, chars, first]

theorem topmost_append {s : String} (filled : s ≠ "") (rest : String) :
    topmost (s ++ rest) = topmost s := by
  cases chars : s.toList with
  | nil => exact absurd (String.toList_inj.mp chars) filled
  | cons c tail => simp [topmost, chars]

theorem topmost_of_plain {base : String} (plain : '/' ∉ base.toList) : topmost base = "." :=
  if_neg fun first => plain (List.mem_of_mem_head? first)

theorem directory_topmost (p : String) : directory (topmost p) = topmost p := by
  unfold topmost
  split <;> decide +kernel

/-- One step up ends the way, or leads to a shorter path with the same end. -/
theorem directory_step {p : String} (filled : p ≠ "") :
    directory p = topmost p ∨ (directory p ≠ "" ∧ Bare (directory p) ∧
      (directory p).length < p.length ∧ topmost (directory p) = topmost p) := by
  cases Divided.of_ne_empty filled with
  | top slashes _ =>
    left
    have top := topmost_of_slashes slashes filled ""
    rw [String.append_empty] at top
    rw [directory_top slashes filled, top]
  | single named plain slashes =>
    left
    rw [directory_single named plain slashes, topmost_append named, topmost_of_plain plain]
  | @below d s base t bare between apart named plain slashes =>
    rw [directory_below bare between apart named plain slashes]
    by_cases root : d = ""
    · left
      rw [if_pos root, root, String.empty_append, String.append_assoc,
        topmost_of_slashes between apart]
    · right
      rw [if_neg root]
      have longer : s.length ≠ 0 := fun none => apart (String.length_eq_zero_iff.mp none)
      refine ⟨root, bare, ?_, ?_⟩
      · simp only [String.length_append]
        omega
      · simp only [String.append_assoc, topmost_append root]

theorem iterate_directory {p : String} {steps : Nat} (filled : p ≠ "")
    (enough : p.length ≤ steps) : directory^[steps] p = topmost p := by
  induction steps generalizing p with
  | zero =>
    have none : p.length = 0 := Nat.le_zero.mp enough
    exact absurd (String.length_eq_zero_iff.mp none) filled
  | succ steps ih =>
    rw [Function.iterate_succ_apply]
    rcases directory_step filled with last | ⟨above, -, shorter, same⟩
    · rw [last, Function.iterate_fixed (directory_topmost p)]
    · rw [ih above (by omega), same]

/-- The directory of a path that is not empty: slashes at the end play no part; it is not empty and
does not end in a slash, the root apart; what stands before the slashes before the last component
is the directory, or the root where nothing does; and going up leads to the root or to the dot, and
stays there. -/
theorem directory_laws {p : String} (filled : p ≠ "") :
    directory (p ++ "/") = directory p ∧
      directory p ≠ "" ∧ (directory p = "/" ∨ Bare (directory p)) ∧
      (∀ d s base t, p = d ++ s ++ base ++ t → Bare d → Slashes s → s ≠ "" → base ≠ "" →
        '/' ∉ base.toList → Slashes t → directory p = if d = "" then "/" else d) ∧
      (∀ steps, p.length ≤ steps → directory^[steps] p = topmost p) ∧
      directory (topmost p) = topmost p := by
  have slash : Slashes "/" := by
    intro c member
    simpa using member
  have result : directory p ≠ "" ∧ (directory p = "/" ∨ Bare (directory p)) := by
    rcases directory_step filled with last | ⟨above, bare, -, -⟩
    · rw [last, topmost]
      split
      · exact ⟨by decide, .inl rfl⟩
      · exact ⟨by decide, .inr (by decide)⟩
    · exact ⟨above, .inr bare⟩
  refine ⟨directory_append_slashes filled slash, result.1, result.2, ?_, ?_, directory_topmost p⟩
  · rintro d s base t rfl bare between apart named plain slashes
    exact directory_below bare between apart named plain slashes
  · intro steps enough
    exact iterate_directory filled enough

theorem slashed_path_laws :
    "//var//www/" ≠ "" ∧ directory "//var//www/" = "//var" ∧
      directory^[11] "//var//www/" = "/" := by
  have filled : "//var//www/" ≠ "" := by decide
  obtain ⟨-, -, -, below, ascent, -⟩ := directory_laws filled
  refine ⟨filled, ?_, ?_⟩
  · rw [below "//var" "//" "www" "/" (by decide +kernel) (by decide) (by decide) (by decide)
      (by decide) (by decide) (by decide)]
    decide
  · rw [ascent 11 (by decide)]
    decide

end Ascent

end ConstExpr
