import ConstExpr.Proofs.Coherence
import Mathlib.Data.List.DropRight
import Mathlib.Tactic.Common

/-!
Full names as texts. A short name without separators comes off a full name again, together with the
namespace it was put in; a trimmed namespace has no separator in front and is not trimmed further.
-/

namespace ConstExpr

section Case

theorem toLower_eq_separator_iff (c : Char) : c.toLower = '\\' ↔ c = '\\' := by
  constructor
  · intro same
    unfold Char.toLower at same
    split at same
    next upper =>
      obtain ⟨low, high⟩ := upper
      have low : 65 ≤ c.val.toNat := UInt32.le_iff_toNat_le.mp low
      have high : c.val.toNat ≤ 90 := UInt32.le_iff_toNat_le.mp high
      have value : (c.val + 32).toNat = 92 := congrArg UInt32.toNat (congrArg Char.val same)
      have small : (32 : UInt32).toNat = 32 := rfl
      rw [UInt32.toNat_add] at value
      omega
    next => exact same
  · rintro rfl
    decide

theorem toList_foldCase (s : String) : (foldCase s).toList = s.toList.map Char.toLower := by
  simp [foldCase]

theorem head?_foldCase {s : String} :
    (foldCase s).toList.head? = some '\\' ↔ s.toList.head? = some '\\' := by
  rw [toList_foldCase]
  cases s.toList with
  | nil => simp
  | cons c rest => simp [toLower_eq_separator_iff]

theorem keyword?_of_separator {s : String} (inside : '\\' ∈ s.toList) :
    Builtin.keyword? s = none := by
  have stays : '\\' ∈ (foldCase s).toList := by
    rw [toList_foldCase]
    exact List.mem_map.mpr ⟨'\\', inside, by decide⟩
  unfold Builtin.keyword?
  split
  next same => exact absurd (same ▸ stays) (by decide)
  next same => exact absurd (same ▸ stays) (by decide)
  next same => exact absurd (same ▸ stays) (by decide)
  next => rfl

end Case

section Trim

variable {c : Char} {s : String}

theorem trimLeft_of_head? (bare : s.toList.head? ≠ some c) : trimLeft c s = s := by
  rw [← String.toList_inj, trimLeft, String.toList_ofList]
  cases chars : s.toList with
  | nil => rfl
  | cons x rest =>
    have apart : x ≠ c := by simpa [chars] using bare
    simp [apart]

theorem head?_trimBoth (c : Char) (s : String) : (trimBoth c s).toList.head? ≠ some c := by
  have whole : (trimBoth c s).toList = (s.toList.dropWhile (· == c)).rdropWhile (· == c) := by
    simp [trimBoth, trimRight, trimLeft, List.rdropWhile]
  rw [whole]
  generalize dropped : s.toList.dropWhile (· == c) = rest
  intro first
  -- what is left is a prefix of what has lost its separators in front
  obtain ⟨tail, same⟩ := List.rdropWhile_prefix (· == c) rest
  have front := List.head?_dropWhile_not (· == c) s.toList
  rw [dropped, ← same, List.head?_append, first] at front
  simp at front

theorem trimBoth_trimBoth (c : Char) (s : String) : trimBoth c (trimBoth c s) = trimBoth c s := by
  have left : trimLeft c (trimBoth c s) = trimBoth c s := trimLeft_of_head? (head?_trimBoth c s)
  have right : ∀ t, trimRight c (trimRight c t) = trimRight c t := by
    intro t
    have again := List.rdropWhile_idempotent (· == c) t.toList
    simp only [List.rdropWhile] at again
    simp only [trimRight, String.toList_ofList, again]
  calc trimBoth c (trimBoth c s)
    _ = trimRight c (trimBoth c s) := by rw [trimBoth, left]
    _ = trimBoth c s := right _

theorem trimBoth_foldCase (s : String) :
    trimBoth '\\' (foldCase s) = foldCase (trimBoth '\\' s) := by
  have same : (fun x => x.toLower == '\\') = fun x => x == '\\' := by
    funext x
    rw [Bool.eq_iff_iff, beq_iff_eq, beq_iff_eq, toLower_eq_separator_iff]
  have drop : ∀ l : List Char, (l.map Char.toLower).dropWhile (· == '\\') =
      (l.dropWhile (· == '\\')).map Char.toLower := by
    intro l
    rw [List.dropWhile_map]
    exact congrArg (fun p => (l.dropWhile p).map Char.toLower) same
  rw [← String.toList_inj, toList_foldCase]
  simp only [trimBoth, trimRight, trimLeft, String.toList_ofList, toList_foldCase, drop,
    ← List.map_reverse]

end Trim

section Split

theorem splitLast_append {c : Char} (space : String) {name : String} (single : c ∉ name.toList) :
    splitLast c (space ++ String.singleton c ++ name) = some (space, name) := by
  have reversed : (space ++ String.singleton c ++ name).toList.reverse =
      name.toList.reverse ++ c :: space.toList.reverse := by simp
  have short : ∀ x ∈ name.toList.reverse, (x != c) = true := by
    intro x member
    have apart : x ≠ c := fun same => single (same ▸ List.mem_reverse.mp member)
    simpa using apart
  simp only [splitLast, reversed, List.dropWhile_append_of_pos short,
    List.takeWhile_append_of_pos short]
  simp

theorem splitLast_eq_none {c : Char} {s : String} (single : c ∉ s.toList) :
    splitLast c s = none := by
  have none : s.toList.reverse.dropWhile (· != c) = [] := by
    rw [List.dropWhile_eq_nil_iff]
    intro x member
    have apart : x ≠ c := fun same => single (same ▸ List.mem_reverse.mp member)
    simpa using apart
  simp only [splitLast, none]

variable (space : String) {name : String} (single : '\\' ∉ name.toList)

include single

theorem splitLast_qualify :
    namespaceOf (qualify space name) = space ∧ shortName (qualify space name) = name := by
  by_cases empty : space.isEmpty
  · rw [qualify, if_pos empty, namespaceOf, shortName, splitLast_eq_none single]
    exact ⟨(String.isEmpty_iff.mp empty).symm, rfl⟩
  · have parts : splitLast '\\' (space ++ "\\" ++ name) = some (space, name) :=
      splitLast_append space single
    rw [qualify, if_neg empty, namespaceOf, shortName, parts]
    exact ⟨rfl, rfl⟩

theorem trimLeft_qualify (bare : space.toList.head? ≠ some '\\') :
    trimLeft '\\' (qualify space name) = qualify space name := by
  apply trimLeft_of_head?
  unfold qualify
  split
  next =>
    intro first
    exact single (List.mem_of_mem_head? first)
  next some =>
    intro first
    apply bare
    cases chars : space.toList with
    | nil =>
      have empty : space = "" := by rw [← String.toList_inj, chars]; rfl
      exact absurd (String.isEmpty_iff.mpr empty) some
    | cons x rest => simpa [chars] using first

omit single in
theorem keyword?_qualify (word : Builtin.keyword? name = none) :
    Builtin.keyword? (qualify space name) = none := by
  unfold qualify
  split
  next => exact word
  next => exact keyword?_of_separator (by simp)

end Split

end ConstExpr
