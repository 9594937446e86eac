import ConstExpr.Operator.Order
import ConstExpr.Proofs.CanonicalText
import ConstExpr.Proofs.Comparison

/-!
Integers in strings. The text of an integer, with blanks around it, is a numeral without point and
exponent, so that of a word is read as the word itself and never as a float. Therefore integers
compare in the same way whether they are written in strings or not.
-/

namespace ConstExpr

open Grammar

section Text

variable {u v : Bytes} {n : Int} {i : Int64}

def integerNumeral (n : Int) : Numeral where
  negative := decide (n < 0)
  whole := Word.natText n.natAbs
  fraction := none
  exponent := none

theorem plain_of_isBlank {b : UInt8} (blank : Bytes.isBlank b = true) :
    Bytes.isDigit b = false ∧ isLetter b = false ∧ b ≠ 46 := by
  have every : ∀ b ∈ whitespace, Bytes.isDigit b = false ∧ isLetter b = false ∧ b ≠ 46 := by
    simp [whitespace, Bytes.isDigit, isLetter]
  rw [isBlank_eq, decide_eq_true_iff] at blank
  exact every b blank

theorem head_text (n : Int) : ∀ b, (integerText n).head? = some b → Bytes.isBlank b = false := by
  intro b first
  rw [integerText] at first
  split at first
  next =>
    obtain rfl : 45 = b := Option.some.inj first
    rfl
  next =>
    have digit : Bytes.isDigit b = true :=
      Word.isDigit_natText _ b (List.mem_of_mem_head? first)
    by_contra blank
    rw [(plain_of_isBlank (eq_true_of_ne_false blank)).1] at digit
    cases digit

theorem read_text (blank : ∀ b ∈ v, Bytes.isBlank b = true) :
    Numeral.read? (integerText n ++ v) = some (integerNumeral n, v) := by
  have signed : (if n < 0 then [45] else []) ∈ sign.matches' := by
    split
    · exact mem_sign.mpr (.inr (.inr rfl))
    · exact mem_sign.mpr (.inl rfl)
  have negative : isNegative (if n < 0 then [45] else []) = decide (n < 0) := by
    split
    next below => simp [below, isNegative]
    next above => simp [above, isNegative]
  have every : Digits (Word.natText n.natAbs) := Word.isDigit_natText _
  have some : Word.natText n.natAbs ≠ [] := Word.natText_ne_nil _
  have back : ∀ b, (Word.natText n.natAbs ++ v).head? = .some b → isSign b = false := by
    intro b first
    rw [List.head?_append_of_ne_nil _ some] at first
    exact not_isSign_of_digits every b first
  -- a blank continues no part of a numeral, so each stage stops at the end of the text
  have stop : ∀ b, v.head? = .some b →
      Bytes.isDigit b = false ∧ isLetter b = false ∧ b ≠ 46 :=
    fun b first => plain_of_isBlank (blank b (List.mem_of_mem_head? first))
  have digits : Numeral.digits (Word.natText n.natAbs ++ v) = (Word.natText n.natAbs, v) := by
    rw [digits_append every, digits_of_other fun b first => (stop b first).1, List.append_nil]
  have point : Numeral.point (Word.natText n.natAbs) v = (none, v) :=
    point_of_other _ fun first => (stop 46 first).2.2 rfl
  have power : Numeral.power v = (none, v) :=
    power_of_other v fun b first => (stop b first).2.1
  rw [read_stages, integerText, List.append_assoc, sign_append signed back]
  dsimp only
  rw [digits]
  dsimp only
  rw [point, power, negative]
  exact if_neg (by simp [some])

theorem numericPrefix?_integerText (blank : ∀ b ∈ u, Bytes.isBlank b = true)
    (blank' : ∀ b ∈ v, Bytes.isBlank b = true) :
    numericPrefix? (u ++ integerText n ++ v) = some ((integerNumeral n).value, true) := by
  have some : integerText n ≠ [] := by simp [integerText, Word.natText_ne_nil]
  have head : ∀ b, (integerText n ++ v).head? = .some b → Bytes.isBlank b = false := by
    intro b first
    rw [List.head?_append_of_ne_nil _ some] at first
    exact head_text n b first
  rw [numericPrefix?, List.append_assoc, dropWhile_append_of_head blank head, read_text blank',
    Option.map_some]
  exact congrArg Option.some (Prod.ext rfl (List.all_eq_true.mpr blank'))

theorem value_integerNumeral (n : Int) : (integerNumeral n).value =
    match Word.ofInt? n with
    | some i => .int i
    | none => .float (integerNumeral n).toFloat := by
  have whole : (if (integerNumeral n).negative then -(Bytes.toNat (integerNumeral n).whole : Int)
      else Bytes.toNat (integerNumeral n).whole) = n := by
    simp only [integerNumeral, Word.toNat_natText, decide_eq_true_eq]
    split
    · omega
    · omega
  unfold Numeral.value
  rw [if_neg (by simp [integerNumeral])]
  dsimp only
  rewrite [whole]
  rfl

theorem numericPrefix?_text (blank : ∀ b ∈ u, Bytes.isBlank b = true)
    (blank' : ∀ b ∈ v, Bytes.isBlank b = true) :
    numericPrefix? (u ++ Word.text i ++ v) = some (.int i, true) := by
  rw [Word.text_eq, numericPrefix?_integerText blank blank', value_integerNumeral,
    Word.ofInt?_eq_some_iff.mpr rfl]

end Text

section Order

variable {s t : Bytes} {i j : Int64}

theorem conversions_of_read (read : numericPrefix? s = some (.int i, true)) :
    (Value.str s).toWord = i ∧ (Value.str s).wholeNumber? = some (.int i) := by
  simp only [Value.toWord, Value.wholeNumber?, read, and_self]

theorem order_of_read (read : numericPrefix? s = some (.int i, true))
    (read' : numericPrefix? t = some (.int j, true)) :
    (Value.str s).order? (.str t) = some (compare i.toInt j.toInt) ∧
      (Value.int i).order? (.str t) = some (compare i.toInt j.toInt) ∧
      (Value.str s).order? (.int j) = some (compare i.toInt j.toInt) ∧
      (Value.int i).order? (.int j) = some (compare i.toInt j.toInt) := by
  have left := (conversions_of_read read).2
  have right := (conversions_of_read read').2
  rw [Value.order?_of_plain (.inl rfl), Value.order?_of_plain (.inl rfl),
    Value.order?_of_plain (.inl rfl), Value.order?_of_plain (.inl rfl)]
  refine ⟨?_, ?_, ?_, rfl⟩
  · simp only [Value.orderScalars?, left, right]
    rfl
  · have reversed : (compare j.toInt i.toInt).swap = compare i.toInt j.toInt :=
      Int.compare_swap ..
    simp only [Value.orderScalars?, orderStringNumber, right]
    exact congrArg some reversed
  · simp only [Value.orderScalars?, orderStringNumber, left]
    rfl

/-- Integers are the same in strings. The text of a word, with blanks around it, is converted to
that word, and two words compare as integers in every combination of the two forms. -/
theorem integers_in_strings {u v x y : Bytes} (i j : Int64)
    (blank : ∀ b ∈ u ++ v ++ x ++ y, b ∈ whitespace) :
    let s := Value.str (u ++ (Value.int i).toBytes ++ v)
    let t := Value.str (x ++ (Value.int j).toBytes ++ y)
    s.toWord = i ∧ s.wholeNumber? = some (.int i) ∧
      s.order? t = some (compare i.toInt j.toInt) ∧
      (Value.int i).order? t = some (compare i.toInt j.toInt) ∧
      s.order? (.int j) = some (compare i.toInt j.toInt) ∧
      (Value.int i).order? (.int j) = some (compare i.toInt j.toInt) := by
  have plain : ∀ b ∈ u ++ v ++ x ++ y, Bytes.isBlank b = true := fun b member =>
    (isBlank_eq b).trans (decide_eq_true (blank b member))
  have read : numericPrefix? (u ++ (Value.int i).toBytes ++ v) = some (.int i, true) :=
    numericPrefix?_text (fun b member => plain b (by simp [member]))
      (fun b member => plain b (by simp [member]))
  have read' : numericPrefix? (x ++ (Value.int j).toBytes ++ y) = some (.int j, true) :=
    numericPrefix?_text (fun b member => plain b (by simp [member]))
      (fun b member => plain b (by simp [member]))
  obtain ⟨word, number⟩ := conversions_of_read read
  exact ⟨word, number, order_of_read read read'⟩

theorem greatest_in_strings :
    (∀ b ∈ [32] ++ [9] ++ [] ++ [10], b ∈ whitespace) ∧
      (Value.str ([32] ++ (Value.int 9223372036854775806).toBytes ++ [9])).order?
        (.str ([] ++ (Value.int 9223372036854775807).toBytes ++ [10])) = some .lt := by
  have blank : ∀ b ∈ [32] ++ [9] ++ [] ++ [10], b ∈ whitespace := by
    simp [whitespace]
  exact ⟨blank, (integers_in_strings 9223372036854775806 9223372036854775807 blank).2.2.1⟩

end Order

end ConstExpr
