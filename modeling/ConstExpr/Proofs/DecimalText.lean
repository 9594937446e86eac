import ConstExpr.Number.Word
import Mathlib.Tactic.IntervalCases

/-!
Decimal texts of words. A digit is added at the end for each division by ten, so every fact about
the text of a number goes by the number of its digits; the text of a word reads back as that word.
-/

namespace ConstExpr.Word

def digitByte (n : Nat) : UInt8 := (Nat.digitChar n).toUInt8

theorem natText_of_lt {n : Nat} (small : n < 10) : natText n = [digitByte n] := by
  rw [natText, Nat.toDigits_of_lt_base small]
  rfl

theorem natText_of_le {n : Nat} (large : 10 ≤ n) :
    natText n = natText (n / 10) ++ [digitByte (n % 10)] := by
  rw [natText, Nat.toDigits_of_base_le (by decide) large, Bytes.ofAscii, List.map_append]
  rfl

/-- A fact about the texts of numbers that holds of one digit and is kept by a further one. -/
theorem natText_induction {P : Nat → Bytes → Prop}
    (one : ∀ n, n < 10 → P n [digitByte n])
    (more : ∀ n, 10 ≤ n → P (n / 10) (natText (n / 10)) →
      P n (natText (n / 10) ++ [digitByte (n % 10)])) (n : Nat) : P n (natText n) := by
  induction n using Nat.strong_induction_on with
  | _ n ih =>
    by_cases small : n < 10
    · rw [natText_of_lt small]
      exact one n small
    · have large : 10 ≤ n := by omega
      rw [natText_of_le large]
      exact more n large (ih (n / 10) (by omega))

theorem isDigit_digitByte {n : Nat} (small : n < 10) : Bytes.isDigit (digitByte n) = true := by
  interval_cases n <;> decide

theorem digit_digitByte {n : Nat} (small : n < 10) : Bytes.digit (digitByte n) = n := by
  interval_cases n <;> decide

theorem digitByte_ne_zero {n : Nat} (small : n < 10) (positive : 0 < n) : digitByte n ≠ 48 := by
  interval_cases n <;> decide

theorem natText_ne_nil (n : Nat) : natText n ≠ [] :=
  natText_induction (P := fun _ s => s ≠ []) (by simp) (by simp) n

theorem isDigit_natText (n : Nat) : ∀ b ∈ natText n, Bytes.isDigit b = true := by
  refine natText_induction (P := fun _ s => ∀ b ∈ s, Bytes.isDigit b = true) ?_ ?_ n
  · intro n small b member
    rw [List.mem_singleton.mp member]
    exact isDigit_digitByte small
  · intro n _ before b member
    rcases List.mem_append.mp member with early | last
    · exact before b early
    · rw [List.mem_singleton.mp last]
      exact isDigit_digitByte (Nat.mod_lt n (by decide))

theorem toNat_natText (n : Nat) : Bytes.toNat (natText n) = n := by
  refine natText_induction (P := fun n s => Bytes.toNat s = n) ?_ ?_ n
  · intro n small
    simp [Bytes.toNat, digit_digitByte small]
  · intro n _ before
    have last := digit_digitByte (Nat.mod_lt n (by decide : 0 < 10))
    rw [Bytes.toNat] at before
    rw [Bytes.toNat, List.foldl_append, before, List.foldl_cons, List.foldl_nil, last]
    omega

theorem head_natText {n : Nat} (positive : 0 < n) : (natText n).head? ≠ some 48 := by
  refine natText_induction (P := fun n s => 0 < n → s.head? ≠ some 48) ?_ ?_ n positive
  · intro n small positive
    simpa using digitByte_ne_zero small positive
  · intro n large before _
    obtain ⟨b, rest, text⟩ := List.exists_cons_of_ne_nil (natText_ne_nil (n / 10))
    have first := before (by omega)
    rw [text] at first ⊢
    exact first

theorem head_natText_isDigit (n : Nat) :
    ∃ b, (natText n).head? = some b ∧ Bytes.isDigit b = true := by
  cases text : natText n with
  | nil => exact absurd text (natText_ne_nil n)
  | cons b rest => exact ⟨b, rfl, isDigit_natText n b (text ▸ List.mem_cons_self)⟩

theorem ofText?_natText {negative : Bool} {n : Nat} (sensible : negative = true → 0 < n) :
    ofText? (if negative then 45 :: natText n else natText n) =
      ofInt? (if negative then -(n : Int) else n) := by
  have digits : (natText n).all Bytes.isDigit = true := List.all_eq_true.mpr (isDigit_natText n)
  have some := natText_ne_nil n
  obtain ⟨b, first, digit⟩ := head_natText_isDigit n
  cases negative with
  | true =>
    have plain : b ≠ 48 := by
      intro zero
      exact head_natText (sensible rfl) (by rw [first, zero])
    simp [ofText?, digits, some, first, plain, toNat_natText]
  | false =>
    have unsigned : b ≠ 45 := by
      rintro rfl
      exact absurd digit (by decide)
    have short : b = 48 → ¬1 < (natText n).length := by
      rintro rfl
      have zero : n = 0 := by
        by_contra positive
        exact head_natText (Nat.pos_of_ne_zero positive) first
      rw [zero, natText_of_lt (by decide)]
      simp
    simp [ofText?, digits, some, first, unsigned, toNat_natText]
    exact fun zero long => absurd long (short zero)

theorem ofText?_text (i : Int64) : ofText? (text i) = some i := by
  by_cases below : i.toInt < 0
  · have shape : text i = if true = true then 45 :: natText i.toInt.natAbs
        else natText i.toInt.natAbs := by simp [text, below]
    rw [shape, ofText?_natText (by omega)]
    exact ofInt?_eq_some_iff.mpr (by simp only [if_true]; omega)
  · have shape : text i = if false = true then 45 :: natText i.toInt.natAbs
        else natText i.toInt.natAbs := by simp [text, below]
    rw [shape, ofText?_natText (by simp)]
    exact ofInt?_eq_some_iff.mpr (by simp only [Bool.false_eq_true, if_false]; omega)

end ConstExpr.Word
