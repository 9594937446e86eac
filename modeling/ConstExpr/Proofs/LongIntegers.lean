import ConstExpr.Proofs.DecimalFloat
import ConstExpr.Proofs.IntegerArithmetic
import ConstExpr.Proofs.IntegerText

/-!
Long integers in strings. An integer that is no word is read from its text as the nearest float, and
so is any word that is compared with it. Two canonical texts are therefore equal exactly if they are
the same, as long as both spell words; beyond that they are equal exactly if one float is nearest to
both integers.
-/

namespace ConstExpr

open Grammar

namespace Binary64

variable {x y : Float}

section Places

def Reading.bits : Reading → Nat
  | .nan => 0
  | .infinite s => (if s then signBit else 0) + 2047 * hiddenBit
  | .finite s m e =>
    (if s then signBit else 0) +
      if m < hiddenBit then m else (e + 1075).toNat * hiddenBit + (m - hiddenBit)

theorem bits_read (number : read x ≠ .nan) : (read x).bits = x.toBits.toNat := by
  have range : x.toBits.toNat < 2 ^ 64 := x.toBits.toNat_lt
  unfold read at number ⊢
  dsimp only at number ⊢
  generalize x.toBits.toNat = bits at *
  have sign : (if decide (signBit ≤ bits) then signBit else 0) = bits / signBit * signBit := by
    by_cases below : signBit ≤ bits
    · rw [decide_eq_true below, if_pos rfl]
      simp only [signBit] at *
      omega
    · rw [decide_eq_false below, if_neg Bool.false_ne_true]
      simp only [signBit] at *
      omega
  have low : bits % hiddenBit < hiddenBit := Nat.mod_lt _ (by decide)
  -- infinities, not a number, and finite floats without and with the hidden bit
  split_ifs at number ⊢ with ones zero zeros
  · simp only [Reading.bits, sign]
    simp only [signBit, hiddenBit] at *
    omega
  · exact absurd rfl number
  · simp only [Reading.bits, sign, if_pos low]
    simp only [signBit, hiddenBit] at *
    omega
  · have full : ¬bits % hiddenBit + hiddenBit < hiddenBit := by omega
    simp only [Reading.bits, sign, if_neg full]
    simp only [signBit, hiddenBit] at *
    omega

theorem order?_eq_iff (left : read x ≠ .nan) (right : read y ≠ .nan) :
    order? x y = some .eq ↔ read x = read y ∨ isZero x ∧ isZero y := by
  obtain ⟨a, place⟩ := exists_rank left
  obtain ⟨b, place'⟩ := exists_rank right
  have equal : order? x y = some .eq ↔ a = b := by
    simp [order?, place, place']
  rw [equal]
  constructor
  · rintro rfl
    by_cases zero : a = 0
    · exact .inr (by simp [isZero, place, place', zero])
    · -- away from zero the place on the line tells the sign too
      have range : x.toBits.toNat < 2 ^ 64 := x.toBits.toNat_lt
      have range' : y.toBits.toNat < 2 ^ 64 := y.toBits.toNat_lt
      have bits : x.toBits.toNat = y.toBits.toNat := by
        unfold rank at place place'
        dsimp only at place place'
        split_ifs at place place' <;>
          simp only [Option.some.injEq, signBit] at * <;> omega
      exact .inl (by unfold read; rw [bits])
  · rintro (same | ⟨zero, zero'⟩)
    · have bits : x.toBits.toNat = y.toBits.toNat := by
        rw [← bits_read left, ← bits_read right, same]
      rw [rank, bits] at place
      exact Option.some.inj (place.symm.trans place')
    · simp only [isZero, place, place', beq_iff_eq, Option.some.injEq] at zero zero'
      rw [zero, zero']

end Places

section Integers

variable {n k : Int}

theorem Nearest.sign_eq {s t : Bool} {q r : ℚ} (near : Nearest s q x) (near' : Nearest t r x) :
    s = t := by
  unfold Nearest at near near'
  split at near
  next => exact near.elim
  next number =>
    simp only [number] at near'
    exact near.1.symm.trans near'.1
  next number =>
    simp only [number] at near'
    exact near.1.symm.trans near'.1

/-- A float is what an integer is rounded to. -/
def NearestTo (n : Int) (x : Float) : Prop := Nearest (n < 0) n.natAbs x

theorem order?_eq_iff_nearest (left : NearestTo n x) (right : NearestTo k y) :
    order? x y = some .eq ↔ ∃ z, NearestTo n z ∧ NearestTo k z := by
  rw [order?_eq_iff left.number right.number]
  constructor
  · rintro (same | ⟨zero, zero'⟩)
    · refine ⟨x, left, ?_⟩
      unfold NearestTo Nearest at right ⊢
      rwa [same]
    · have none : n = 0 := Int.natAbs_eq_zero.mp (left.eq_zero zero)
      have none' : k = 0 := Int.natAbs_eq_zero.mp (right.eq_zero zero')
      subst none none'
      exact ⟨x, left, left⟩
  · rintro ⟨z, near, near'⟩
    exact .inl ((left.read_eq_read near).trans (near'.read_eq_read right))

end Integers

end Binary64

section Numbers

open Binary64 (NearestTo)

variable {n k : Int}

theorem nearestTo_value (n : Int) : NearestTo n (integerNumeral n).value.toFloat := by
  rw [value_integerNumeral]
  cases word : Word.ofInt? n with
  | some i =>
    obtain rfl := Word.ofInt?_eq_some_iff.mp word
    exact Binary64.nearest_ofWord i
  | none =>
    have nearest := (integerNumeral n).nearest
    simp only [integerNumeral, Option.getD_none, List.append_nil, Word.toNat_natText,
      List.length_nil, Nat.cast_zero, sub_zero, zpow_zero, mul_one] at nearest
    exact nearest

theorem order?_integerText (n k : Int) :
    ((∃ i : Int64, i.toInt = n) → (∃ j : Int64, j.toInt = k) →
        (Value.str (integerText n)).order? (.str (integerText k)) = some (compare n k)) ∧
      ((∀ i : Int64, i.toInt ≠ n) ∨ (∀ j : Int64, j.toInt ≠ k) →
        (Value.str (integerText n)).order? (.str (integerText k)) =
          Binary64.order? (integerNumeral n).value.toFloat (integerNumeral k).value.toFloat) := by
  have read : ∀ n, (Value.str (integerText n)).wholeNumber? = some (integerNumeral n).value := by
    intro n
    have whole := numericPrefix?_integerText (u := []) (v := []) (n := n) (by simp) (by simp)
    rw [List.nil_append, List.append_nil] at whole
    simp only [Value.wholeNumber?, whole]
  have numbers : (Value.str (integerText n)).order? (.str (integerText k)) =
      (integerNumeral n).value.order? (integerNumeral k).value := by
    rw [Value.order?_of_plain (.inl rfl)]
    simp only [Value.orderScalars?, read]
  rw [numbers, value_integerNumeral n, value_integerNumeral k]
  constructor
  · rintro ⟨i, rfl⟩ ⟨j, rfl⟩
    rw [Word.ofInt?_eq_some_iff.mpr rfl, Word.ofInt?_eq_some_iff.mpr rfl]
    rfl
  · rintro (beyond | beyond)
    · rw [Word.ofInt?_eq_none_iff.mpr beyond]
      rfl
    · rw [Word.ofInt?_eq_none_iff.mpr beyond]
      cases Word.ofInt? n <;> rfl

end Numbers

/-- Canonical texts of integers are equal only if they are the same, as long as both spell words or
no float is nearest to both integers. Where one of them is no word, they are equal exactly if one
float is nearest to both. -/
theorem integer_texts_equal {s t : Bytes} (left : Canonical s) (right : Canonical t) :
    let n := integerValue s
    let k := integerValue t
    ((∃ i : Int64, i.toInt = n) ∧ (∃ j : Int64, j.toInt = k) ∨
          (∀ x, Binary64.NearestTo n x → ¬Binary64.NearestTo k x) →
        ((Value.str s).equal (.str t) ↔ s = t)) ∧
      ((∀ i : Int64, i.toInt ≠ n) ∨ (∀ j : Int64, j.toInt ≠ k) →
        ((Value.str s).equal (.str t) ↔
          ∃ x, Binary64.NearestTo n x ∧ Binary64.NearestTo k x)) := by
  obtain ⟨n, rfl⟩ := canonical_iff.mp left
  obtain ⟨k, rfl⟩ := canonical_iff.mp right
  simp only [integerValue_integerText]
  obtain ⟨words, floats⟩ := order?_integerText n k
  have beyond : (∀ i : Int64, i.toInt ≠ n) ∨ (∀ j : Int64, j.toInt ≠ k) →
      ((Value.str (integerText n)).equal (.str (integerText k)) ↔
        ∃ x, Binary64.NearestTo n x ∧ Binary64.NearestTo k x) := by
    intro beyond
    rw [Value.equal, beq_iff_eq, floats beyond]
    exact Binary64.order?_eq_iff_nearest (nearestTo_value n) (nearestTo_value k)
  refine ⟨fun told => ?_, beyond⟩
  by_cases both : (∃ i : Int64, i.toInt = n) ∧ ∃ j : Int64, j.toInt = k
  · rw [Value.equal, beq_iff_eq, words both.1 both.2, Option.some_inj, compare_eq_iff_eq,
      integerText_inj]
  · have apart := told.resolve_left both
    -- some float is nearest to any integer, so a single one would not be told apart from itself
    have different : n ≠ k := by
      rintro rfl
      exact apart _ (nearestTo_value n) (nearestTo_value n)
    rw [beyond (by rwa [not_and_or, not_exists, not_exists] at both), integerText_inj]
    refine iff_of_false ?_ different
    rintro ⟨x, near, near'⟩
    exact apart x near near'

theorem greatest_texts_told_apart :
    let last := integerText 9223372036854775806
    let greatest := integerText 9223372036854775807
    let above := integerText 9223372036854775808
    let below := integerText (-9223372036854775808)
    (Canonical last ∧ Canonical greatest ∧ Canonical above ∧ Canonical below) ∧
      (Value.str last).equal (.str greatest) = false ∧
      (Value.str above).equal (.str below) = false := by
  intro last greatest above below
  have every : ∀ n, Canonical (integerText n) := fun n => canonical_iff.mpr ⟨n, rfl⟩
  refine ⟨⟨every _, every _, every _, every _⟩, ?_, ?_⟩
  · obtain ⟨told, -⟩ := integer_texts_equal (every 9223372036854775806) (every 9223372036854775807)
    simp only [integerValue_integerText] at told
    have words := told (.inl ⟨⟨9223372036854775806, by decide⟩, 9223372036854775807, by decide⟩)
    rw [Bool.eq_false_iff, ne_eq, words, integerText_inj]
    decide
  · obtain ⟨told, -⟩ :=
      integer_texts_equal (every 9223372036854775808) (every (-9223372036854775808))
    simp only [integerValue_integerText] at told
    have apart := told (.inr fun x near near' => absurd (near.sign_eq near') (by decide))
    rw [Bool.eq_false_iff, ne_eq, apart, integerText_inj]
    decide

theorem neighbours_taken_for_equal :
    let s := integerText 9223372036854775808
    let t := integerText 9223372036854775809
    Canonical s ∧ Canonical t ∧ s ≠ t ∧ (Value.str s).equal (.str t) = true ∧
      ¬∀ s t, Canonical s → Canonical t → ((Value.str s).equal (.str t) ↔ s = t) := by
  intro s t
  have left : Canonical s := canonical_iff.mpr ⟨_, rfl⟩
  have right : Canonical t := canonical_iff.mpr ⟨_, rfl⟩
  have different : s ≠ t := fun same => absurd (integerText_inj.mp same) (by decide)
  have equal : (Value.str s).equal (.str t) = true := by decide +kernel
  exact ⟨left, right, different, equal, fun told => different ((told s t left right).mp equal)⟩

end ConstExpr
