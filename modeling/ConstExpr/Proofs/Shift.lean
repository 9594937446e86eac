import ConstExpr.Operator.Apply
import Mathlib.Data.Int.ModEq
import Mathlib.Data.Rat.Floor
import Mathlib.Tactic.Linarith
import Mathlib.Tactic.Positivity

/-!
Shifts as arithmetic. To the left a word is multiplied by a power of two, up to multiples of 2^64;
to the right it is divided by one and rounded down. This holds for every amount that is not
negative: below 64 the bits are moved, and from there on what is left of a word is its sign at most,
which is what the arithmetic gives too. So shifts by two amounts are a shift by their sum.
-/

namespace ConstExpr

namespace Word

variable {i j : Int64} {n : Nat}

theorem eq_of_modEq (same : i.toInt ≡ j.toInt [ZMOD 2 ^ 64]) : i = j := by
  obtain ⟨factor, apart⟩ := Int.modEq_iff_dvd.mp same
  have := Int64.le_toInt i
  have := Int64.toInt_lt i
  have := Int64.le_toInt j
  have := Int64.toInt_lt j
  apply Int64.toInt_inj.mp
  omega

theorem two_pow_dvd (large : 64 ≤ n) : (2 ^ 64 : Int) ∣ 2 ^ n := pow_dvd_pow 2 large

theorem toInt_shiftLeft (i : Int64) (n : Nat) :
    (shiftLeft i n).toInt ≡ i.toInt * 2 ^ n [ZMOD 2 ^ 64] := by
  unfold shiftLeft
  split
  next =>
    have power : ((Nat.pow 2 n : Nat) : Int) = 2 ^ n := Nat.cast_pow 2 n
    rw [Int64.toInt_ofInt, power]
    exact Int.bmod_emod
  next long =>
    -- nothing of the word is left, and the product is a multiple of 2^64
    have whole : (2 ^ 64 : Int) ∣ i.toInt * 2 ^ n := (two_pow_dvd (not_lt.mp long)).mul_left _
    exact (Int.emod_eq_zero_of_dvd whole).symm

theorem toInt_shiftRight (i : Int64) (n : Nat) : (shiftRight i n).toInt = i.toInt / 2 ^ n := by
  have low := Int64.le_toInt i
  have high := Int64.toInt_lt i
  have positive : (0 : Int) < 2 ^ n := by positivity
  unfold shiftRight
  split
  next =>
    have power : ((Nat.pow 2 n : Nat) : Int) = 2 ^ n := Nat.cast_pow 2 n
    have below : i.toInt / 2 ^ n < 2 ^ 63 := by
      rw [Int.ediv_lt_iff_lt_mul positive]
      nlinarith
    have above : -2 ^ 63 ≤ i.toInt / 2 ^ n := by
      rw [Int.le_ediv_iff_mul_le positive]
      nlinarith
    rw [power, Int64.toInt_ofInt_of_le above below]
  next long =>
    -- only the sign is left, which is the quotient rounded down
    have size : (2 ^ 64 : Int) ≤ 2 ^ n := pow_le_pow_right₀ (by decide) (not_lt.mp long)
    by_cases negative : i.toInt < 0
    · rw [if_pos negative, Int.ediv_eq_neg_one_of_neg_of_le negative (by omega)]
      rfl
    · rw [if_neg negative, Int.ediv_eq_zero_of_lt (by omega) (by omega)]
      rfl

section Machine

variable {amount : Int64} (positive : 0 ≤ amount.toInt) (short : amount.toInt < 64)

include positive short

theorem amount_smod : amount.toBitVec.smod 64 = amount.toBitVec := by
  apply BitVec.toInt_inj.mp
  have size : (64 : BitVec 64).toInt = 64 := by decide
  rw [BitVec.toInt_smod, size, Int64.toInt_toBitVec, Int.fmod_eq_emod_of_nonneg _ (by decide)]
  exact Int.emod_eq_of_lt positive short

omit short in
theorem toNat_amount : amount.toBitVec.toNat = amount.toInt.toNat := by
  have value := BitVec.toInt_eq_toNat_cond amount.toBitVec
  rw [Int64.toInt_toBitVec] at value
  split at value <;> omega

theorem shiftLeft_eq_machine (i : Int64) : shiftLeft i amount.toInt.toNat = i <<< amount := by
  apply eq_of_modEq
  have moved : (i <<< amount).toInt =
      ((i.toBitVec.toNat <<< amount.toInt.toNat : Nat) : Int).bmod (2 ^ 64) := by
    rw [← Int64.toInt_toBitVec, Int64.toBitVec_shiftLeft, amount_smod positive short,
      BitVec.shiftLeft_eq', BitVec.toInt_shiftLeft, toNat_amount positive]
  have bits : i.toInt ≡ i.toBitVec.toNat [ZMOD 2 ^ 64] := by
    rw [← Int64.toInt_toBitVec, BitVec.toInt_eq_toNat_bmod]
    exact Int.bmod_emod
  calc (shiftLeft i amount.toInt.toNat).toInt
    _ ≡ i.toInt * 2 ^ amount.toInt.toNat [ZMOD 2 ^ 64] := toInt_shiftLeft i _
    _ ≡ i.toBitVec.toNat * 2 ^ amount.toInt.toNat [ZMOD 2 ^ 64] := bits.mul_right _
    _ = ((i.toBitVec.toNat <<< amount.toInt.toNat : Nat) : Int) := by
      rw [Nat.shiftLeft_eq]
      push_cast
      rfl
    _ ≡ (i <<< amount).toInt [ZMOD 2 ^ 64] := by
      rw [moved]
      exact Int.bmod_emod.symm

theorem shiftRight_eq_machine (i : Int64) : shiftRight i amount.toInt.toNat = i >>> amount := by
  apply Int64.toInt_inj.mp
  have moved : (i >>> amount).toInt = i.toInt >>> amount.toInt.toNat := by
    rw [← Int64.toInt_toBitVec, Int64.toBitVec_shiftRight, amount_smod positive short,
      BitVec.sshiftRight_eq', BitVec.toInt_sshiftRight, toNat_amount positive,
      Int64.toInt_toBitVec]
  rw [toInt_shiftRight, moved, Int.shiftRight_eq_div_pow]
  push_cast
  rfl

end Machine

theorem shiftLeft_shiftLeft (i : Int64) (m n : Nat) :
    shiftLeft (shiftLeft i m) n = shiftLeft i (m + n) := by
  apply eq_of_modEq
  calc (shiftLeft (shiftLeft i m) n).toInt
    _ ≡ (shiftLeft i m).toInt * 2 ^ n [ZMOD 2 ^ 64] := toInt_shiftLeft _ n
    _ ≡ i.toInt * 2 ^ m * 2 ^ n [ZMOD 2 ^ 64] := (toInt_shiftLeft i m).mul_right _
    _ = i.toInt * 2 ^ (m + n) := by rw [pow_add, mul_assoc]
    _ ≡ (shiftLeft i (m + n)).toInt [ZMOD 2 ^ 64] := (toInt_shiftLeft i (m + n)).symm

theorem shiftRight_shiftRight (i : Int64) (m n : Nat) :
    shiftRight (shiftRight i m) n = shiftRight i (m + n) := by
  apply Int64.toInt_inj.mp
  calc (shiftRight (shiftRight i m) n).toInt
    _ = i.toInt / 2 ^ m / 2 ^ n := by rw [toInt_shiftRight, toInt_shiftRight]
    _ = i.toInt / 2 ^ (m + n) := by rw [Int.ediv_ediv_of_nonneg (by positivity), pow_add]
    _ = (shiftRight i (m + n)).toInt := (toInt_shiftRight i (m + n)).symm

end Word

section Operators

variable {v n : Int64}

theorem apply_shiftLeft (positive : 0 ≤ n.toInt) :
    BinaryOp.shiftLeft.apply (.int v) (.int n) =
      pure (.int (Word.shiftLeft v n.toInt.toNat)) :=
  if_neg (not_lt.mpr positive)

theorem apply_shiftRight (positive : 0 ≤ n.toInt) :
    BinaryOp.shiftRight.apply (.int v) (.int n) =
      pure (.int (Word.shiftRight v n.toInt.toNat)) :=
  if_neg (not_lt.mpr positive)

/-- To the left, a word is multiplied by the power of two, up to multiples of 2^64; to the right, it
is divided by it and rounded down. Below 64 these are the shifts of the machine, and from there on
nothing changes. Two shifts are one by the sum of their amounts. Only a negative amount is
refused. -/
theorem shifts_exact (v : Int64) :
    (∀ n : Int64, 0 ≤ n → ∃ left right : Int64,
      BinaryOp.shiftLeft.apply (.int v) (.int n) = pure (.int left) ∧
        BinaryOp.shiftRight.apply (.int v) (.int n) = pure (.int right) ∧
        (∀ w : Int64, w = left ↔ w.toInt ≡ v.toInt * 2 ^ n.toInt.toNat [ZMOD 2 ^ 64]) ∧
        right.toInt = ⌊(v.toInt : ℚ) / 2 ^ n.toInt.toNat⌋ ∧
        (n < 64 → left = v <<< n ∧ right = v >>> n)) ∧
      (∀ m n : Int64, 0 ≤ m → 0 ≤ n → m.toInt + n.toInt ≤ Int64.maxValue.toInt →
        (BinaryOp.shiftLeft.apply (.int v) (.int m) >>= (BinaryOp.shiftLeft.apply · (.int n))) =
            BinaryOp.shiftLeft.apply (.int v) (.int (m + n)) ∧
          (BinaryOp.shiftRight.apply (.int v) (.int m) >>= (BinaryOp.shiftRight.apply · (.int n))) =
            BinaryOp.shiftRight.apply (.int v) (.int (m + n))) ∧
      ∀ n : Int64, n < 0 →
        BinaryOp.shiftLeft.apply (.int v) (.int n) = .reject .negativeShift ∧
          BinaryOp.shiftRight.apply (.int v) (.int n) = .reject .negativeShift := by
  refine ⟨fun n nonneg => ?_, fun m n nonneg nonneg' fits => ?_, fun n negative => ?_⟩
  · have positive : 0 ≤ n.toInt := Int64.le_iff_toInt_le.mp nonneg
    refine ⟨_, _, apply_shiftLeft positive, apply_shiftRight positive, fun w => ⟨?_, ?_⟩, ?_, ?_⟩
    · rintro rfl
      exact Word.toInt_shiftLeft v _
    · exact fun same => Word.eq_of_modEq (same.trans (Word.toInt_shiftLeft v _).symm)
    · have floor := Rat.floor_intCast_div_natCast v.toInt (2 ^ n.toInt.toNat)
      push_cast at floor
      rw [floor, Word.toInt_shiftRight]
    · intro below
      have short : n.toInt < 64 := Int64.lt_iff_toInt_lt.mp below
      exact ⟨Word.shiftLeft_eq_machine positive short v,
        Word.shiftRight_eq_machine positive short v⟩
  · have positive : 0 ≤ m.toInt := Int64.le_iff_toInt_le.mp nonneg
    have positive' : 0 ≤ n.toInt := Int64.le_iff_toInt_le.mp nonneg'
    have sum : (m + n).toInt = m.toInt + n.toInt := by
      have top : Int64.maxValue.toInt = 2 ^ 63 - 1 := by decide
      rw [Int64.toInt_add]
      exact Int.bmod_eq_of_le (by omega) (by omega)
    have parts : (m + n).toInt.toNat = m.toInt.toNat + n.toInt.toNat := by omega
    have left := Word.shiftLeft_shiftLeft v m.toInt.toNat n.toInt.toNat
    have right := Word.shiftRight_shiftRight v m.toInt.toNat n.toInt.toNat
    constructor
    · rw [apply_shiftLeft positive, apply_shiftLeft (sum ▸ by omega), parts, ← left]
      exact apply_shiftLeft positive'
    · rw [apply_shiftRight positive, apply_shiftRight (sum ▸ by omega), parts, ← right]
      exact apply_shiftRight positive'
  · have refused : n.toInt < 0 := Int64.lt_iff_toInt_lt.mp negative
    exact ⟨if_pos refused, if_pos refused⟩

theorem far_shifts_joined :
    let v : Int64 := -5
    (BinaryOp.shiftRight.apply (.int v) (.int 40) >>= (BinaryOp.shiftRight.apply · (.int 40))) =
        BinaryOp.shiftRight.apply (.int v) (.int 80) ∧
      (∃ left right : Int64, BinaryOp.shiftLeft.apply (.int v) (.int 80) = pure (.int left) ∧
        BinaryOp.shiftRight.apply (.int v) (.int 80) = pure (.int right) ∧
        left = 0 ∧ right.toInt = ⌊(-5 : ℚ) / 2 ^ 80⌋) ∧
      BinaryOp.shiftLeft.apply (.int v) (.int (-1)) = .reject .negativeShift := by
  intro v
  obtain ⟨exact, joined, refused⟩ := shifts_exact v
  obtain ⟨left, right, moved, moved', product, quotient, -⟩ := exact 80 (by decide)
  refine ⟨(joined 40 40 (by decide) (by decide) (by decide)).2, ⟨left, right, moved, moved',
    ((product 0).mpr (by decide)).symm, quotient⟩, (refused (-1) (by decide)).1⟩

end Operators

end ConstExpr
