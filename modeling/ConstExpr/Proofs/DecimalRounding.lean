import ConstExpr.Proofs.NearestFloat

/-!
Decimals as floats. A power of ten in the table is exact, and so is a whole number of 53 bits, so
their product or quotient is rounded only once; beyond the table the power itself is exact. What is
settled by the number of digits alone is far below the least float or above the greatest. So a
decimal, a word and the number of a numeral are read as the nearest float.
-/

namespace ConstExpr.Binary64

open Float.Model (Format UnpackedFloat)
open Float.Model.UnpackedFloat

section Scientific

theorem closest_zero {q : ℚ} (nonneg : 0 ≤ q) (tiny : q ≤ 2 ^ (-1075 : ℤ)) :
    Closest q 0 (-1074) := by
  have unit : (0 : ℚ) < 2 ^ (-1074 : ℤ) := zpow_pos two_pos _
  have half : (2 : ℚ) ^ (-1075 : ℤ) = 1 / 2 * 2 ^ (-1074 : ℤ) := by
    rw [show (-1075 : ℤ) = -1074 - 1 from rfl, zpow_sub_one₀ two_ne_zero]
    ring
  have small : q / 2 ^ (-1074 : ℤ) ≤ 1 / 2 := by rwa [div_le_iff₀ unit, ← half]
  have rounds : RoundsTo (q / 2 ^ (-1074 : ℤ)) 0 := by
    refine ⟨?_, fun _ => Even.zero⟩
    rw [Nat.cast_zero, zero_sub, abs_neg, abs_of_nonneg (by positivity)]
    exact small
  refine ⟨⟨by decide, le_rfl, .inr rfl⟩, fun n k below least => ?_⟩
  have grid := rounds.grid (.inr rfl) below least
  rwa [div_mul_cancel₀ _ unit.ne'] at grid

theorem zero_eq : (0.0 : Float) = .ofModel (.pack (unpacked .positive 0 (-1074))) := rfl

theorem nearest_zero {q : ℚ} (nonneg : 0 ≤ q) (tiny : q ≤ 2 ^ (-1075 : ℤ)) :
    Nearest false q 0.0 := by
  rw [zero_eq]
  exact (closest_zero nonneg tiny).nearest .positive

theorem infinity_eq : infinity = .ofModel (.pack (.infinity .positive)) := rfl

theorem nearest_infinity {q : ℚ} (large : overflow ≤ q) : Nearest false q infinity := by
  have reading : read infinity = .infinite false := by
    rw [infinity_eq, read_ofModel_pack]
    rfl
  unfold Nearest
  rw [reading]
  exact ⟨rfl, large⟩

theorem ten_zpow_le {e : Int} (low : e ≤ -331) : (10 : ℚ) ^ e ≤ 2 ^ (-1075 : ℤ) := by
  have powers : ((2 ^ 1075 : Nat) : ℚ) ≤ ((10 ^ 331 : Nat) : ℚ) := by
    apply Nat.cast_le.mpr
    have tens : 2 * 5 = 10 := by norm_num
    calc 2 ^ 1075
      _ = 2 ^ 331 * ((2 ^ 30) ^ 24 * 2 ^ 24) := by rw [← pow_mul, ← pow_add, ← pow_add]
      _ ≤ 2 ^ 331 * ((5 ^ 13) ^ 24 * 5 ^ 19) := Nat.mul_le_mul_left _
        (Nat.mul_le_mul (Nat.pow_le_pow_left (by norm_num) 24) (by norm_num))
      _ = 10 ^ 331 := by rw [← pow_mul, ← pow_add, ← mul_pow, tens]
  calc (10 : ℚ) ^ e
    _ ≤ 10 ^ (-331 : ℤ) := zpow_le_zpow_right₀ (by norm_num) low
    _ = ((10 ^ 331 : Nat) : ℚ)⁻¹ := by
      rw [zpow_neg, Nat.cast_pow]
      rfl
    _ ≤ ((2 ^ 1075 : Nat) : ℚ)⁻¹ := inv_anti₀ (by positivity) powers
    _ = 2 ^ (-1075 : ℤ) := by
      rw [zpow_neg, Nat.cast_pow]
      rfl

theorem overflow_le_ten_zpow {e : Int} (high : 310 ≤ e) : overflow ≤ 10 ^ e := by
  have powers : (2 : ℚ) ^ 1024 ≤ 10 ^ 310 :=
    calc (2 : ℚ) ^ 1024
      _ = (2 ^ 93) ^ 11 * 2 := by rw [← pow_mul, ← pow_succ]
      _ ≤ (10 ^ 28) ^ 11 * 10 ^ 2 :=
        mul_le_mul (pow_le_pow_left₀ (by positivity) (by norm_num) 11) (by norm_num)
          (by positivity) (by positivity)
      _ = 10 ^ 310 := by rw [← pow_mul, ← pow_add]
  have positive : (0 : ℚ) < 2 ^ 970 := pow_pos two_pos 970
  calc overflow
    _ ≤ 2 ^ 1024 := sub_le_self _ positive.le
    _ ≤ 10 ^ (310 : ℤ) := powers
    _ ≤ 10 ^ e := zpow_le_zpow_right₀ (by norm_num) high

theorem nearest_ofScientific {m : Nat} (positive : 0 < m) (e : Int) :
    Nearest false (m * 10 ^ e) (.ofModel (.ofScientific m e)) := by
  have one : (1 : ℚ) ≤ m := by exact_mod_cast positive
  have range : (2 : Int) ^ Format.binary64.exponentBits = 2048 := rfl
  unfold Float.Model.ofScientific UnpackedFloat.ofScientific
  rw [dif_neg positive.ne', range]
  split_ifs with high low nonneg
  · rw [← infinity_eq]
    apply nearest_infinity
    calc overflow
      _ ≤ 10 ^ e := overflow_le_ten_zpow (by omega)
      _ ≤ m * 10 ^ e := le_mul_of_one_le_left (by positivity) one
  · have packed : Float.ofModel (.pack (.zero .positive)) = 0.0 := zero_eq.symm
    rw [packed]
    apply nearest_zero (by positivity)
    obtain ⟨n, rfl⟩ : ∃ n : Nat, e = -n := ⟨(-e).toNat, by omega⟩
    have short : (m : ℚ) ≤ 2 ^ (m.log2 + 1) := by exact_mod_cast Nat.lt_log2_self.le
    have tens : (10 : ℚ) ^ (-n : ℤ) ≤ 2 ^ (-n : ℤ) := by
      rw [zpow_neg, zpow_neg, zpow_natCast, zpow_natCast]
      exact inv_anti₀ (by positivity) (pow_le_pow_left₀ two_pos.le (by norm_num) n)
    calc (m : ℚ) * 10 ^ (-n : ℤ)
      _ ≤ 2 ^ (m.log2 + 1) * 2 ^ (-n : ℤ) := by gcongr
      _ = 2 ^ ((m.log2 + 1 : Nat) + -n : ℤ) := by rw [zpow_add₀ two_ne_zero, zpow_natCast]
      _ ≤ 2 ^ (-1075 : ℤ) := zpow_le_zpow_right₀ one_le_two (by push_cast; omega)
  · -- the shift makes room for all the bits of a mantissa
    have power : (10 : ℚ) ^ e = 10 ^ e.toNat := by
      rw [← zpow_natCast, Int.toNat_of_nonneg nonneg]
    apply nearest_mul
    · have bits : Format.binary64.mantissaBits = 53 := rfl
      have tens : 0 < 10 ^ e.toNat := by positivity
      rw [bits, Nat.shiftLeft_eq]
      nlinarith
    · have shift : (2 : ℚ) ^ Format.binary64.mantissaBits ≠ 0 := by positivity
      rw [size, size, Nat.shiftLeft_eq, power, zpow_neg, zpow_natCast]
      push_cast
      field_simp
  · have power : (10 : ℚ) ^ e = (10 ^ (-e).toNat)⁻¹ := by
      rw [← zpow_natCast, Int.toNat_of_nonneg (by omega), zpow_neg, inv_inv]
    apply nearest_div
    rw [size, size, power]
    push_cast
    simp [div_eq_mul_inv]

theorem unpack_toFloat {m : Nat} (positive : 0 < m) (below : m < 2 ^ 53) :
    ∃ n k, ∃ some : 0 < n, m.toUInt64.toFloat.toModel.unpack = .finite .positive n k some ∧
      size n k = m := by
  -- a whole number of so few bits is on the grid, so it is its own closest float
  have word : m.toUInt64.toNat = m := by
    rw [Nat.toUInt64_eq, UInt64.toNat_ofNat_of_lt']
    have : UInt64.size = 2 ^ 64 := rfl
    omega
  have sign : compare (m : Int) 0 = .gt := Int.compare_eq_gt.mpr (by omega)
  obtain ⟨n, k, closest, rounded⟩ := round_closest (e := 0) .positive positive
  have value : size n k = m := by
    have whole : size m 0 = m := by simp [size]
    exact whole ▸ closest.exact below (by decide) rfl
  have some : n ≠ 0 := by
    rintro rfl
    have : (0 : ℚ) < m := by exact_mod_cast positive
    simp [size, this.ne] at value
  have small : k ≤ 971 := by
    by_contra large
    have least : size 1 53 ≤ size n k := size_le_size (by omega) (by omega)
    have most : (m : ℚ) < 2 ^ 53 := by exact_mod_cast below
    have power : size 1 53 = 2 ^ 53 := by norm_num [size]
    linarith
  have packed : m.toUInt64.toFloat.toModel.unpack = UnpackedFloat.unpack .binary64
      (UnpackedFloat.pack .binary64 (unpacked .positive n k)) := by
    show UnpackedFloat.unpack .binary64 (UnpackedFloat.pack .binary64
      (UnpackedFloat.normalize .binary64 m.toUInt64.toNat 0 .positive)) = _
    rw [word, ← rounded]
    unfold UnpackedFloat.normalize
    rw [sign]
    rfl
  refine ⟨n, k, Nat.pos_of_ne_zero some, ?_, value⟩
  rw [packed, unpacked, dif_neg some, unpack_pack _ closest.canonical small]

def isPowerOfTen (e : Nat) : UnpackedFloat → Bool
  | .finite .positive n k _ => 2 ^ 52 ≤ n && n * 2 ^ k.toNat == 10 ^ e * 2 ^ (-k).toNat
  | _ => false

theorem isPowerOfTen_table : ∀ e, ∀ listed : e < Float.exactlyRepresentablePowersOfTen.size,
    isPowerOfTen e (Float.exactlyRepresentablePowersOfTen[e]).toModel.unpack := by
  decide +kernel

theorem exists_of_isPowerOfTen {e : Nat} {u : UnpackedFloat} (power : isPowerOfTen e u) :
    ∃ n k, ∃ some : 0 < n, u = .finite .positive n k some ∧ 2 ^ 52 ≤ n ∧ size n k = 10 ^ e := by
  cases u with
  | finite s n k some =>
    cases s with
    | positive =>
      simp only [isPowerOfTen, Bool.and_eq_true, decide_eq_true_iff, beq_iff_eq] at power
      refine ⟨n, k, some, rfl, power.1, ?_⟩
      have value : (n : ℚ) * 2 ^ k.toNat = 10 ^ e * 2 ^ (-k).toNat := by exact_mod_cast power.2
      have exponent : (2 : ℚ) ^ k = 2 ^ k.toNat / 2 ^ (-k).toNat := by
        rw [← zpow_natCast, ← zpow_natCast, ← zpow_sub₀ two_ne_zero]
        congr 1
        omega
      rw [size, exponent, ← mul_div_assoc, value]
      field_simp
    | negative => cases power
  | _ => cases power

/-- Both operands of the short way are exact, and so is the product or quotient before rounding. -/
theorem nearest_scientific {m : Nat} (positive : 0 < m) (negative : Bool) (e : Nat) :
    Nearest false (m * 10 ^ (if negative then -(e : ℤ) else e))
      (Float.ofScientific m negative e) := by
  by_cases small : m < 2 ^ 53 ∧ e ≤ 22
  · obtain ⟨n, k, some, whole, value⟩ := unpack_toFloat positive small.1
    have listed : e < Float.exactlyRepresentablePowersOfTen.size := Nat.lt_succ_of_le small.2
    obtain ⟨p, j, some', power, full, value'⟩ :=
      exists_of_isPowerOfTen (isPowerOfTen_table e listed)
    have power : (Float.exactlyRepresentablePowersOfTen[e]).toModel.unpack =
      .finite .positive p j some' := power
    unfold Float.ofScientific
    rw [dif_pos small]
    cases negative with
    | true =>
      show Nearest false _ (.ofModel (.pack (UnpackedFloat.div .binary64
        m.toUInt64.toFloat.toModel.unpack
        (Float.exactlyRepresentablePowersOfTen[e]).toModel.unpack)))
      rw [whole, power]
      apply nearest_div
      rw [value, value', if_pos rfl, zpow_neg, zpow_natCast, div_eq_mul_inv]
    | false =>
      show Nearest false _ (.ofModel (.pack (UnpackedFloat.mul .binary64
        m.toUInt64.toFloat.toModel.unpack
        (Float.exactlyRepresentablePowersOfTen[e]).toModel.unpack)))
      rw [whole, power]
      apply nearest_mul
      · exact full.trans (Nat.le_mul_of_pos_left p some)
      · rw [value, value', if_neg Bool.false_ne_true, zpow_natCast]
  · have exponent : (if negative then Int.negOfNat e else Int.ofNat e) =
        (if negative then -(e : ℤ) else e) := by
      cases negative with
      | true => exact Int.negOfNat_eq
      | false => rfl
    unfold Float.ofScientific
    rw [dif_neg small]
    dsimp only
    rw [exponent]
    exact nearest_ofScientific positive _

theorem le_of_length_toDigits {n : Nat} (positive : 0 < n) :
    10 ^ ((Nat.toDigits 10 n).length - 1) ≤ n := by
  rcases Nat.eq_zero_or_pos ((Nat.toDigits 10 n).length - 1) with one | more
  · rw [one, pow_zero]
    exact positive
  · by_contra below
    have fewer := (Nat.length_toDigits_le_iff (by decide : 1 < 10) more).mpr (not_le.mp below)
    omega

/-- Reading a decimal gives the nearest float. -/
theorem nearest_ofDecimal (mantissa : Nat) (exponent : Int) :
    Nearest false (mantissa * 10 ^ exponent) (ofDecimal mantissa exponent) := by
  have width := Nat.length_toDigits_pos (b := 10) (n := mantissa)
  unfold ofDecimal
  dsimp only
  split_ifs with tiny huge below
  · apply nearest_zero (by positivity)
    rcases tiny with zero | low
    · rw [zero, Nat.cast_zero, zero_mul]
      positivity
    · have bound : mantissa < 10 ^ (Nat.toDigits 10 mantissa).length :=
        (Nat.length_toDigits_le_iff (by decide) width).mp le_rfl
      generalize (Nat.toDigits 10 mantissa).length = count at *
      calc (mantissa : ℚ) * 10 ^ exponent
        _ ≤ 10 ^ count * 10 ^ exponent := by
          gcongr
          exact_mod_cast bound.le
        _ = 10 ^ (count + exponent : ℤ) := by rw [zpow_add₀ (by norm_num), zpow_natCast]
        _ ≤ 2 ^ (-1075 : ℤ) := ten_zpow_le (by omega)
  · apply nearest_infinity
    have bound : 10 ^ ((Nat.toDigits 10 mantissa).length - 1) ≤ mantissa :=
      le_of_length_toDigits (by omega)
    generalize (Nat.toDigits 10 mantissa).length = count at *
    calc overflow
      _ ≤ 10 ^ ((count - 1 : Nat) + exponent : ℤ) := overflow_le_ten_zpow (by omega)
      _ = 10 ^ (count - 1) * 10 ^ exponent := by rw [zpow_add₀ (by norm_num), zpow_natCast]
      _ ≤ mantissa * 10 ^ exponent := by
        gcongr
        exact_mod_cast bound
  · -- in range the power of ten is computed
    have found := nearest_scientific (m := mantissa) (by omega) true (-exponent).toNat
    rwa [if_pos rfl, Int.toNat_of_nonneg (by omega), neg_neg] at found
  · have found := nearest_scientific (m := mantissa) (by omega) false exponent.toNat
    rwa [if_neg Bool.false_ne_true, Int.toNat_of_nonneg (by omega)] at found

end Scientific

section Words

theorem nearest_ofNat (n : Nat) : Nearest false n (Float.ofNat n) := by
  rcases Nat.eq_zero_or_pos n with rfl | positive
  · have zero : Float.ofNat 0 = 0.0 := rfl
    rw [zero]
    exact nearest_zero (by simp) (by positivity)
  · have found := nearest_scientific positive false 0
    rwa [if_neg Bool.false_ne_true, Nat.cast_zero, zpow_zero, mul_one] at found

theorem nearest_ofWord (i : Int64) :
    Nearest (i.toInt < 0) (i.toInt.natAbs : ℚ) (ofWord i) := by
  unfold ofWord
  cases i.toInt with
  | ofNat n => exact nearest_ofNat n
  | negSucc n =>
    rw [decide_eq_true (Int.negSucc_lt_zero n)]
    exact (nearest_ofNat (n + 1)).neg

theorem Nearest.eq_zero {negative : Bool} {n : Nat} {x : Float} (nearest : Nearest negative n x)
    (zero : isZero x) : n = 0 := by
  obtain ⟨s, e, found⟩ := isZero_iff.mp zero
  rw [Nearest, found] at nearest
  obtain ⟨y, one⟩ : ∃ y, read y = .finite false (2 ^ 52) (-52) :=
    exists_read ⟨by decide, by decide, .inl le_rfl⟩ (by decide)
  have near := (nearest.2.2 _ _ _ _ one).1
  have unit : size (2 ^ 52) (-52) = 1 := by
    rw [size]
    norm_num
  have nothing : size 0 e = 0 := by simp [size]
  rw [nothing, unit, zero_sub, abs_neg, Nat.abs_cast] at near
  by_contra some
  have least : (1 : ℚ) ≤ n := by exact_mod_cast Nat.pos_of_ne_zero some
  rw [abs_of_nonpos (by linarith)] at near
  linarith

theorem isZero_ofWord {i : Int64} : isZero (ofWord i) ↔ i = 0 := by
  constructor
  · intro zero
    have value := (nearest_ofWord i).eq_zero zero
    exact Int64.toInt_inj.mp (Int.natAbs_eq_zero.mp value)
  · rintro rfl
    have zero : ofWord 0 = 0.0 := rfl
    have canonical : Canonical 0 (-1074) := ⟨by decide, le_rfl, .inr rfl⟩
    rw [zero, zero_eq]
    exact isZero_iff.mpr ⟨false, -1074, read_pack canonical (by decide) .positive⟩

end Words

end ConstExpr.Binary64

namespace ConstExpr

theorem Numeral.nearest (n : Numeral) :
    Binary64.Nearest n.negative
      (Bytes.toNat (n.whole ++ n.fraction.getD []) *
        10 ^ (n.exponent.getD 0 - (n.fraction.getD []).length)) n.toFloat := by
  have found := Binary64.nearest_ofDecimal (Bytes.toNat (n.whole ++ n.fraction.getD []))
    (n.exponent.getD 0 - (n.fraction.getD []).length)
  unfold toFloat
  dsimp only
  cases n.negative with
  | false => exact found
  | true => exact found.neg

end ConstExpr
