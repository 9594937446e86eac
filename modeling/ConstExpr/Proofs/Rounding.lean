import ConstExpr.Number.Binary64
import Mathlib

/-!
Rounding to 53 bits. The digits that a mantissa keeps and the two bits behind them locate a number
closely enough to round it to the nearest integer, the even one of two. On the grid of the right
exponent that integer is the mantissa of the closest float, so products, quotients and whole numbers
are rounded to the closest float.
-/

namespace ConstExpr.Binary64

open Float.Model (Format UnpackedFloat)
open Float.Model.UnpackedFloat

section Integers

variable {em : ExtendedMantissa} {v : ℚ} {n : Nat}

/-- The number is the mantissa and a half if the round bit is set, and anything less than a half
more if the sticky bit is set. -/
def Locates (em : ExtendedMantissa) (v : ℚ) : Prop :=
  ∃ rest : ℚ, 0 ≤ rest ∧ rest < 1 ∧ 2 * v = 2 * em.mantissa + em.roundBit.toNat + rest ∧
    (em.stickyBit = true ↔ rest ≠ 0)

structure RoundsTo (v : ℚ) (n : Nat) : Prop where
  near : |n - v| ≤ 1 / 2
  even : |n - v| = 1 / 2 → Even n

theorem Locates.shiftRightOne (located : Locates em v) : Locates em.shiftRightOne (v / 2) := by
  obtain ⟨rest, least, most, value, sticky⟩ := located
  have split : (em.mantissa : ℚ) = 2 * (em.mantissa / 2 : Nat) + (em.mantissa % 2 : Nat) := by
    exact_mod_cast (Nat.div_add_mod em.mantissa 2).symm
  have bit : (em.mantissa % 2 != 0).toNat = em.mantissa % 2 := by
    rcases Nat.mod_two_eq_zero_or_one em.mantissa with even | odd
    · simp [even]
    · simp [odd]
  refine ⟨(em.roundBit.toNat + rest) / 2, by positivity, ?_, ?_, ?_⟩
  · cases em.roundBit <;> simp <;> linarith
  · simp only [ExtendedMantissa.shiftRightOne, bit]
    linarith
  · simp only [ExtendedMantissa.shiftRightOne, Bool.or_eq_true, sticky]
    cases em.roundBit with
    | false => simp
    | true =>
      have some : (1 : ℚ) + rest ≠ 0 := by positivity
      simp [some]

theorem Locates.shiftRight (located : Locates em v) (count : Nat) :
    Locates (em >>> count) (v / 2 ^ count) := by
  induction count with
  | zero =>
    rw [pow_zero, div_one]
    exact located
  | succ count ih =>
    have once := ih.shiftRightOne
    rwa [div_div, ← pow_succ] at once

theorem roundsTo_of_lt (near : |n - v| < 1 / 2) : RoundsTo v n :=
  ⟨near.le, fun half => absurd half near.ne⟩

theorem Locates.rounded (located : Locates em v) : RoundsTo v em.roundedMantissa := by
  obtain ⟨rest, least, most, value, sticky⟩ := located
  obtain ⟨m, round, further⟩ := em
  dsimp only at value sticky
  cases round with
  | false =>
    have low : |m - v| < 1 / 2 := by
      simp only [Bool.toNat_false, Nat.cast_zero] at value
      rw [abs_lt]
      constructor <;> linarith
    cases further <;> exact roundsTo_of_lt low
  | true =>
    simp only [Bool.toNat_true, Nat.cast_one] at value
    cases further with
    | false =>
      -- halfway: the even neighbour is taken
      have nothing : rest = 0 := by simpa using sticky
      have even : Even (m + m % 2) := by
        rw [Nat.even_iff]
        omega
      refine ⟨?_, fun _ => even⟩
      show |((m + m % 2 : Nat) : ℚ) - v| ≤ 1 / 2
      rw [abs_le]
      rcases Nat.mod_two_eq_zero_or_one m with parity | parity
      · rw [parity]
        push_cast
        constructor <;> linarith
      · rw [parity]
        push_cast
        constructor <;> linarith
    | true =>
      have some : 0 < rest := lt_of_le_of_ne least (Ne.symm (sticky.mp rfl))
      apply roundsTo_of_lt
      show |((m + 1 : Nat) : ℚ) - v| < 1 / 2
      rw [abs_lt]
      push_cast
      constructor <;> linarith

theorem RoundsTo.nearest (rounds : RoundsTo v n) (other : ℤ) :
    |n - v| ≤ |other - v| ∧ (|n - v| = |other - v| → other = n ∨ Even n) := by
  by_cases same : other = n
  · subst same
    exact ⟨by simp, fun _ => .inl rfl⟩
  · have apart : (1 : ℚ) ≤ |(other : ℚ) - n| := by
      have whole : 1 ≤ |other - (n : ℤ)| := Int.one_le_abs (sub_ne_zero.mpr same)
      exact_mod_cast whole
    have triangle : |(other : ℚ) - n| ≤ |other - v| + |n - v| := by
      rw [abs_sub_comm (n : ℚ) v]
      exact abs_sub_le _ _ _
    have near := rounds.near
    refine ⟨by linarith, fun tie => .inr (rounds.even ?_)⟩
    linarith

end Integers

section Located

variable {v : ℚ} {m : Nat} {a : Accuracy}

theorem Locates.bounds (located : Locates (.ofMantissaAndAccuracy m a) v) : m ≤ v ∧ v < m + 1 := by
  obtain ⟨rest, least, most, value, -⟩ := located
  have mantissa : (ExtendedMantissa.ofMantissaAndAccuracy m a).mantissa = m := by
    cases a with
    | exact => rfl
    | inexact order => cases order <;> rfl
  have bit : ((ExtendedMantissa.ofMantissaAndAccuracy m a).roundBit.toNat : ℚ) ≤ 1 := by
    exact_mod_cast Bool.toNat_le _
  rw [mantissa] at value
  constructor
  · have nonneg : (0 : ℚ) ≤ (ExtendedMantissa.ofMantissaAndAccuracy m a).roundBit.toNat := by
      positivity
    linarith
  · linarith

theorem locates_exact (m : Nat) : Locates (.ofMantissaAndAccuracy m .exact) m :=
  ⟨0, le_rfl, one_pos, by simp [ExtendedMantissa.ofMantissaAndAccuracy],
    by simp [ExtendedMantissa.ofMantissaAndAccuracy]⟩

theorem locates_div (num : Nat) {den : Nat} (positive : 0 < den) :
    Locates (.ofMantissaAndAccuracy (num / den) (accuracyOfFraction (num % den) den))
      (num / den) := by
  have denominator : (0 : ℚ) < den := by exact_mod_cast positive
  obtain ⟨share, share_eq⟩ : ∃ share : ℚ, share = (num % den : Nat) / den := ⟨_, rfl⟩
  have value : (num / den : ℚ) = (num / den : Nat) + share := by
    have split : (num : ℚ) = den * (num / den : Nat) + (num % den : Nat) := by
      exact_mod_cast (Nat.div_add_mod num den).symm
    rw [share_eq, split]
    field_simp
  have product : share * den = (num % den : Nat) := by
    rw [share_eq, div_mul_cancel₀ _ denominator.ne']
  have most : share < 1 := by
    rw [share_eq, div_lt_one denominator]
    exact_mod_cast Nat.mod_lt num positive
  rw [value]
  unfold accuracyOfFraction
  split_ifs with zero
  · have nothing : share = 0 := by rw [share_eq, zero, Nat.cast_zero, zero_div]
    rw [nothing, add_zero]
    exact locates_exact _
  · have some : 0 < share := by
      have remainder : (0 : ℚ) < (num % den : Nat) := by exact_mod_cast Nat.pos_of_ne_zero zero
      rw [share_eq]
      positivity
    -- less than a half sets the sticky bit, a half the round bit, and more than a half both
    cases order : compare (2 * (num % den)) den with
    | lt =>
      have below : 2 * share < 1 := by
        have : (2 * (num % den : Nat) : ℚ) < den := by exact_mod_cast Nat.compare_eq_lt.mp order
        nlinarith
      refine ⟨2 * share, by linarith, below, ?_, ?_⟩
      · simp only [ExtendedMantissa.ofMantissaAndAccuracy, Bool.toNat_false, Nat.cast_zero]
        ring
      · simp [ExtendedMantissa.ofMantissaAndAccuracy, some.ne']
    | eq =>
      have half : 2 * share = 1 := by
        have : (2 * (num % den : Nat) : ℚ) = den := by exact_mod_cast Nat.compare_eq_eq.mp order
        rw [← product, ← mul_assoc] at this
        exact (mul_eq_right₀ denominator.ne').mp this
      refine ⟨0, le_rfl, one_pos, ?_, ?_⟩
      · simp only [ExtendedMantissa.ofMantissaAndAccuracy, Bool.toNat_true, Nat.cast_one]
        linarith
      · simp [ExtendedMantissa.ofMantissaAndAccuracy]
    | gt =>
      have above : 1 < 2 * share := by
        have : (den : ℚ) < 2 * (num % den : Nat) := by exact_mod_cast Nat.compare_eq_gt.mp order
        nlinarith
      refine ⟨2 * share - 1, by linarith, by linarith, ?_, ?_⟩
      · simp only [ExtendedMantissa.ofMantissaAndAccuracy, Bool.toNat_true, Nat.cast_one]
        ring
      · simp [ExtendedMantissa.ofMantissaAndAccuracy, sub_ne_zero, above.ne']

end Located

section Floats

def size (mantissa : Nat) (exponent : Int) : ℚ := mantissa * 2 ^ exponent

/-- The one form in which a float is kept: the mantissa has all its bits, or else the exponent is
the least one. -/
structure Canonical (mantissa : Nat) (exponent : Int) : Prop where
  below : mantissa < 2 ^ 53
  least : -1074 ≤ exponent
  full : 2 ^ 52 ≤ mantissa ∨ exponent = -1074

/-- No float is nearer to a number, and of two equally near ones the one with an even mantissa is
taken. Exponents are not limited from above. -/
structure Closest (q : ℚ) (mantissa : Nat) (exponent : Int) : Prop where
  canonical : Canonical mantissa exponent
  near : ∀ n k, n < 2 ^ 53 → -1074 ≤ k →
    |size mantissa exponent - q| ≤ |size n k - q| ∧
      (|size mantissa exponent - q| = |size n k - q| →
        size n k = size mantissa exponent ∨ Even mantissa)

variable {u : ℚ} {t : ℤ} {n : Nat}

theorem abs_size_sub (n : Nat) (t : ℤ) (u : ℚ) : |size n t - u * 2 ^ t| = |n - u| * 2 ^ t := by
  have unit : (0 : ℚ) < 2 ^ t := zpow_pos two_pos t
  rw [size, ← sub_mul, abs_mul, abs_of_pos unit]

/-- Rounding on the grid of one exponent is rounding among all floats, as long as the number is not
below the full mantissas of that exponent. -/
theorem RoundsTo.grid (full : 2 ^ 52 ≤ u ∨ t = -1074) (rounds : RoundsTo u n)
    {m : Nat} {k : ℤ} (below : m < 2 ^ 53) (least : -1074 ≤ k) :
    |size n t - u * 2 ^ t| ≤ |size m k - u * 2 ^ t| ∧
      (|size n t - u * 2 ^ t| = |size m k - u * 2 ^ t| → size m k = size n t ∨ Even n) := by
  have unit : (0 : ℚ) < 2 ^ t := zpow_pos two_pos t
  rw [abs_size_sub]
  rcases le_or_gt t k with coarser | finer
  · -- a float with a greater exponent is on the grid too
    obtain ⟨d, rfl⟩ : ∃ d : Nat, k = t + d := ⟨(k - t).toNat, by omega⟩
    have multiple : size m (t + d) = ((m * 2 ^ d : ℤ) : ℚ) * 2 ^ t := by
      rw [size, zpow_add₀ two_ne_zero, zpow_natCast]
      push_cast
      ring
    have distance : |size m (t + d) - u * 2 ^ t| = |((m * 2 ^ d : ℤ) : ℚ) - u| * 2 ^ t := by
      rw [multiple, ← sub_mul, abs_mul, abs_of_pos unit]
    obtain ⟨near, tie⟩ := rounds.nearest (m * 2 ^ d)
    rw [distance]
    refine ⟨mul_le_mul_of_nonneg_right near unit.le, fun same => ?_⟩
    rcases tie (mul_right_cancel₀ unit.ne' same) with found | even
    · left
      rw [multiple, found, size]
      norm_cast
    · exact .inr even
  · -- one with a smaller exponent is below the least full mantissa, which is on the grid
    have normal : 2 ^ 52 ≤ u := full.resolve_right (by omega)
    have low : size m k < 2 ^ 52 * 2 ^ t := by
      have mantissa : (m : ℚ) < 2 ^ 53 := by exact_mod_cast below
      have exponent : (2 : ℚ) ^ k ≤ 2 ^ (t - 1) := zpow_le_zpow_right₀ one_le_two (by omega)
      calc size m k
        _ < 2 ^ 53 * 2 ^ k := mul_lt_mul_of_pos_right mantissa (zpow_pos two_pos k)
        _ ≤ 2 ^ 53 * 2 ^ (t - 1) := by gcongr
        _ = 2 ^ 52 * 2 ^ t := by rw [zpow_sub_one₀ two_ne_zero]; ring
    have near : |n - u| ≤ u - 2 ^ 52 :=
      calc |n - u|
        _ ≤ |((2 ^ 52 : ℤ) : ℚ) - u| := (rounds.nearest (2 ^ 52)).1
        _ = |u - 2 ^ 52| := by rw [abs_sub_comm]; push_cast; rfl
        _ = u - 2 ^ 52 := abs_of_nonneg (sub_nonneg.mpr normal)
    have farther : |n - u| * 2 ^ t < |size m k - u * 2 ^ t| := by
      have under : size m k - u * 2 ^ t < 0 := by nlinarith
      rw [abs_of_neg under]
      nlinarith
    exact ⟨farther.le, fun same => absurd same farther.ne⟩

theorem Closest.exact {q : ℚ} {m n : Nat} {e k : Int} (closest : Closest q m e)
    (below : n < 2 ^ 53) (least : -1074 ≤ k) (value : size n k = q) : size m e = q := by
  have near := (closest.near n k below least).1
  rw [value, sub_self, abs_zero] at near
  exact sub_eq_zero.mp (abs_eq_zero.mp (le_antisymm near (abs_nonneg _)))

end Floats

section Round

variable {v : ℚ} {m : Nat} {e : Int}

def unpacked (s : Sign) (mantissa : Nat) (exponent : Int) : UnpackedFloat :=
  if zero : mantissa = 0 then .zero s else .finite s mantissa exponent (Nat.pos_of_ne_zero zero)

theorem targetExponent_eq (m : Nat) (e : Int) :
    Format.binary64.targetExponent (Float.Model.totalExponent m e) =
      max (m.log2 + e - 52) (-1074) := by
  have bits : Format.binary64.mantissaBits = 53 := rfl
  have least : Format.binary64.minExponent = -1074 := rfl
  rw [Format.targetExponent, Float.Model.totalExponent, bits, least]
  omega

theorem shiftToTargetExponent_short (below : m < 2 ^ 53) (least : -1074 ≤ e) :
    shiftToTargetExponent .binary64 m e .exact = (⟨m, false, false⟩, e) := by
  have bits : m.log2 ≤ 52 := by
    by_cases zero : m = 0
    · simp [zero]
    · exact Nat.le_of_lt_succ ((Nat.log2_lt zero).mpr below)
  have still : (max (m.log2 + e - 52) (-1074) - e).toNat = 0 := by omega
  simp only [shiftToTargetExponent, shiftToExponent, targetExponent_eq, still]
  simp
  rfl

theorem shiftToTargetExponent_long (least : -1074 ≤ e) :
    shiftToTargetExponent .binary64 (2 ^ 53) e .exact = (⟨2 ^ 52, false, false⟩, e + 1) := by
  have once : (max ((2 ^ 53 : Nat).log2 + e - 52) (-1074) - e).toNat = 1 := by
    rw [Nat.log2_two_pow]
    omega
  simp only [shiftToTargetExponent, shiftToExponent, targetExponent_eq, once]
  rfl

theorem div_two_pow_lt {d : Nat} (upper : v < m + 1) (bits : m.log2 ≤ 52 + d) :
    v / 2 ^ d < 2 ^ 53 := by
  have mantissa : m + 1 ≤ 2 ^ (53 + d) :=
    calc m + 1
      _ ≤ 2 ^ (m.log2 + 1) := Nat.lt_log2_self
      _ ≤ 2 ^ (53 + d) := Nat.pow_le_pow_right two_pos (by omega)
  rw [div_lt_iff₀ (by positivity), ← pow_add]
  exact upper.trans_le (by exact_mod_cast mantissa)

theorem le_div_two_pow {d : Nat} (lower : m ≤ v) (bits : m.log2 = 52 + d) :
    2 ^ 52 ≤ v / 2 ^ d := by
  have some : m ≠ 0 := by
    rintro rfl
    rw [Nat.log2_zero] at bits
    omega
  have mantissa : 2 ^ (52 + d) ≤ m := bits ▸ Nat.log2_self_le some
  rw [le_div_iff₀ (by positivity), ← pow_add]
  exact le_trans (by exact_mod_cast mantissa) lower

theorem closest_of_grid {u : ℚ} {t : Int} {n : Nat} (least : -1074 ≤ t) (below : u < 2 ^ 53)
    (full : 2 ^ 52 ≤ u ∨ t = -1074) (rounds : RoundsTo u n) :
    ∃ m k, Closest (u * 2 ^ t) m k ∧
      shiftToTargetExponent .binary64 n t .exact = (⟨m, false, false⟩, k) := by
  obtain ⟨low, high⟩ := abs_le.mp rounds.near
  have most : n ≤ 2 ^ 53 := by
    have : (n : ℚ) < ((2 ^ 53 + 1 : Nat) : ℚ) := by push_cast; linarith
    exact Nat.le_of_lt_succ (by exact_mod_cast this)
  -- rounding up can carry into one more bit, and only into a power of two
  rcases most.lt_or_eq with short | long
  · have bits : 2 ^ 52 ≤ n ∨ t = -1074 := by
      refine full.imp_left fun normal => ?_
      have : ((2 ^ 52 : Nat) : ℚ) < ((n + 1 : Nat) : ℚ) := by push_cast; linarith
      exact Nat.le_of_lt_succ (by exact_mod_cast this)
    exact ⟨n, t, ⟨⟨short, least, bits⟩, fun _ _ => rounds.grid full⟩,
      shiftToTargetExponent_short short least⟩
  · subst long
    have same : size (2 ^ 52) (t + 1) = size (2 ^ 53) t := by
      rw [size, size, zpow_add_one₀ two_ne_zero]
      push_cast
      ring
    refine ⟨2 ^ 52, t + 1, ⟨⟨by decide, by omega, .inl le_rfl⟩, fun k j below least => ?_⟩,
      shiftToTargetExponent_long least⟩
    rw [same]
    exact ⟨(rounds.grid full below least).1, fun _ => .inr (by decide)⟩

theorem roundWithAccuracy_closest {a : Accuracy} (located : Locates (.ofMantissaAndAccuracy m a) v)
    (enough : 52 ≤ m.log2 ∨ e ≤ -1074) (s : Sign) :
    ∃ n k, Closest (v * 2 ^ e) n k ∧ roundWithAccuracy .binary64 s m e a = unpacked s n k := by
  obtain ⟨lower, upper⟩ := located.bounds
  obtain ⟨d, target⟩ : ∃ d : Nat, max (m.log2 + e - 52) (-1074) = e + d :=
    ⟨(max (m.log2 + e - 52) (-1074) - e).toNat, by omega⟩
  have count : (max (m.log2 + e - 52) (-1074) - e).toNat = d := by omega
  have first : shiftToTargetExponent .binary64 m e a =
      (ExtendedMantissa.ofMantissaAndAccuracy m a >>> d, e + d) := by
    simp only [shiftToTargetExponent, shiftToExponent, targetExponent_eq, count]
  have below : v / 2 ^ d < 2 ^ 53 := div_two_pow_lt upper (by omega)
  have full : 2 ^ 52 ≤ v / 2 ^ d ∨ e + d = -1074 := by
    by_cases least : e + d = -1074
    · exact .inr least
    · exact .inl (le_div_two_pow lower (by omega))
  obtain ⟨n, k, closest, second⟩ :=
    closest_of_grid (by omega) below full (located.shiftRight d).rounded
  have scaled : v / 2 ^ d * 2 ^ (e + d) = v * 2 ^ e := by
    rw [zpow_add₀ two_ne_zero, zpow_natCast]
    field_simp
  refine ⟨n, k, scaled ▸ closest, ?_⟩
  unfold roundWithAccuracy
  rw [first]
  dsimp only
  rw [second]
  rfl

end Round

section Operations

variable {m₁ m₂ : Nat} {e₁ e₂ : Int}

theorem le_log2_mul {m d : Nat} (positive : 0 < m) (bits : 52 ≤ m.log2 + d) :
    52 ≤ (m * 2 ^ d).log2 := by
  have enough : 2 ^ 52 ≤ m * 2 ^ d :=
    calc 2 ^ 52
      _ ≤ 2 ^ (m.log2 + d) := Nat.pow_le_pow_right two_pos bits
      _ = 2 ^ m.log2 * 2 ^ d := pow_add ..
      _ ≤ m * 2 ^ d := Nat.mul_le_mul_right _ (Nat.log2_self_le positive.ne')
  exact (Nat.le_log2 (by omega)).mpr enough

theorem round_closest {m : Nat} {e : Int} (s : Sign) (positive : 0 < m) :
    ∃ n k, Closest (size m e) n k ∧ UnpackedFloat.round .binary64 s m e = unpacked s n k := by
  obtain ⟨d, count⟩ : ∃ d, (e - max (m.log2 + e - 52) (-1074)).toNat = d := ⟨_, rfl⟩
  have round : UnpackedFloat.round .binary64 s m e =
      roundWithAccuracy .binary64 s (m * 2 ^ d) (e - d) .exact := by
    simp only [UnpackedFloat.round, decreaseExponent, targetExponent_eq, count, Nat.shiftLeft_eq]
  have enough : 52 ≤ (m * 2 ^ d).log2 ∨ e - d ≤ -1074 := by
    by_cases full : 52 ≤ m.log2 + d
    · exact .inl (le_log2_mul positive full)
    · exact .inr (by omega)
  have value : ((m * 2 ^ d : Nat) : ℚ) * 2 ^ (e - d) = size m e := by
    rw [size, zpow_sub₀ two_ne_zero, zpow_natCast]
    push_cast
    field_simp
  rw [round, ← value]
  exact roundWithAccuracy_closest (locates_exact (m * 2 ^ d)) enough s

theorem mul_closest (s₁ s₂ : Sign) (positive₁ : 0 < m₁) (positive₂ : 0 < m₂)
    (enough : 2 ^ 52 ≤ m₁ * m₂) :
    ∃ n k, Closest (size m₁ e₁ * size m₂ e₂) n k ∧
      UnpackedFloat.mul .binary64 (.finite s₁ m₁ e₁ positive₁) (.finite s₂ m₂ e₂ positive₂) =
        unpacked (s₁ * s₂) n k := by
  have bits : 52 ≤ (m₁ * m₂).log2 := (Nat.le_log2 (by omega)).mpr enough
  have value : ((m₁ * m₂ : Nat) : ℚ) * 2 ^ (e₁ + e₂) = size m₁ e₁ * size m₂ e₂ := by
    rw [size, size, zpow_add₀ two_ne_zero]
    push_cast
    ring
  rw [← value]
  exact roundWithAccuracy_closest (locates_exact (m₁ * m₂)) (.inl bits) (s₁ * s₂)

/-- Division first shifts the dividend until the quotient has all the bits of a mantissa, or the
exponent is the least one. -/
theorem divCore_eq (m₁ : Nat) (e₁ : Int) (m₂ : Nat) (e₂ : Int) :
    ∃ (d : Nat) (t : Int), e₁ - e₂ = t + d ∧ (m₂.log2 + 53 ≤ m₁.log2 + d ∨ t ≤ -1074) ∧
      divCore .binary64 m₁ e₁ m₂ e₂ =
        (m₁ * 2 ^ d / m₂, t, accuracyOfFraction (m₁ * 2 ^ d % m₂) m₂) := by
  have bits : Format.binary64.mantissaBits = 53 := rfl
  have least : Format.binary64.minExponent = -1074 := rfl
  simp only [divCore, Format.targetExponent, Float.Model.totalExponent, bits, least,
    Nat.shiftLeft_eq]
  generalize target : min (e₁ - e₂)
    (max (m₁.log2 + 1 + e₁ - (m₂.log2 + 1 + e₂) - ((53 : Nat) : Int)) (-1074)) = t
  exact ⟨(e₁ - e₂ - t).toNat, t, by omega, by omega, rfl⟩

theorem le_log2_div {m d n : Nat} (positive : 0 < m) (positive' : 0 < n)
    (bits : n.log2 + 53 ≤ m.log2 + d) : 52 ≤ (m * 2 ^ d / n).log2 := by
  have enough : 2 ^ 52 ≤ m * 2 ^ d / n := by
    rw [Nat.le_div_iff_mul_le positive']
    calc 2 ^ 52 * n
      _ ≤ 2 ^ 52 * 2 ^ (n.log2 + 1) := Nat.mul_le_mul_left _ Nat.lt_log2_self.le
      _ = 2 ^ (n.log2 + 53) := by rw [← pow_add]; congr 1; omega
      _ ≤ 2 ^ (m.log2 + d) := Nat.pow_le_pow_right two_pos bits
      _ = 2 ^ m.log2 * 2 ^ d := pow_add ..
      _ ≤ m * 2 ^ d := Nat.mul_le_mul_right _ (Nat.log2_self_le positive.ne')
  exact (Nat.le_log2 (by omega)).mpr enough

theorem div_closest (s₁ s₂ : Sign) (positive₁ : 0 < m₁) (positive₂ : 0 < m₂) :
    ∃ n k, Closest (size m₁ e₁ / size m₂ e₂) n k ∧
      UnpackedFloat.div .binary64 (.finite s₁ m₁ e₁ positive₁) (.finite s₂ m₂ e₂ positive₂) =
        unpacked (s₁ / s₂) n k := by
  obtain ⟨d, t, shift, bits, core⟩ := divCore_eq m₁ e₁ m₂ e₂
  have exponents : (2 : ℚ) ^ d * 2 ^ t = 2 ^ e₁ / 2 ^ e₂ := by
    rw [← zpow_sub₀ two_ne_zero, shift, add_comm, zpow_add₀ two_ne_zero, zpow_natCast]
  have value : ((m₁ * 2 ^ d : Nat) : ℚ) / m₂ * 2 ^ t = size m₁ e₁ / size m₂ e₂ := by
    rw [size, size, mul_div_mul_comm, ← exponents]
    push_cast
    ring
  unfold UnpackedFloat.div
  simp only [core]
  rw [← value]
  exact roundWithAccuracy_closest (locates_div (m₁ * 2 ^ d) positive₂)
    (bits.imp_left (le_log2_div positive₁ positive₂)) (s₁ / s₂)

end Operations

end ConstExpr.Binary64
