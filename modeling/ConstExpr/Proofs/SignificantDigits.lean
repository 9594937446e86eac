import ConstExpr.Number.Text
import ConstExpr.Proofs.DecimalRounding
import Mathlib.Data.Int.Log
import Mathlib.Data.List.DropRight

/-!
Rounding to significant digits. The digits of a number come from its nearest multiple of a power of
ten that leaves so many of them; when rounding carries into a further digit, the number is that
power of ten. A second rounding, to the places that the first one asks for, finds the same digits.
-/

namespace ConstExpr.Binary64

variable {v : ℚ} {m n : Nat}

theorem RoundsTo.unique (first : RoundsTo v m) (second : RoundsTo v n) : m = n := by
  by_contra different
  have parted : (1 : ℚ) ≤ |(m : ℚ) - n| := by
    have whole : 1 ≤ |(m : ℤ) - n| := Int.one_le_abs (by omega)
    exact_mod_cast whole
  have between : |(m : ℚ) - n| ≤ |(m : ℚ) - v| + |(n : ℚ) - v| := by
    have split : (m : ℚ) - n = (m - v) - (n - v) := by ring
    rw [split]
    exact abs_sub _ _
  have near := first.near
  have near' := second.near
  -- each of them is half a unit away, so both are even, and then they are further apart
  obtain ⟨i, even⟩ := first.even (by linarith)
  obtain ⟨j, even'⟩ := second.even (by linarith)
  have close : |(m : ℤ) - n| ≤ 1 := by
    have : |(m : ℚ) - n| ≤ 1 := by linarith
    exact_mod_cast this
  rw [abs_le] at close
  omega

end ConstExpr.Binary64

namespace ConstExpr.Decimal

open Binary64 (RoundsTo size)

section Fractions

variable {num den : Nat}

theorem scale_spec (num : Nat) (positive : 0 < den) (k : Int) : 0 < (scale num den k).2 ∧
    ((scale num den k).1 : ℚ) / (scale num den k).2 = num / den * 10 ^ k := by
  unfold scale
  split
  next nonneg =>
    obtain ⟨d, rfl⟩ : ∃ d : Nat, k = d := ⟨k.toNat, by omega⟩
    refine ⟨positive, ?_⟩
    simp
    ring
  next negative =>
    obtain ⟨d, rfl⟩ : ∃ d : Nat, k = -d := ⟨(-k).toNat, by omega⟩
    refine ⟨Nat.mul_pos positive (Nat.pow_pos (by decide)), ?_⟩
    simp
    field_simp

theorem fraction_spec (m : Nat) (e : Int) : 0 < (fraction m e).2 ∧
    ((fraction m e).1 : ℚ) / (fraction m e).2 = size m e := by
  unfold fraction
  split
  next nonneg =>
    obtain ⟨d, rfl⟩ : ∃ d : Nat, e = d := ⟨e.toNat, by omega⟩
    refine ⟨one_pos, ?_⟩
    simp [size]
  next negative =>
    obtain ⟨d, rfl⟩ : ∃ d : Nat, e = -d := ⟨(-e).toNat, by omega⟩
    refine ⟨Nat.pow_pos (by decide), ?_⟩
    simp [size, div_eq_mul_inv]

theorem fraction_pos {m : Nat} (positive : 0 < m) (e : Int) : 0 < (fraction m e).1 := by
  unfold fraction
  split
  next => exact Nat.mul_pos positive (Nat.pow_pos (by decide))
  next => exact positive

theorem log_eq {q : ℚ} {k : Int} (lower : 10 ^ k ≤ q) (upper : q < 10 ^ (k + 1)) :
    Int.log 10 q = k := by
  have positive : 0 < q := (zpow_pos (by norm_num) k).trans_le lower
  have low := (Int.zpow_le_iff_le_log (b := 10) (by decide) positive).mp (by exact_mod_cast lower)
  have high := (Int.lt_zpow_iff_log_lt (b := 10) (by decide) positive).mp (by exact_mod_cast upper)
  omega

theorem length_bounds {n : Nat} (positive : 0 < n) :
    10 ^ (length n - 1) ≤ n ∧ n < 10 ^ length n :=
  ⟨Binary64.le_of_length_toDigits positive,
    (Nat.length_toDigits_le_iff (by decide) Nat.length_toDigits_pos).mp le_rfl⟩

theorem magnitude_eq (positive : 0 < num) (positive' : 0 < den) :
    magnitude num den = Int.log 10 ((num : ℚ) / den) := by
  obtain ⟨low, high⟩ := length_bounds positive
  obtain ⟨low', high'⟩ := length_bounds positive'
  have some : 0 < length num := Nat.length_toDigits_pos
  have some' : 0 < length den := Nat.length_toDigits_pos
  obtain ⟨a, digits⟩ : ∃ a, length num = a + 1 := ⟨length num - 1, by omega⟩
  obtain ⟨b, digits'⟩ : ∃ b, length den = b + 1 := ⟨length den - 1, by omega⟩
  have below : (0 : ℚ) < den := by exact_mod_cast positive'
  unfold magnitude
  dsimp only
  rw [digits] at low high ⊢
  rw [digits'] at low' high' ⊢
  rw [Nat.add_sub_cancel] at low low'
  obtain ⟨guess, exponent⟩ : ∃ guess : Int, ((a + 1 : Nat) : Int) - (b + 1 : Nat) = guess :=
    ⟨_, rfl⟩
  rw [exponent]
  -- the lengths leave two exponents, and one comparison decides between them
  obtain ⟨scaled, quotient⟩ := scale_spec num positive' (-guess)
  have decided : (scale num den (-guess)).2 ≤ (scale num den (-guess)).1 ↔
      (10 : ℚ) ^ guess ≤ num / den := by
    have scaled' : (0 : ℚ) < (scale num den (-guess)).2 := by exact_mod_cast scaled
    rw [← @Nat.cast_le ℚ, ← one_le_div scaled', quotient, zpow_neg, ← div_eq_mul_inv,
      one_le_div (zpow_pos (by norm_num) guess)]
  have ten : (10 : ℚ) ≠ 0 := by norm_num
  have lower : (10 : ℚ) ^ (guess - 1) ≤ num / den := by
    rw [le_div_iff₀ below]
    calc (10 : ℚ) ^ (guess - 1) * den
      _ ≤ 10 ^ (guess - 1) * 10 ^ (b + 1) := by
        gcongr
        exact_mod_cast high'.le
      _ = 10 ^ (guess - 1 + (b + 1 : Nat)) := by rw [zpow_add₀ ten, zpow_natCast]
      _ = 10 ^ a := by
        rw [← zpow_natCast]
        congr 1
        omega
      _ ≤ num := by exact_mod_cast low
  have upper : (num : ℚ) / den < 10 ^ (guess + 1) := by
    rw [div_lt_iff₀ below]
    calc (num : ℚ)
      _ < 10 ^ (a + 1) := by exact_mod_cast high
      _ = 10 ^ (guess + 1 + b) := by
        rw [← zpow_natCast]
        congr 1
        omega
      _ = 10 ^ (guess + 1) * 10 ^ b := by rw [zpow_add₀ ten, zpow_natCast]
      _ ≤ 10 ^ (guess + 1) * den := by
        gcongr
        exact_mod_cast low'
  symm
  split
  next above => exact log_eq (decided.mp above) upper
  next under => exact log_eq lower (by rw [sub_add_cancel]; exact not_le.mp (mt decided.mpr under))

theorem roundEven_spec (num : Nat) (positive : 0 < den) :
    RoundsTo ((num : ℚ) / den) (roundEven num den) := by
  have below : (0 : ℚ) < den := by exact_mod_cast positive
  obtain ⟨floor, quotient⟩ : ∃ floor, num / den = floor := ⟨_, rfl⟩
  obtain ⟨rest, remainder⟩ : ∃ rest, num % den = rest := ⟨_, rfl⟩
  have value : (num : ℚ) / den = floor + rest / den := by
    have split : (num : ℚ) = den * floor + rest := by
      rw [← quotient, ← remainder]
      exact_mod_cast (Nat.div_add_mod num den).symm
    rw [split]
    field_simp
  have nonneg : (0 : ℚ) ≤ rest / den := by positivity
  have less : (rest : ℚ) / den < 1 := by
    rw [div_lt_one below]
    exact_mod_cast remainder ▸ Nat.mod_lt num positive
  -- the remainder is compared with half the divisor, the fraction it leaves with a half
  have under : 2 * rest < den ↔ (rest : ℚ) / den < 1 / 2 := by
    rw [div_lt_div_iff₀ below two_pos, ← @Nat.cast_lt ℚ]
    push_cast
    rw [mul_comm, one_mul]
  have above : den < 2 * rest ↔ (1 : ℚ) / 2 < rest / den := by
    rw [div_lt_div_iff₀ two_pos below, ← @Nat.cast_lt ℚ]
    push_cast
    rw [mul_comm (rest : ℚ), one_mul]
  have down : |(floor : ℚ) - num / den| = rest / den := by
    rw [value, sub_add_cancel_left, abs_neg, abs_of_nonneg nonneg]
  have up : |((floor + 1 : Nat) : ℚ) - num / den| = 1 - rest / den := by
    have split : ((floor + 1 : Nat) : ℚ) - (floor + rest / den) = 1 - rest / den := by
      push_cast
      ring
    rw [value, split, abs_of_pos (sub_pos.mpr less)]
  unfold roundEven
  rw [quotient, remainder]
  dsimp only
  simp only [under, above]
  split_ifs with nearer farther even
  · exact ⟨by linarith, fun half => by linarith⟩
  · exact ⟨by linarith, fun half => by linarith⟩
  · exact ⟨by linarith, fun _ => Nat.even_iff.mpr even⟩
  · exact ⟨by linarith, fun _ => Nat.even_iff.mpr (by omega)⟩

end Fractions

section Significant

/-- A number is rounded to some significant digits, at a tie to an even last one. -/
def RoundsToDigits (count : Nat) (q r : ℚ) : Prop :=
  ∃ n : Nat, RoundsTo (q / 10 ^ (Int.log 10 q + 1 - count)) n ∧
    r = n * 10 ^ (Int.log 10 q + 1 - count)

variable {count num den : Nat} {q r r' : ℚ}

theorem RoundsToDigits.unique (first : RoundsToDigits count q r)
    (second : RoundsToDigits count q r') : r = r' := by
  obtain ⟨m, rounds, rfl⟩ := first
  obtain ⟨n, rounds', rfl⟩ := second
  rw [rounds.unique rounds']

theorem bounds_of_roundsTo {v : ℚ} {a b n : Nat} (rounds : RoundsTo v n) (low : a ≤ v)
    (high : v < b) : a ≤ n ∧ n ≤ b := by
  obtain ⟨under, above⟩ := abs_le.mp rounds.near
  have low' : (a : ℚ) < (n + 1 : Nat) := by
    push_cast
    linarith
  have high' : (n : ℚ) < (b + 1 : Nat) := by
    push_cast
    linarith
  constructor
  · exact Nat.lt_succ_iff.mp (by exact_mod_cast low')
  · exact Nat.lt_succ_iff.mp (by exact_mod_cast high')

theorem scaled_bounds (positive : 0 < q) (some : 0 < count) :
    ((10 ^ (count - 1) : Nat) : ℚ) ≤ q * 10 ^ (count - 1 - Int.log 10 q) ∧
      q * 10 ^ (count - 1 - Int.log 10 q) < (10 ^ count : Nat) := by
  have ten : (10 : ℚ) ≠ 0 := by norm_num
  have unit : (0 : ℚ) < 10 ^ (count - 1 - Int.log 10 q) := zpow_pos (by norm_num) _
  have low : (10 : ℚ) ^ Int.log 10 q ≤ q := by
    exact_mod_cast Int.zpow_log_le_self (b := 10) (by decide) positive
  have high : q < (10 : ℚ) ^ (Int.log 10 q + 1) := by
    exact_mod_cast Int.lt_zpow_succ_log_self (b := 10) (by decide) q
  push_cast
  constructor
  · calc (10 : ℚ) ^ (count - 1)
      _ = 10 ^ Int.log 10 q * 10 ^ (count - 1 - Int.log 10 q) := by
        rw [← zpow_add₀ ten, ← zpow_natCast]
        congr 1
        omega
      _ ≤ q * 10 ^ (count - 1 - Int.log 10 q) := mul_le_mul_of_nonneg_right low unit.le
  · calc q * (10 : ℚ) ^ (count - 1 - Int.log 10 q)
      _ < 10 ^ (Int.log 10 q + 1) * 10 ^ (count - 1 - Int.log 10 q) :=
        mul_lt_mul_of_pos_right high unit
      _ = 10 ^ count := by
        rw [← zpow_add₀ ten, ← zpow_natCast]
        congr 1
        omega

def scientific (count num den : Nat) : Nat × Int :=
  let exponent := magnitude num den
  let (n, d) := scale num den (count - 1 - exponent)
  let rounded := roundEven n d
  if rounded = 10 ^ count then (10 ^ (count - 1), exponent + 1) else (rounded, exponent)

/-- An integer of so many digits that a number is rounded to when its first digit stands at a power
of ten. Rounding at the place of the last digit gives the same integer. -/
structure Leads (count : Nat) (q : ℚ) (n : Nat) (exponent : Int) : Prop where
  least : 10 ^ (count - 1) ≤ n
  below : n < 10 ^ count
  place : RoundsTo (q * 10 ^ (count - 1 - exponent)) n
  value : RoundsToDigits count q (n * 10 ^ (exponent + 1 - count))

theorem leads_scientific (some : 0 < count) (positive : 0 < num) (positive' : 0 < den) :
    Leads count (num / den) (scientific count num den).1 (scientific count num den).2 := by
  have positive'' : (0 : ℚ) < num / den := by positivity
  obtain ⟨low, high⟩ := scaled_bounds positive'' some
  obtain ⟨k, log⟩ : ∃ k, Int.log 10 ((num : ℚ) / den) = k := ⟨_, rfl⟩
  have exponent : magnitude num den = k := (magnitude_eq positive positive').trans log
  unfold scientific
  dsimp only
  rw [exponent]
  rw [log] at low high
  obtain ⟨scaled, quotient⟩ := scale_spec num positive' (count - 1 - k)
  have rounds := roundEven_spec (scale num den (count - 1 - k)).1 scaled
  rw [quotient] at rounds
  generalize roundEven _ _ = n at rounds ⊢
  obtain ⟨least, most⟩ := bounds_of_roundsTo rounds low high
  have ten : (10 : ℚ) ≠ 0 := by norm_num
  have place : (num / den : ℚ) / 10 ^ (k + 1 - count) = num / den * 10 ^ (count - 1 - k) := by
    rw [div_eq_mul_inv, ← zpow_neg]
    congr 2
    ring
  split
  next carried =>
    have power : (10 : ℚ) ^ count = 10 * 10 ^ (count - 1) := by
      rw [← pow_succ', Nat.sub_add_cancel some]
    refine ⟨le_rfl, Nat.pow_lt_pow_right (by decide) (by omega), ?_, n, ?_, ?_⟩
    · -- the distance is a tenth of what it was
      apply Binary64.roundsTo_of_lt
      have finer : (num / den : ℚ) * 10 ^ (count - 1 - (k + 1)) =
          num / den * 10 ^ (count - 1 - k) / 10 := by
        rw [← sub_sub, zpow_sub_one₀ ten, ← div_eq_mul_inv _ (10 : ℚ), mul_div_assoc]
      have near := rounds.near
      rw [carried] at near
      push_cast at near ⊢
      rw [power] at near
      rw [finer]
      have tenth : (10 : ℚ) ^ (count - 1) - num / den * 10 ^ (count - 1 - k) / 10 =
          (10 * 10 ^ (count - 1) - num / den * 10 ^ (count - 1 - k)) / 10 := by ring
      rw [tenth, abs_div, abs_of_pos (by norm_num : (0 : ℚ) < 10)]
      linarith
    · rw [log, place]
      exact rounds
    · have next : (10 : ℚ) ^ (k + 1 + 1 - count) = 10 * 10 ^ (k + 1 - count) := by
        rw [← zpow_one_add₀ ten]
        congr 1
        ring
      rw [log, carried]
      push_cast
      rw [next, power]
      ring
  next kept =>
    refine ⟨least, lt_of_le_of_ne most kept, rounds, n, ?_, ?_⟩
    · rw [log, place]
      exact rounds
    · rw [log]

end Significant

section Digits

variable {count num den n : Nat}

def stripped (digits : List Char) : List Char := digits.rdropWhile (· == '0')

theorem toDigits_ten_mul (positive : 0 < n) :
    Nat.toDigits 10 (10 * n) = Nat.toDigits 10 n ++ ['0'] := by
  rw [← Nat.toDigits_zero 10, Nat.toDigits_append_toDigits (by decide) positive (by decide),
    Nat.add_zero]

theorem length_toDigits (some : 0 < count) (least : 10 ^ (count - 1) ≤ n)
    (below : n < 10 ^ count) : (Nat.toDigits 10 n).length = count := by
  apply le_antisymm
  · exact (Nat.length_toDigits_le_iff (by decide) some).mpr below
  · rcases Nat.eq_zero_or_pos (count - 1) with one | more
    · have := Nat.length_toDigits_pos (b := 10) (n := n)
      omega
    · by_contra fewer
      exact absurd ((Nat.length_toDigits_le_iff (by decide) more).mp (by omega)) least.not_gt

theorem significant_eq (some : 0 < count) (positive : 0 < num) (positive' : 0 < den) :
    significant count num den = ⟨stripped (Nat.toDigits 10 (scientific count num den).1),
      (scientific count num den).2⟩ := by
  have leads := leads_scientific some positive positive'
  revert leads
  unfold significant scientific
  dsimp only
  generalize roundEven _ _ = n
  intro leads
  split at leads
  next carried =>
    -- one digit more, but it is a zero and is stripped
    have power : 10 ^ count = 10 * 10 ^ (count - 1) := by
      rw [← pow_succ', Nat.sub_add_cancel some]
    have digits : Nat.toDigits 10 n = Nat.toDigits 10 (10 ^ (count - 1)) ++ ['0'] := by
      rw [carried, power, toDigits_ten_mul (Nat.pow_pos (by decide))]
    have width := length_toDigits some leads.least leads.below
    have zero : stripped (Nat.toDigits 10 (10 ^ (count - 1)) ++ ['0']) =
        stripped (Nat.toDigits 10 (10 ^ (count - 1))) := List.rdropWhile_concat_pos _ _ _ rfl
    have longer : ((count + 1 : Nat) : Int) - count = 1 := by omega
    rw [if_pos carried, Digits.ofNat, digits, List.length_append, width, List.length_singleton,
      longer, ← zero]
    rfl
  next kept =>
    have width := length_toDigits some leads.least leads.below
    rw [if_neg kept, Digits.ofNat, width, sub_self, add_zero]
    rfl

def lastDigits : Nat → Nat → List Char
  | 0, _ => []
  | count + 1, n => lastDigits count (n / 10) ++ [Nat.digitChar (n % 10)]

theorem length_lastDigits (count n : Nat) : (lastDigits count n).length = count := by
  induction count generalizing n with
  | zero => rfl
  | succ count ih => simp [lastDigits, ih]

theorem toDigits_split (long : 10 ^ count ≤ n) :
    Nat.toDigits 10 n = Nat.toDigits 10 (n / 10 ^ count) ++ lastDigits count n := by
  induction count generalizing n with
  | zero => simp [lastDigits]
  | succ count ih =>
    have shorter : 10 ^ count ≤ n / 10 := by
      rw [Nat.le_div_iff_mul_le (by decide), ← pow_succ]
      exact long
    have ten : 10 ≤ n := (Nat.le_self_pow (by omega) 10).trans long
    rw [Nat.toDigits_of_base_le (by decide) ten, ih shorter, Nat.div_div_eq_div_mul, ← pow_succ',
      List.append_assoc]
    rfl

theorem toDigits_places {before : Nat} (long : 10 ^ count ≤ n)
    (width : (Nat.toDigits 10 n).length = before + count) :
    Nat.toDigits 10 (n / 10 ^ count) = (Nat.toDigits 10 n).take before ∧
      lastDigits count n = (Nat.toDigits 10 n).drop before := by
  have split := toDigits_split long
  have front : (Nat.toDigits 10 (n / 10 ^ count)).length = before := by
    rw [split, List.length_append, length_lastDigits] at width
    exact Nat.add_right_cancel width
  constructor
  · rw [split, List.take_left' front]
  · rw [split, List.drop_left' front]

theorem lastDigits_long (more n : Nat) :
    lastDigits (more + (Nat.toDigits 10 n).length) n =
      List.replicate more '0' ++ Nat.toDigits 10 n := by
  have zeros : ∀ count, lastDigits count 0 = List.replicate count '0' := by
    intro count
    induction count with
    | zero => rfl
    | succ count ih => rw [lastDigits, Nat.zero_div, ih, List.replicate_succ']; rfl
  induction n using Nat.strong_induction_on with
  | _ n ih =>
    by_cases small : n < 10
    · rw [Nat.toDigits_of_lt_base small, List.length_singleton, lastDigits,
        Nat.div_eq_of_lt small, zeros, Nat.mod_eq_of_lt small]
    · rw [Nat.toDigits_of_base_le (by decide) (by omega), List.length_append, ← Nat.add_assoc,
        List.length_singleton, lastDigits, ih (n / 10) (by omega), List.append_assoc]

end Digits

end ConstExpr.Decimal
