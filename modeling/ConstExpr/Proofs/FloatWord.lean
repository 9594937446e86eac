import ConstExpr.Proofs.FloatValue
import ConstExpr.Proofs.Shift

/-!
Floats as words. The word of a float is its integer part modulo 2^64. Computed with floats it takes
the integer part, the rest of a division by 2^64, a sum or a difference with 2^64 and a clamped
conversion; none of these is rounded, since a float beyond the range of words is a multiple of 2^11
and stays one.
-/

namespace ConstExpr.Binary64

open Float.Model (Format UnpackedFloat)
open Float.Model.UnpackedFloat

section Truncation

/-- The integer part of a number, which is nearer to zero. -/
def towardZero (q : ℚ) : ℤ := if 0 ≤ q then ⌊q⌋ else ⌈q⌉

variable {q : ℚ}

theorem towardZero_of_nonneg (nonneg : 0 ≤ q) : towardZero q = ⌊q⌋ := if_pos nonneg

theorem towardZero_neg (q : ℚ) : towardZero (-q) = -towardZero q := by
  rcases lt_trichotomy q 0 with negative | zero | positive
  · rw [towardZero_of_nonneg (neg_nonneg.mpr negative.le), Int.floor_neg, towardZero,
      if_neg negative.not_ge]
  · rw [zero, neg_zero]
    rfl
  · rw [towardZero_of_nonneg positive.le, towardZero, if_neg (by simpa using positive),
      Int.ceil_neg]

theorem towardZero_intCast (n : ℤ) : towardZero n = n := by
  simp [towardZero]

theorem abs_towardZero (q : ℚ) : |towardZero q| = ⌊|q|⌋ := by
  rcases le_total 0 q with nonneg | nonpos
  · rw [abs_of_nonneg nonneg, towardZero_of_nonneg nonneg,
      abs_of_nonneg (Int.floor_nonneg.mpr nonneg)]
  · have nonneg : 0 ≤ -q := neg_nonneg.mpr nonpos
    rw [← abs_neg, ← towardZero_neg, ← abs_neg q, abs_of_nonneg nonneg,
      towardZero_of_nonneg nonneg, abs_of_nonneg (Int.floor_nonneg.mpr nonneg)]

theorem floor_size (m : Nat) (e : Int) : ⌊size m e⌋ =
    if 0 ≤ e then ((m * Nat.pow 2 e.toNat : Nat) : Int)
    else ((m / Nat.pow 2 (-e).toNat : Nat) : Int) := by
  split
  next nonneg =>
    obtain ⟨d, rfl⟩ : ∃ d : Nat, e = d := ⟨e.toNat, by omega⟩
    have whole : size m d = ((m * Nat.pow 2 d : Nat) : ℚ) := by
      simp [size]
    rw [whole, Int.floor_natCast, Int.toNat_natCast]
  next negative =>
    have quotient : size m e = (m : ℚ) / (Nat.pow 2 (-e).toNat : Nat) := by
      obtain ⟨d, rfl⟩ : ∃ d : Nat, e = -d := ⟨(-e).toNat, by omega⟩
      rw [size, zpow_neg, zpow_natCast, neg_neg, Int.toNat_natCast]
      simp [div_eq_mul_inv]
    rw [quotient, Rat.floor_natCast_div_natCast]
    norm_cast

theorem truncate_eq (s : Bool) (m : Nat) (e : Int) :
    truncate s m e = towardZero (if s then -size m e else size m e) := by
  have whole : truncate false m e = ⌊size m e⌋ := by
    rw [floor_size]
    push_cast
    rfl
  cases s with
  | false => exact whole.trans (towardZero_of_nonneg (size_nonneg m e)).symm
  | true =>
    have negative : truncate true m e = -truncate false m e := rfl
    rw [negative, whole, if_pos rfl, towardZero_neg, towardZero_of_nonneg (size_nonneg m e)]

end Truncation

section Steps

def rounded (negative : Bool) (n e : Int) : Float :=
  .ofModel (.pack (UnpackedFloat.normalize .binary64 n e
    (if negative then .negative else .positive)))

def notANumber : Float := .ofModel (.pack .notANumber)

def integerPart (x : Float) : Float :=
  match read x with
  | .finite negative m e => rounded negative (truncate negative m e) 0
  | _ => x

def remainder (x y : Float) : Float :=
  match read x, read y with
  | .finite negative m e, .finite _ n k =>
    if n = 0 then notANumber
    else
      let unit := min e k
      let rest : Nat := (m * 2 ^ (e - unit).toNat) % (n * 2 ^ (k - unit).toNat)
      rounded negative (if negative then -rest else rest) unit
  | .finite .., .infinite _ => x
  | _, _ => notANumber

def lowestRemainder (x y : Float) : Float :=
  let rest := remainder x y
  if rest < 0.0 then rest + y.abs else rest

/-- The integer part as a word, the nearest word if it is out of range. -/
def clamp (x : Float) : Int64 := x.toModel.toInt64

def wordHalf : Float := 9.223372036854775808e18

def wordCount : Float := 18446744073709551616.0

/-- The word of a float, computed with floats. -/
def wrap (x : Float) : Int64 :=
  if !x.isFinite then 0
  else if -wordHalf ≤ x ∧ x < wordHalf then clamp x
  else
    let wrapped := lowestRemainder (integerPart x) wordCount
    if wordHalf ≤ wrapped then clamp (wrapped - wordCount) else clamp wrapped

variable {x y : Float} {p q : ℚ} {n : ℤ}

theorem signed_size (s : Bool) (m : Nat) (e : Int) :
    ((if s then -m else m : Int) : ℚ) * 2 ^ e = if s then -size m e else size m e := by
  cases s with
  | false => rfl
  | true =>
    rw [if_pos rfl, if_pos rfl, Int.cast_neg, neg_mul]
    rfl

theorem onGrid_of_value (found : value x = some q) : OnGrid q := by
  obtain ⟨s, m, e, reading, same⟩ := exists_read_of_value found
  obtain ⟨canonical, small⟩ := canonical_of_read reading
  refine ⟨?_, m, e, canonical.below, canonical.least, (abs_eq_size same).symm⟩
  have unit := topHalf_pos
  have greatest := size_le_size (Nat.le_sub_one_of_lt canonical.below) small
  rw [size_971] at greatest
  push_cast at greatest
  rw [abs_eq_size same, overflow_eq]
  linarith

theorem value_rounded {e : Int} (negative : Bool) (exact : OnGrid (n * (2 : ℚ) ^ e)) :
    value (rounded negative n e) = some ((n : ℚ) * 2 ^ e) :=
  value_normalize _ exact

theorem onGrid_towardZero (found : value x = some q) : OnGrid (towardZero q : ℚ) := by
  obtain ⟨s, m, e, reading, same⟩ := exists_read_of_value found
  obtain ⟨canonical, -⟩ := canonical_of_read reading
  have magnitude : |(towardZero q : ℚ)| = (⌊size m e⌋ : ℤ) := by
    rw [← Int.cast_abs, abs_towardZero, abs_eq_size same]
  constructor
  · rw [magnitude, ← abs_eq_size same]
    exact (Int.floor_le _).trans_lt (onGrid_of_value found).below
  · rw [magnitude, floor_size]
    split
    next nonneg =>
      obtain ⟨d, rfl⟩ : ∃ d : Nat, e = d := ⟨e.toNat, by omega⟩
      exact ⟨m, d, canonical.below, canonical.least, by simp [size]⟩
    next =>
      refine ⟨m / Nat.pow 2 (-e).toNat, 0, (Nat.div_le_self m _).trans_lt canonical.below,
        by decide, ?_⟩
      rw [size, zpow_zero, mul_one, Int.cast_natCast]

theorem value_integerPart (found : value x = some q) :
    value (integerPart x) = some (towardZero q : ℚ) := by
  obtain ⟨s, m, e, reading, same⟩ := exists_read_of_value found
  have integer : truncate s m e = towardZero q := by rw [truncate_eq, same]
  have whole : ((towardZero q : ℤ) : ℚ) * 2 ^ (0 : ℤ) = towardZero q := by
    rw [zpow_zero, mul_one]
  have exact := onGrid_towardZero found
  rw [← whole] at exact
  unfold integerPart
  rw [reading]
  dsimp only
  rw [integer, value_rounded s exact, whole]

theorem size_shift {m : Nat} {e unit : Int} (lower : unit ≤ e) :
    size (m * 2 ^ (e - unit).toNat) unit = size m e := by
  obtain ⟨d, rfl⟩ : ∃ d : Nat, e = unit + d := ⟨(e - unit).toNat, by omega⟩
  have count : (unit + d - unit).toNat = d := by omega
  rw [count, size, size, zpow_add₀ two_ne_zero, zpow_natCast]
  push_cast
  ring

theorem towardZero_size_div {a b : Nat} (some : 0 < b) (unit : Int) :
    towardZero (size a unit / size b unit) = (a / b : Nat) ∧
      size a unit - size b unit * (a / b : Nat) = size (a % b) unit := by
  have positive : (2 : ℚ) ^ unit ≠ 0 := (zpow_pos two_pos unit).ne'
  constructor
  · have quotient : size a unit / size b unit = (a : ℚ) / b := mul_div_mul_right _ _ positive
    rw [quotient, towardZero_of_nonneg (by positivity), Rat.floor_natCast_div_natCast]
    norm_cast
  · have split : (a : ℚ) = b * (a / b : Nat) + (a % b : Nat) := by
      exact_mod_cast (Nat.div_add_mod a b).symm
    rw [size, size, size]
    linear_combination (2 : ℚ) ^ unit * split

/-- A remainder has no more bits than the divisor, and none below those of the dividend. -/
theorem remainder_lt {m n : Nat} {e k : Int} (short : m < 2 ^ 53) (short' : n < 2 ^ 53)
    (some : 0 < n) :
    (m * 2 ^ (e - min e k).toNat) % (n * 2 ^ (k - min e k).toNat) < 2 ^ 53 := by
  rcases le_total e k with finer | coarser
  · rw [min_eq_left finer, sub_self, Int.toNat_zero, pow_zero, mul_one]
    exact (Nat.mod_le m _).trans_lt short
  · rw [min_eq_right coarser, sub_self, Int.toNat_zero, pow_zero, mul_one]
    exact (Nat.mod_lt _ some).trans short'

theorem value_remainder (found : value x = some p) (found' : value y = some q) (some : q ≠ 0) :
    value (remainder x y) = .some (p - q * towardZero (p / q)) := by
  obtain ⟨s, m, e, reading, same⟩ := exists_read_of_value found
  obtain ⟨t, n, k, reading', same'⟩ := exists_read_of_value found'
  obtain ⟨canonical, -⟩ := canonical_of_read reading
  obtain ⟨canonical', -⟩ := canonical_of_read reading'
  have positive : 0 < n := by
    by_contra none
    have zero : n = 0 := by omega
    rw [zero, size_zero, neg_zero, ite_self] at same'
    exact some same'
  have below := (onGrid_of_value found).below
  rw [abs_eq_size same] at below
  obtain ⟨a, dividend⟩ : ∃ a, m * 2 ^ (e - min e k).toNat = a := ⟨_, rfl⟩
  obtain ⟨b, divisor⟩ : ∃ b, n * 2 ^ (k - min e k).toNat = b := ⟨_, rfl⟩
  have short := remainder_lt (e := e) (k := k) canonical.below canonical'.below positive
  rw [← size_shift (min_le_left e k), dividend] at same below
  rw [← size_shift (min_le_right e k), divisor] at same'
  rw [dividend, divisor] at short
  obtain ⟨quotient, rest⟩ := towardZero_size_div (a := a)
    (divisor ▸ Nat.mul_pos positive (by positivity) : 0 < b) (min e k)
  have whole : size a (min e k) -
      size b (min e k) * towardZero (size a (min e k) / size b (min e k)) =
        size (a % b) (min e k) := by
    rw [quotient, Int.cast_natCast, rest]
  -- the divisor's sign does not matter, and the dividend's is that of the remainder
  have value : p - q * towardZero (p / q) =
      ((if s then -(a % b : Nat) else (a % b : Nat) : Int) : ℚ) * 2 ^ min e k := by
    rw [signed_size, same, same', ← whole]
    cases s <;> cases t <;>
      simp only [Bool.false_eq_true, if_true, if_false, neg_div, div_neg, towardZero_neg,
        Int.cast_neg, neg_mul, mul_neg] <;> ring
  have magnitude := abs_eq_size (signed_size s (a % b) (min e k))
  have exact : OnGrid (((if s then -(a % b : Nat) else (a % b : Nat) : Int) : ℚ) *
      2 ^ min e k) := by
    constructor
    · rw [magnitude]
      exact (size_le_size (Nat.mod_le a b) le_rfl).trans_lt below
    · exact ⟨a % b, min e k, short, le_min canonical.least canonical'.least, magnitude.symm⟩
  rw [value]
  unfold remainder
  rw [reading, reading']
  dsimp only
  rw [if_neg positive.ne', dividend, divisor]
  exact value_rounded s exact

theorem Locates.floor {em : ExtendedMantissa} {v : ℚ} (located : Locates em v) :
    ⌊v⌋ = em.mantissa := by
  obtain ⟨rest, least, most, value, -⟩ := located
  have bit : (em.roundBit.toNat : ℚ) ≤ 1 := by exact_mod_cast Bool.toNat_le em.roundBit
  have bit' : (0 : ℚ) ≤ em.roundBit.toNat := by positivity
  rw [Int.floor_eq_iff]
  constructor
  · push_cast
    linarith
  · push_cast
    linarith

theorem roundToInt_eq (s : Sign) (m : Nat) (e : Int) :
    roundToInt s m e = s.apply ⌊size m e⌋.toNat := by
  have shifted := ((locates_exact (m <<< (e - 0).toNat)).shiftRight
    (0 - (e - (e - 0).toNat)).toNat).floor
  have value : ((m <<< (e - 0).toNat : Nat) : ℚ) / 2 ^ (0 - (e - (e - 0).toNat)).toNat =
      size m e := by
    rcases le_total 0 e with nonneg | negative
    · obtain ⟨d, rfl⟩ : ∃ d : Nat, e = d := ⟨e.toNat, by omega⟩
      simp [size, Nat.shiftLeft_eq]
    · obtain ⟨d, rfl⟩ : ∃ d : Nat, e = -d := ⟨(-e).toNat, by omega⟩
      simp [size, div_eq_mul_inv]
  rw [← value, shifted, Int.toNat_natCast]
  rfl

theorem toInt_unpack (found : value x = some q) (least greatest : Int) :
    x.toModel.unpack.toInt least greatest = towardZero q := by
  rcases unpack_cases found with ⟨s, u, rfl⟩ | ⟨s, m, e, positive, u, -, rfl⟩
  · rw [u]
    rfl
  · have nonneg := size_nonneg m e
    have whole : ((⌊size m e⌋.toNat : Nat) : Int) = towardZero (size m e) := by
      rw [Int.toNat_of_nonneg (Int.floor_nonneg.mpr nonneg), towardZero_of_nonneg nonneg]
    rw [u]
    show roundToInt s m e = _
    rw [roundToInt_eq]
    cases s with
    | positive => exact whole
    | negative => exact (congrArg (- ·) whole).trans (towardZero_neg _).symm

theorem toInt_clamp (found : value x = some q) (least : -2 ^ 63 ≤ towardZero q)
    (greatest : towardZero q < 2 ^ 63) : (clamp x).toInt = towardZero q := by
  show (Int64.ofIntClamp (x.toModel.unpack.toInt _ _)).toInt = _
  rw [toInt_unpack found]
  exact Int64.toInt_ofIntClamp least (Int.le_of_lt_add_one greatest)

theorem isFinite_iff : x.isFinite ↔ ∃ q, value x = some q := by
  have status : x.isFinite = x.toModel.unpack.isFinite := rfl
  rw [status, value_eq]
  cases u : x.toModel.unpack with
  | notANumber => exact ⟨nofun, fun ⟨_, found⟩ => by cases found⟩
  | infinity s => exact ⟨nofun, fun ⟨_, found⟩ => by cases found⟩
  | zero s => exact ⟨fun _ => ⟨_, rfl⟩, fun _ => rfl⟩
  | finite s m e positive => exact ⟨fun _ => ⟨_, rfl⟩, fun _ => rfl⟩

end Steps

section Constants

theorem value_wordHalf : value wordHalf = some (2 ^ 63) := by
  have reading : read wordHalf = .finite false (2 ^ 52) 11 := by decide +kernel
  rw [value, reading, Reading.value]
  norm_num [size]

theorem value_neg_wordHalf : value (-wordHalf) = some (-2 ^ 63) := by
  have reading : read (-wordHalf) = .finite true (2 ^ 52) 11 := by decide +kernel
  rw [value, reading, Reading.value]
  norm_num [size]

theorem value_wordCount : value wordCount = some (2 ^ 64) := by
  have reading : read wordCount = .finite false (2 ^ 52) 12 := by decide +kernel
  rw [value, reading, Reading.value]
  norm_num [size]

theorem abs_wordCount : wordCount.abs = wordCount := rfl

theorem value_zero : value 0.0 = some 0 := by
  have reading : read 0.0 = .finite false 0 (-1074) := by decide +kernel
  rw [value, reading, Reading.value]
  norm_num [size]

end Constants

section Word

variable {x : Float} {q : ℚ} {n : ℤ}

theorem eq_multiple_of_large (found : value x = some q) (large : 2 ^ 63 ≤ |q|) :
    ∃ n : ℤ, q = n ∧ 2 ^ 11 ∣ n := by
  obtain ⟨s, m, e, reading, same⟩ := exists_read_of_value found
  have short := (canonical_of_read reading).1.below
  have high : 11 ≤ e := by
    by_contra low
    have bound : size m e < 2 ^ 63 := by
      calc size m e
        _ ≤ size m 10 := size_le_size le_rfl (by omega)
        _ < 2 ^ 53 * 2 ^ (10 : ℤ) :=
          mul_lt_mul_of_pos_right (by exact_mod_cast short) (by positivity)
        _ = 2 ^ 63 := by norm_num
    rw [abs_eq_size same] at large
    exact absurd bound large.not_gt
  obtain ⟨d, rfl⟩ : ∃ d : Nat, e = 11 + d := ⟨(e - 11).toNat, by omega⟩
  have whole : size m (11 + d) = ((m * 2 ^ d * 2 ^ 11 : ℤ) : ℚ) := by
    rw [size, zpow_add₀ two_ne_zero, zpow_natCast]
    push_cast
    ring
  cases s with
  | false => exact ⟨_, same.trans whole, dvd_mul_left _ _⟩
  | true =>
    refine ⟨-(m * 2 ^ d * 2 ^ 11), ?_, (dvd_mul_left _ _).neg_right⟩
    rw [same, if_pos rfl, whole, Int.cast_neg]

theorem onGrid_of_dvd (multiple : 2 ^ 11 ∣ n) (small : |n| < 2 ^ 64) : OnGrid (n : ℚ) := by
  have magnitude : |(n : ℚ)| = (|n| : ℤ) := Int.cast_abs.symm
  obtain ⟨factor, rfl⟩ := multiple
  rw [abs_mul] at small
  have short : |factor| < 2 ^ 53 := by
    rw [abs_of_pos (by decide : (0 : ℤ) < 2 ^ 11)] at small
    omega
  constructor
  · have limit : (2 : ℚ) ^ 64 < overflow := by
      have half : (2 : ℚ) ^ 64 < topHalf := pow_lt_pow_right₀ one_lt_two (by decide)
      rw [overflow_eq]
      linarith [topHalf_pos]
    rw [magnitude, abs_mul]
    exact lt_trans (by exact_mod_cast small) limit
  · have mantissa : factor.natAbs < 2 ^ 53 := by
      rw [Int.abs_eq_natAbs] at short
      exact_mod_cast short
    refine ⟨factor.natAbs, 11, mantissa, by decide, ?_⟩
    rw [magnitude, abs_mul, size, Nat.cast_natAbs]
    push_cast
    norm_num
    ring

/-- What each step makes of a float beyond the range of words, in numbers: nothing is rounded, and
the last conversion does not clamp. -/
structure ExactSteps (x : Float) (q : ℚ) : Prop where
  part : value (integerPart x) = some (towardZero q : ℚ)
  rest : value (remainder (integerPart x) wordCount) = some ((towardZero q).tmod (2 ^ 64) : ℚ)
  lifted : value (lowestRemainder (integerPart x) wordCount) = some (towardZero q % 2 ^ 64 : ℤ)
  lowered : 2 ^ 63 ≤ towardZero q % 2 ^ 64 →
    value (lowestRemainder (integerPart x) wordCount - wordCount) =
      some (towardZero q % 2 ^ 64 - 2 ^ 64 : ℤ)
  word : (wrap x).toInt =
    if 2 ^ 63 ≤ towardZero q % 2 ^ 64 then towardZero q % 2 ^ 64 - 2 ^ 64
    else towardZero q % 2 ^ 64

theorem towardZero_div (n : ℤ) (d : Nat) : towardZero ((n : ℚ) / d) = n.tdiv d := by
  rcases le_total 0 n with nonneg | nonpos
  · have quotient : (0 : ℚ) ≤ n / d := div_nonneg (by exact_mod_cast nonneg) (Nat.cast_nonneg d)
    rw [towardZero_of_nonneg quotient, Rat.floor_intCast_div_natCast,
      Int.tdiv_eq_ediv_of_nonneg nonneg]
  · obtain ⟨m, rfl⟩ : ∃ m : ℤ, n = -m := ⟨-n, (neg_neg n).symm⟩
    have nonneg : 0 ≤ m := neg_nonpos.mp nonpos
    have quotient : (0 : ℚ) ≤ m / d := div_nonneg (by exact_mod_cast nonneg) (Nat.cast_nonneg d)
    rw [Int.cast_neg, neg_div, towardZero_neg, towardZero_of_nonneg quotient,
      Rat.floor_intCast_div_natCast, Int.neg_tdiv, Int.tdiv_eq_ediv_of_nonneg nonneg]

theorem value_remainder_wordCount (found : value x = some (n : ℚ)) :
    value (remainder x wordCount) = some (n.tmod (2 ^ 64) : ℚ) := by
  have quotient : towardZero ((n : ℚ) / 2 ^ 64) = n.tdiv (2 ^ 64) := by
    have := towardZero_div n (2 ^ 64)
    push_cast at this
    exact this
  rw [value_remainder found value_wordCount (by positivity), quotient, Int.tmod_def]
  push_cast
  rfl

theorem lift_tmod (n : ℤ) : (if n.tmod (2 ^ 64) < 0 then n.tmod (2 ^ 64) + 2 ^ 64
    else n.tmod (2 ^ 64)) = n % 2 ^ 64 := by
  have apart : n.tmod (2 ^ 64) =
      n % 2 ^ 64 - ((if 0 ≤ n ∨ 2 ^ 64 ∣ n then 0 else (2 ^ 64 : ℤ).natAbs : Nat) : ℤ) :=
    Int.tmod_eq_emod
  have size : ((2 ^ 64 : ℤ).natAbs : ℤ) = 2 ^ 64 := rfl
  split at apart <;> split <;> omega

theorem value_lowestRemainder (found : value x = some (n : ℚ)) (multiple : 2 ^ 11 ∣ n) :
    value (lowestRemainder x wordCount) = some ((n % 2 ^ 64 : ℤ) : ℚ) := by
  have rest := value_remainder_wordCount found
  have order := lt_iff_value rest value_zero
  have lifted := lift_tmod n
  unfold lowestRemainder
  dsimp only
  by_cases negative : n.tmod (2 ^ 64) < 0
  -- the sum is nearer to zero than 2^64, so it is on the grid
  · rw [if_pos negative] at lifted
    have sum : (n.tmod (2 ^ 64) : ℚ) + 2 ^ 64 = ((n % 2 ^ 64 : ℤ) : ℚ) := by
      rw [← lifted]
      push_cast
      rfl
    have exact : OnGrid ((n % 2 ^ 64 : ℤ) : ℚ) :=
      onGrid_of_dvd (by omega) (abs_lt.mpr (by omega))
    rw [if_pos (order.mpr (by exact_mod_cast negative)), abs_wordCount, ← sum]
    exact value_add rest value_wordCount (sum ▸ exact)
  · rw [if_neg negative] at lifted
    rw [if_neg (fun below => negative (by exact_mod_cast order.mp below)), ← lifted]
    exact rest

theorem value_lowered (found : value x = some ((n % 2 ^ 64 : ℤ) : ℚ)) (multiple : 2 ^ 11 ∣ n)
    (high : 2 ^ 63 ≤ n % 2 ^ 64) :
    value (x - wordCount) = some ((n % 2 ^ 64 - 2 ^ 64 : ℤ) : ℚ) := by
  have difference : ((n % 2 ^ 64 : ℤ) : ℚ) - 2 ^ 64 = ((n % 2 ^ 64 - 2 ^ 64 : ℤ) : ℚ) := by
    push_cast
    rfl
  have exact : OnGrid ((n % 2 ^ 64 - 2 ^ 64 : ℤ) : ℚ) :=
    onGrid_of_dvd (by omega) (abs_lt.mpr (by omega))
  rw [← difference]
  exact value_sub found value_wordCount (difference ▸ exact)

theorem inRange_iff (found : value x = some q) :
    -wordHalf ≤ x ∧ x < wordHalf ↔ -2 ^ 63 ≤ q ∧ q < 2 ^ 63 := by
  rw [le_iff_value value_neg_wordHalf found, lt_iff_value found value_wordHalf]

theorem finite_of_value (found : value x = some q) : (!x.isFinite) = false := by
  rw [isFinite_iff.mpr ⟨q, found⟩]
  rfl

theorem exactSteps (found : value x = some q) (large : ¬(-2 ^ 63 ≤ q ∧ q < 2 ^ 63)) :
    ExactSteps x q := by
  have far : 2 ^ 63 ≤ |q| := by
    by_contra near
    exact large ⟨(abs_lt.mp (not_le.mp near)).1.le, (abs_lt.mp (not_le.mp near)).2⟩
  -- out there the spacing of floats is at least 2^11, and all that follows is a multiple of it
  obtain ⟨n, whole, multiple⟩ := eq_multiple_of_large found far
  have integer : towardZero q = n := by rw [whole, towardZero_intCast]
  have part := value_integerPart found
  rw [integer] at part
  have lifted := value_lowestRemainder part multiple
  have half := le_iff_value value_wordHalf lifted
  have word : (wrap x).toInt =
      if 2 ^ 63 ≤ n % 2 ^ 64 then n % 2 ^ 64 - 2 ^ 64 else n % 2 ^ 64 := by
    unfold wrap
    rw [finite_of_value found, if_neg Bool.false_ne_true, if_neg (mt (inRange_iff found).mp large)]
    dsimp only
    by_cases high : 2 ^ 63 ≤ n % 2 ^ 64
    · have cast := toInt_clamp (value_lowered lifted multiple high)
      rw [towardZero_intCast] at cast
      rw [if_pos (half.mpr (by exact_mod_cast high)), if_pos high]
      exact cast (by omega) (by omega)
    · have cast := toInt_clamp lifted
      rw [towardZero_intCast] at cast
      rw [if_neg (fun above => high (by exact_mod_cast half.mp above)), if_neg high]
      exact cast (by omega) (by omega)
  constructor
  all_goals rw [integer]
  · exact part
  · exact value_remainder_wordCount part
  · exact lifted
  · exact value_lowered lifted multiple
  · exact word

theorem toInt_clamp_inRange (found : value x = some q) (near : -2 ^ 63 ≤ q ∧ q < 2 ^ 63) :
    (clamp x).toInt = towardZero q := by
  rcases le_total 0 q with nonneg | nonpos
  · have below : ⌊q⌋ < 2 ^ 63 := Int.floor_lt.mpr (by exact_mod_cast near.2)
    have above : 0 ≤ ⌊q⌋ := Int.floor_nonneg.mpr nonneg
    rw [← towardZero_of_nonneg nonneg] at below above
    exact toInt_clamp found (by omega) below
  · have nonneg : 0 ≤ -q := neg_nonneg.mpr nonpos
    have below : ⌊-q⌋ ≤ 2 ^ 63 := by
      rw [Int.floor_le_iff]
      push_cast
      linarith [near.1]
    have above : 0 ≤ ⌊-q⌋ := Int.floor_nonneg.mpr nonneg
    rw [← towardZero_of_nonneg nonneg, towardZero_neg] at below above
    exact toInt_clamp found (by omega) (by omega)

theorem toInt_toWord (found : value x = some q) :
    (toWord x).toInt ≡ towardZero q [ZMOD 2 ^ 64] := by
  obtain ⟨s, m, e, reading, same⟩ := exists_read_of_value found
  rw [toWord, reading]
  dsimp only
  rw [truncate_eq, ← same, Int64.toInt_ofInt]
  exact Int.bmod_emod

theorem toInt_wrap (found : value x = some q) : (wrap x).toInt ≡ towardZero q [ZMOD 2 ^ 64] := by
  -- within the range of words the float is converted at once
  by_cases near : -2 ^ 63 ≤ q ∧ q < 2 ^ 63
  · unfold wrap
    rw [finite_of_value found, if_neg Bool.false_ne_true, if_pos ((inRange_iff found).mpr near),
      toInt_clamp_inRange found near]
  · rw [(exactSteps found near).word]
    split
    next => exact (Int.sub_modulus_modEq_iff.mpr rfl).trans (Int.mod_modEq _ _)
    next => exact Int.mod_modEq _ _

theorem toWord_of_none (missing : value x = none) : toWord x = 0 := by
  unfold value at missing
  cases reading : read x with
  | finite s m e =>
    rw [reading] at missing
    cases missing
  | nan => rw [toWord, reading]
  | infinite s => rw [toWord, reading]

theorem wrap_of_none (missing : value x = none) : wrap x = 0 := by
  have infinite : x.isFinite = false := by
    rw [Bool.eq_false_iff]
    intro finite
    obtain ⟨q, found⟩ := isFinite_iff.mp finite
    exact absurd (missing.symm.trans found) nofun
  rw [wrap, infinite]
  rfl

/-- The word of a float is its integer part modulo 2^64. The steps on floats that compute it are
exact. -/
theorem toWord_modular (x : Float) : wrap x = toWord x ∧
    (value x = none → toWord x = 0) ∧
    ∀ q, value x = some q →
      (∀ n : ℤ, n = (toWord x).toInt ↔
        -2 ^ 63 ≤ n ∧ n < 2 ^ 63 ∧ n ≡ towardZero q [ZMOD 2 ^ 64]) ∧
      (-2 ^ 63 ≤ q ∧ q < 2 ^ 63 → (clamp x).toInt = towardZero q) ∧
      (¬(-2 ^ 63 ≤ q ∧ q < 2 ^ 63) → ExactSteps x q) := by
  refine ⟨?_, toWord_of_none, fun q found => ⟨fun n => ⟨?_, ?_⟩, toInt_clamp_inRange found,
    exactSteps found⟩⟩
  · cases found : value x with
    | none => rw [wrap_of_none found, toWord_of_none found]
    | some q => exact Word.eq_of_modEq ((toInt_wrap found).trans (toInt_toWord found).symm)
  · rintro rfl
    exact ⟨Int64.le_toInt _, Int64.toInt_lt _, toInt_toWord found⟩
  · rintro ⟨least, greatest, same⟩
    have word : (Int64.ofInt n).toInt = n := Int64.toInt_ofInt_of_le least greatest
    rw [← word] at same ⊢
    rw [Word.eq_of_modEq (same.trans (toInt_toWord found).symm)]

theorem lifted_and_lowered :
    value (-18446744073709555712.0) = some (-18446744073709555712) ∧
      ¬(-2 ^ 63 ≤ (-18446744073709555712 : ℚ) ∧ (-18446744073709555712 : ℚ) < 2 ^ 63) ∧
      ExactSteps (-18446744073709555712.0) (-18446744073709555712) ∧
      (toWord (-18446744073709555712.0)).toInt = -4096 := by
  have reading : read (-18446744073709555712.0) = .finite true (2 ^ 52 + 1) 12 := by
    decide +kernel
  have found : value (-18446744073709555712.0) = some (-18446744073709555712) := by
    rw [value, reading, Reading.value]
    norm_num [size]
  have far : ¬(-2 ^ 63 ≤ (-18446744073709555712 : ℚ) ∧ (-18446744073709555712 : ℚ) < 2 ^ 63) := by
    norm_num
  have integer : towardZero (-18446744073709555712) = -18446744073709555712 := by
    exact_mod_cast towardZero_intCast (-18446744073709555712)
  -- the remainder -4096 is lifted to 2^64 - 4096, and lowered again
  obtain ⟨-, -, modular⟩ := toWord_modular (-18446744073709555712.0)
  obtain ⟨unique, -, steps⟩ := modular _ found
  refine ⟨found, far, steps far, ((unique (-4096)).mpr ⟨by decide, by decide, ?_⟩).symm⟩
  rw [integer]
  decide

end Word

end ConstExpr.Binary64
