import ConstExpr.Proofs.Rounding
import ConstExpr.Value.Numeric

/-!
The float nearest to a number. A float is packed into its bits and read back unchanged unless it is
out of range, and what is out of range becomes an infinity. So a decimal, a word and the number of a
numeral are read as the nearest float, whatever way the reading takes.
-/

namespace ConstExpr.Binary64

open Float.Model (Format UnpackedFloat)
open Float.Model.UnpackedFloat

section Fields

def Reading.ofUnpacked : UnpackedFloat → Reading
  | .notANumber => .nan
  | .infinity s => .infinite (s == .negative)
  | .zero s => .finite (s == .negative) 0 (-1074)
  | .finite s m e _ => .finite (s == .negative) m e

variable (x : Float)

theorem toNat_unpackExponent : (@unpackExponent .binary64 x.toBits.toBitVec).toNat =
    x.toBits.toNat / hiddenBit % 2048 := by
  simp [unpackExponent, Nat.shiftRight_eq_div_pow, hiddenBit]

theorem toNat_unpackMantissa : (@unpackMantissa .binary64 x.toBits.toBitVec).toNat =
    x.toBits.toNat % hiddenBit := by
  simp [unpackMantissa, hiddenBit]

theorem toNat_fullMantissa : (1#1 ++ @unpackMantissa .binary64 x.toBits.toBitVec).toNat =
    x.toBits.toNat % hiddenBit + hiddenBit := by
  rw [BitVec.toNat_append, ← Nat.shiftLeft_add_eq_or_of_lt (BitVec.isLt _), toNat_unpackMantissa]
  simp [hiddenBit, add_comm]

theorem ofBitVec_beq (b : BitVec 1) : (Sign.ofBitVec b == .negative) = (b.toNat == 1) := by
  revert b
  decide

theorem unpackSign_beq :
    (Sign.ofBitVec (@unpackSign .binary64 x.toBits.toBitVec) == .negative) =
      decide (signBit ≤ x.toBits.toNat) := by
  have range : x.toBits.toNat < 2 ^ 64 := x.toBits.toNat_lt
  have bit : (@unpackSign .binary64 x.toBits.toBitVec).toNat = x.toBits.toNat / signBit := by
    simp [unpackSign, Nat.shiftRight_eq_div_pow, signBit]
    omega
  rw [ofBitVec_beq, bit, Bool.eq_iff_iff, beq_iff_eq, decide_eq_true_iff]
  simp only [signBit]
  omega

theorem read_eq : read x = .ofUnpacked x.toModel.unpack := by
  have ones : (@unpackExponent .binary64 x.toBits.toBitVec = -1#11) ↔
      x.toBits.toNat / hiddenBit % 2048 = 2047 := by
    rw [← BitVec.toNat_inj, toNat_unpackExponent]
    rfl
  have zeros : (@unpackExponent .binary64 x.toBits.toBitVec = 0#11) ↔
      x.toBits.toNat / hiddenBit % 2048 = 0 := by
    rw [← BitVec.toNat_inj, toNat_unpackExponent]
    rfl
  have empty : (@unpackMantissa .binary64 x.toBits.toBitVec = 0#52) ↔
      x.toBits.toNat % hiddenBit = 0 := by
    rw [← BitVec.toNat_inj, toNat_unpackMantissa]
    rfl
  show read x = .ofUnpacked (UnpackedFloat.unpack .binary64 x.toBits.toBitVec)
  unfold read UnpackedFloat.unpack
  simp only [ones, zeros, empty]
  split
  · split
    · simp [Reading.ofUnpacked, unpackSign_beq]
    · rfl
  · split
    next least =>
      split
      next nothing => simp [Reading.ofUnpacked, unpackSign_beq, nothing]
      next =>
        simp [Reading.ofUnpacked, unpackSign_beq, toNat_unpackMantissa, toNat_unpackExponent,
          least, Format.exponentBias]
    next =>
      simp [Reading.ofUnpacked, unpackSign_beq, toNat_unpackExponent, Format.exponentBias]
      exact (toNat_fullMantissa x).symm

variable {x}

theorem canonical_of_read {s : Bool} {m : Nat} {e : Int} (found : read x = .finite s m e) :
    Canonical m e ∧ e ≤ 971 := by
  unfold read at found
  dsimp only at found
  split at found
  · split at found <;> cases found
  · split at found
    · cases found
      simp only [hiddenBit]
      exact ⟨⟨by omega, by omega, by omega⟩, by omega⟩
    · cases found
      simp only [hiddenBit] at *
      exact ⟨⟨by omega, by omega, by omega⟩, by omega⟩

theorem isZero_iff_magnitude : isZero x ↔ x.toBits.toNat % signBit = 0 := by
  unfold isZero rank
  dsimp only
  generalize x.toBits.toNat % signBit = magnitude
  split
  next beyond =>
    simp only [hiddenBit] at beyond
    simp
    omega
  next => split <;> simp

theorem isZero_iff : isZero x ↔ ∃ s e, read x = .finite s 0 e := by
  have range : x.toBits.toNat < 2 ^ 64 := x.toBits.toNat_lt
  rw [isZero_iff_magnitude, signBit]
  unfold read
  dsimp only
  constructor
  · intro none
    have exponent : x.toBits.toNat / hiddenBit % 2048 = 0 := by rw [hiddenBit]; omega
    have fraction : x.toBits.toNat % hiddenBit = 0 := by rw [hiddenBit]; omega
    simp [exponent, fraction]
  · rintro ⟨s, e, found⟩
    split at found
    · split at found <;> cases found
    · split at found
      · obtain ⟨-, fraction, -⟩ := Reading.finite.inj found
        simp only [hiddenBit] at *
        omega
      · obtain ⟨-, full, -⟩ := Reading.finite.inj found
        rw [hiddenBit] at full
        omega

end Fields

section Components

variable (s : Sign) (exponent : BitVec 11) (mantissa : BitVec 52)

theorem toNat_packComponents : (packComponents .binary64 s exponent mantissa).toNat =
    2 ^ 63 * s.toBitVec.toNat + 2 ^ 52 * exponent.toNat + mantissa.toNat := by
  unfold packComponents
  rw [BitVec.toNat_append, BitVec.toNat_append, ← Nat.shiftLeft_add_eq_or_of_lt (BitVec.isLt _),
    ← Nat.shiftLeft_add_eq_or_of_lt (BitVec.isLt _), Nat.shiftLeft_eq, Nat.shiftLeft_eq]
  simp
  omega

theorem unpackSign_packComponents :
    Sign.ofBitVec (@unpackSign .binary64 (packComponents .binary64 s exponent mantissa)) = s := by
  have bit : @unpackSign .binary64 (packComponents .binary64 s exponent mantissa) = s.toBitVec := by
    apply BitVec.eq_of_toNat_eq
    have := toNat_packComponents s exponent mantissa
    simp [unpackSign, Nat.shiftRight_eq_div_pow] at this ⊢
    rw [this]
    omega
  rw [bit]
  cases s <;> rfl

end Components

section Packing

theorem log2_add_one_eq_iff {m : Nat} (positive : 0 < m) (below : m < 2 ^ 53) :
    m.log2 + 1 = 53 ↔ 2 ^ 52 ≤ m := by
  have := (Nat.log2_lt positive.ne').mpr below
  have := Nat.le_log2 (k := 52) positive.ne'
  omega

theorem pack_finite {s : Sign} {m : Nat} {e : Int} (positive : 0 < m) (canonical : Canonical m e)
    (small : e ≤ 971) :
    UnpackedFloat.pack .binary64 (.finite s m e positive) =
      packComponents .binary64 s (if 2 ^ 52 ≤ m then BitVec.ofNat 11 (e + 1075).toNat else 0)
        (BitVec.ofNat 52 m) := by
  obtain ⟨below, least, full⟩ := canonical
  have size := log2_add_one_eq_iff positive below
  have biased : e + (1023 : Nat) + (52 : Nat) = e + 1075 := by omega
  have within : ¬2 ^ 11 ≤ (e + 1075).toNat + 1 := by omega
  unfold UnpackedFloat.pack
  dsimp only
  have bias : Format.binary64.exponentBias = 1023 := rfl
  have bits : Format.binary64.mantissaBits = 53 := rfl
  rw [bias, bits, biased, if_neg within]
  by_cases normal : 2 ^ 52 ≤ m
  · rw [if_pos (size.mpr normal), if_pos normal]
  · rw [if_neg (fun full => normal (size.mp full)), if_neg normal]
    rfl

theorem unpack_pack {s : Sign} {m : Nat} {e : Int} (positive : 0 < m) (canonical : Canonical m e)
    (small : e ≤ 971) :
    UnpackedFloat.unpack .binary64 (UnpackedFloat.pack .binary64 (.finite s m e positive)) =
      .finite s m e positive := by
  rw [pack_finite positive canonical small]
  obtain ⟨below, least, full⟩ := canonical
  unfold UnpackedFloat.unpack
  have bias : Format.binary64.exponentBias = 1023 := rfl
  simp only [unpackMantissa_packComponents, unpackExponent_packComponents,
    unpackSign_packComponents, bias]
  by_cases normal : 2 ^ 52 ≤ m
  · have exponent : (BitVec.ofNat 11 (e + 1075).toNat).toNat = (e + 1075).toNat := by
      rw [BitVec.toNat_ofNat, Nat.mod_eq_of_lt (by omega)]
    have top : BitVec.ofNat 11 (e + 1075).toNat ≠ -1#11 := by
      intro ones
      have := congrArg BitVec.toNat ones
      rw [exponent] at this
      change _ = 2047 at this
      omega
    have bottom : BitVec.ofNat 11 (e + 1075).toNat ≠ 0#11 := by
      intro none
      have := congrArg BitVec.toNat none
      rw [exponent] at this
      change _ = 0 at this
      omega
    have mantissa : (1#1 ++ BitVec.ofNat 52 m).toNat = m := by
      rw [BitVec.toNat_append, ← Nat.shiftLeft_add_eq_or_of_lt (BitVec.isLt _), BitVec.toNat_ofNat]
      simp
      omega
    simp only [if_pos normal, if_neg top, if_neg bottom, mantissa, exponent]
    congr 1
    omega
  · have mantissa : (BitVec.ofNat 52 m).toNat = m := by
      rw [BitVec.toNat_ofNat, Nat.mod_eq_of_lt (by omega)]
    have some : BitVec.ofNat 52 m ≠ 0#52 := by
      intro none
      have := congrArg BitVec.toNat none
      rw [mantissa] at this
      change _ = 0 at this
      omega
    have least : e = -1074 := full.resolve_left normal
    subst least
    simp only [if_neg normal]
    simp [some, mantissa]

theorem unpack_pack_large {s : Sign} {m : Nat} {e : Int} (positive : 0 < m) (large : 972 ≤ e) :
    UnpackedFloat.unpack .binary64 (UnpackedFloat.pack .binary64 (.finite s m e positive)) =
      .infinity s := by
  have beyond : 2 ^ 11 ≤ (e + (1023 : Nat) + (52 : Nat)).toNat + 1 := by omega
  have packed : UnpackedFloat.pack .binary64 (.finite s m e positive) =
      packedInfinity .binary64 s := if_pos beyond
  rw [packed]
  cases s <;> rfl

theorem unpack_pack_zero (s : Sign) :
    UnpackedFloat.unpack .binary64 (UnpackedFloat.pack .binary64 (.zero s)) = .zero s := by
  cases s <;> rfl

theorem read_ofModel_pack (u : UnpackedFloat) : read (.ofModel (.pack u)) =
    .ofUnpacked (UnpackedFloat.unpack .binary64 (UnpackedFloat.pack .binary64 u)) :=
  read_eq _

theorem read_pack {m : Nat} {e : Int} (canonical : Canonical m e) (small : e ≤ 971) (s : Sign) :
    read (.ofModel (.pack (unpacked s m e))) = .finite (s == .negative) m e := by
  rw [read_ofModel_pack]
  unfold unpacked
  split
  next zero =>
    have least : e = -1074 := canonical.full.resolve_left (by omega)
    rw [unpack_pack_zero, zero, least]
    rfl
  next =>
    rw [unpack_pack _ canonical small]
    rfl

theorem read_pack_large {m : Nat} {e : Int} (positive : 0 < m) (large : 972 ≤ e) (s : Sign) :
    read (.ofModel (.pack (unpacked s m e))) = .infinite (s == .negative) := by
  rw [read_ofModel_pack, unpacked, dif_neg positive.ne', unpack_pack_large positive large]
  rfl

end Packing

section Nearest

variable {q : ℚ} {m : Nat} {e : Int}

/-- Rounding gives an infinity from here on: half a step above the greatest finite float. -/
def overflow : ℚ := 2 ^ 1024 - 2 ^ 970

/-- A float is what the number with a given sign and size is rounded to. No float is nearer, and
of two equally near ones the mantissa is even. -/
def Nearest (negative : Bool) (q : ℚ) (x : Float) : Prop :=
  match read x with
  | .nan => False
  | .infinite sign => sign = negative ∧ overflow ≤ q
  | .finite sign m e => sign = negative ∧ q < overflow ∧
      ∀ y s n k, read y = .finite s n k →
        |size m e - q| ≤ |size n k - q| ∧
          (|size m e - q| = |size n k - q| → size n k = size m e ∨ Even m)

def topHalf : ℚ := 2 ^ 970

theorem topHalf_pos : 0 < topHalf := pow_pos two_pos 970

theorem overflow_eq : overflow = (2 ^ 54 - 1) * topHalf := by
  have whole : (2 : ℚ) ^ 1024 = 2 ^ 54 * 2 ^ 970 := by rw [← pow_add]
  rw [overflow, topHalf, whole, sub_one_mul]

theorem size_le_size {m n : Nat} {e k : Int} (mantissa : m ≤ n) (exponent : e ≤ k) :
    size m e ≤ size n k := by
  have first : (m : ℚ) ≤ n := by exact_mod_cast mantissa
  have second : (2 : ℚ) ^ e ≤ 2 ^ k := zpow_le_zpow_right₀ one_le_two exponent
  exact mul_le_mul first second (by positivity) (by positivity)

theorem size_add_one (m : Nat) (e : Int) : size m (e + 1) = 2 * size m e := by
  rw [size, size, zpow_add_one₀ two_ne_zero]
  ring

theorem size_970 (m : Nat) : size m 970 = m * topHalf := rfl

theorem size_971 (m : Nat) : size m 971 = 2 * (m * topHalf) := size_add_one m 970

theorem size_972 (m : Nat) : size m 972 = 4 * (m * topHalf) := by
  rw [← size_970, show (972 : ℤ) = 970 + 1 + 1 from rfl, size_add_one, size_add_one]
  ring

theorem Closest.lt_overflow (closest : Closest q m e) (small : e ≤ 971) : q < overflow := by
  by_contra large
  rw [not_lt, overflow_eq] at large
  have unit := topHalf_pos
  have short : m ≤ 2 ^ 53 - 1 := Nat.le_sub_one_of_lt closest.canonical.below
  have below : size m e ≤ (2 ^ 54 - 2) * topHalf := by
    have greatest := size_le_size short small
    rw [size_971] at greatest
    push_cast at greatest
    linarith
  obtain ⟨near, tie⟩ := closest.near (2 ^ 52) 972 (by decide) (by decide)
  rw [size_972, abs_sub_comm, abs_of_pos (by linarith)] at near tie
  push_cast at near tie
  rcases le_or_gt q (2 ^ 54 * topHalf) with inside | outside
  · -- halfway, where the greatest finite float gives way because its mantissa is odd
    rw [abs_of_nonneg (by linarith)] at near tie
    have reached : size m e = (2 ^ 54 - 2) * topHalf := by linarith
    rcases tie (by linarith) with same | even
    · linarith
    · have exponent : e = 971 := by
        by_contra other
        have lower := size_le_size short (show e ≤ 970 by omega)
        rw [size_970] at lower
        push_cast at lower
        linarith
      rw [exponent, size_971] at reached
      have mantissa : (m : ℚ) = ((2 ^ 53 - 1 : Nat) : ℚ) := by
        apply mul_right_cancel₀ unit.ne'
        push_cast
        linarith
      rw [Nat.cast_inj.mp mantissa] at even
      exact absurd even (by decide)
  · rw [abs_of_neg (by linarith)] at near
    linarith

theorem Closest.overflow_le (closest : Closest q m e) (large : 972 ≤ e) : overflow ≤ q := by
  by_contra small
  rw [not_le, overflow_eq] at small
  have unit := topHalf_pos
  have full : 2 ^ 52 ≤ m := closest.canonical.full.resolve_right (by omega)
  have above : 2 ^ 54 * topHalf ≤ size m e := by
    have least := size_le_size full large
    rw [size_972] at least
    push_cast at least
    linarith
  have near := (closest.near (2 ^ 53 - 1) 971 (by decide) (by decide)).1
  rw [size_971, abs_of_pos (by linarith)] at near
  push_cast at near
  rcases le_abs.mp near with near | near
  · linarith
  · linarith

theorem Closest.nearest (closest : Closest q m e) (s : Sign) :
    Nearest (s == .negative) q (.ofModel (.pack (unpacked s m e))) := by
  unfold Nearest
  rcases le_or_gt e 971 with small | large
  · rw [read_pack closest.canonical small]
    refine ⟨rfl, closest.lt_overflow small, fun y sign n k found => ?_⟩
    obtain ⟨canonical, -⟩ := canonical_of_read found
    exact closest.near n k canonical.below canonical.least
  · have some : 0 < m := by
      have := closest.canonical.full
      omega
    rw [read_pack_large some large]
    exact ⟨rfl, closest.overflow_le large⟩

def Reading.neg : Reading → Reading
  | .nan => .nan
  | .infinite s => .infinite !s
  | .finite s m e => .finite (!s) m e

theorem read_neg (x : Float) : read (-x) = (read x).neg := by
  have form : read (-x) = .ofUnpacked (UnpackedFloat.unpack .binary64
      (UnpackedFloat.pack .binary64 (UnpackedFloat.neg x.toModel.unpack))) :=
    read_ofModel_pack x.toModel.unpack.neg
  have given := read_eq x
  rw [form, given]
  cases u : x.toModel.unpack with
  | notANumber => rfl
  | infinity s => cases s <;> rfl
  | zero s => cases s <;> rfl
  | finite s m e positive =>
    rw [u] at given
    obtain ⟨canonical, small⟩ := canonical_of_read given
    show Reading.ofUnpacked (UnpackedFloat.unpack .binary64
      (UnpackedFloat.pack .binary64 (.finite (-s) m e positive))) = _
    rw [unpack_pack positive canonical small]
    cases s <;> rfl

theorem Nearest.neg {x : Float} (nearest : Nearest false q x) : Nearest true q (-x) := by
  unfold Nearest at nearest ⊢
  rw [read_neg]
  cases reading : read x with
  | nan =>
    rw [reading] at nearest
    exact nearest
  | infinite s =>
    rw [reading] at nearest
    exact nearest.imp_left (congrArg not)
  | finite s m e =>
    rw [reading] at nearest
    exact nearest.imp_left (congrArg not)

end Nearest

section Unique

variable {q : ℚ} {m n : Nat} {e k : Int}

theorem Canonical.eq_of_size (first : Canonical m e) (second : Canonical n k)
    (same : size m e = size n k) : m = n ∧ e = k := by
  wlog order : e ≤ k generalizing m n e k
  · exact (this second first same.symm (by omega)).imp Eq.symm Eq.symm
  obtain ⟨d, rfl⟩ : ∃ d : Nat, k = e + d := ⟨(k - e).toNat, by omega⟩
  have mantissas : m = n * 2 ^ d := by
    have unit : (0 : ℚ) < 2 ^ e := zpow_pos two_pos e
    rw [size, size, zpow_add₀ two_ne_zero, zpow_natCast, mul_left_comm, mul_comm (m : ℚ)] at same
    exact_mod_cast mul_left_cancel₀ unit.ne' same
  rcases Nat.eq_zero_or_pos d with zero | some
  · subst zero
    simpa using mantissas
  · exfalso
    have full : 2 ^ 52 ≤ n := second.full.resolve_right (by have := first.least; omega)
    have double : n * 2 ≤ m := by
      rw [mantissas]
      exact Nat.mul_le_mul_left n (Nat.le_self_pow some.ne' 2)
    have := first.below
    omega

theorem exists_read (canonical : Canonical m e) (small : e ≤ 971) :
    ∃ y, read y = .finite false m e :=
  ⟨_, read_pack canonical small .positive⟩

theorem size_add_one_le (first : Canonical m e) (second : Canonical n k)
    (above : size m e < size n k) : size (m + 1) e ≤ size n k := by
  have unit : (0 : ℚ) < 2 ^ e := zpow_pos two_pos e
  rcases le_or_gt e k with coarser | finer
  · obtain ⟨d, rfl⟩ : ∃ d : Nat, k = e + d := ⟨(k - e).toNat, by omega⟩
    have multiple : size n (e + d) = size (n * 2 ^ d) e := by
      rw [size, size, zpow_add₀ two_ne_zero, zpow_natCast]
      push_cast
      ring
    rw [multiple] at above ⊢
    have more : m < n * 2 ^ d := by exact_mod_cast lt_of_mul_lt_mul_right above unit.le
    exact size_le_size more le_rfl
  · exfalso
    -- a finer float has a smaller exponent, so even its greatest mantissa stays below
    have full : 2 ^ 52 ≤ m := first.full.resolve_right (by have := second.least; omega)
    have short := second.below
    have low : size n k ≤ size m e :=
      calc size n k
        _ ≤ size (2 * m) (e - 1) := size_le_size (by omega) (by omega)
        _ = size m e := by
          rw [size, size, zpow_sub_one₀ two_ne_zero]
          push_cast
          ring
    exact absurd above low.not_gt

/-- Of two floats at the same distance from a number on either side, one has an odd mantissa. -/
theorem size_le_of_tie (first : Canonical m e) (second : Canonical n k)
    (small : e ≤ 971) (even : Even m) (even' : Even n)
    (near : ∀ y s j i, read y = .finite s j i → |size m e - q| ≤ |size j i - q|)
    (tie : |size m e - q| = |size n k - q|) : size n k ≤ size m e := by
  by_contra apart
  rw [not_le] at apart
  have middle : size m e + size n k = 2 * q := by
    rcases abs_eq_abs.mp tie with same | opposite
    · linarith
    · linarith
  -- the next float is not past the other one, and strictly between it would be nearer
  have step : Canonical (m + 1) e := by
    have := first.below
    have parity := Nat.even_iff.mp even
    exact ⟨by omega, first.least, first.full.imp_left (by omega)⟩
  have above : size m e < size (m + 1) e := by
    have unit : (0 : ℚ) < 2 ^ e := zpow_pos two_pos e
    rw [size, size]
    push_cast
    linarith
  have reached : size (m + 1) e = size n k := by
    refine le_antisymm (size_add_one_le first second apart) ?_
    by_contra between
    obtain ⟨y, found⟩ := exists_read step small
    have farther := near y _ _ _ found
    rw [abs_of_neg (by linarith)] at farther
    rcases le_abs.mp farther with farther | farther
    · linarith
    · linarith
  have := (step.eq_of_size second reached).1
  rw [← this] at even'
  exact (Nat.even_add_one.mp even') even

theorem Nearest.read_eq_read {negative : Bool} {x y : Float} (first : Nearest negative q x)
    (second : Nearest negative q y) : read x = read y := by
  unfold Nearest at first second
  cases reading : read x with
  | nan => simp [reading] at first
  | infinite s =>
    rw [reading] at first
    cases reading' : read y with
    | nan => simp [reading'] at second
    | infinite s' =>
      rw [reading'] at second
      rw [first.1, second.1]
    | finite s' n k =>
      rw [reading'] at second
      exact absurd first.2 second.2.1.not_ge
  | finite s m e =>
    rw [reading] at first
    cases reading' : read y with
    | nan => simp [reading'] at second
    | infinite s' =>
      rw [reading'] at second
      exact absurd second.2 first.2.1.not_ge
    | finite s' n k =>
      rw [reading'] at second
      obtain ⟨sign, -, near⟩ := first
      obtain ⟨sign', -, near'⟩ := second
      obtain ⟨canonical, small⟩ := canonical_of_read reading
      obtain ⟨canonical', small'⟩ := canonical_of_read reading'
      have distance := (near y _ _ _ reading').1
      have distance' := (near' x _ _ _ reading).1
      have tie := le_antisymm distance distance'
      -- at equal distance on two sides both mantissas would be even
      have same : size m e = size n k := by
        rcases (near y _ _ _ reading').2 tie with same | even
        · exact same.symm
        rcases (near' x _ _ _ reading).2 tie.symm with same | even'
        · exact same
        exact le_antisymm
          (size_le_of_tie canonical' canonical small' even' even
            (fun z _ _ _ found => (near' z _ _ _ found).1) tie.symm)
          (size_le_of_tie canonical canonical' small even even'
            (fun z _ _ _ found => (near z _ _ _ found).1) tie)
      obtain ⟨rfl, rfl⟩ := canonical.eq_of_size canonical' same
      rw [sign, sign']

end Unique

section Operations

variable {q : ℚ} {m₁ m₂ : Nat} {e₁ e₂ : Int}

theorem nearest_mul {positive₁ : 0 < m₁} {positive₂ : 0 < m₂} (enough : 2 ^ 52 ≤ m₁ * m₂)
    (value : size m₁ e₁ * size m₂ e₂ = q) :
    Nearest false q (.ofModel (.pack (UnpackedFloat.mul .binary64
      (.finite .positive m₁ e₁ positive₁) (.finite .positive m₂ e₂ positive₂)))) := by
  obtain ⟨n, k, closest, product⟩ :
      ∃ n k, Closest (size m₁ e₁ * size m₂ e₂) n k ∧ _ = unpacked (.positive * .positive) n k :=
    mul_closest .positive .positive positive₁ positive₂ enough
  rw [value] at closest
  rw [product]
  exact closest.nearest .positive

theorem nearest_div {positive₁ : 0 < m₁} {positive₂ : 0 < m₂}
    (value : size m₁ e₁ / size m₂ e₂ = q) :
    Nearest false q (.ofModel (.pack (UnpackedFloat.div .binary64
      (.finite .positive m₁ e₁ positive₁) (.finite .positive m₂ e₂ positive₂)))) := by
  obtain ⟨n, k, closest, quotient⟩ :
      ∃ n k, Closest (size m₁ e₁ / size m₂ e₂) n k ∧ _ = unpacked (.positive / .positive) n k :=
    div_closest .positive .positive positive₁ positive₂
  rw [value] at closest
  rw [quotient]
  exact closest.nearest .positive

end Operations

end ConstExpr.Binary64
