import ConstExpr.Proofs.DecimalRounding

/-!
The exact values of floats. A finite float stands for one rational number. Whatever rounding makes
of a number that a float stands for has that number as its value, so sums and differences that are
on the grid of the floats are exact; and floats compare as their values do.
-/

namespace ConstExpr.Binary64

open Float.Model (Format UnpackedFloat)
open Float.Model.UnpackedFloat

section Values

def Reading.value : Reading → Option ℚ
  | .finite negative m e => some (if negative then -size m e else size m e)
  | _ => none

/-- The number that a float stands for, if it is finite. -/
def value (x : Float) : Option ℚ := (read x).value

variable {x y : Float} {p q : ℚ}

theorem size_zero (e : Int) : size 0 e = 0 := by
  rw [size, Nat.cast_zero, zero_mul]

theorem size_nonneg (m : Nat) (e : Int) : 0 ≤ size m e := by
  unfold size
  positivity

theorem abs_eq_size {s : Bool} {m : Nat} {e : Int} (same : q = if s then -size m e else size m e) :
    |q| = size m e := by
  subst same
  cases s with
  | false => exact abs_of_nonneg (size_nonneg m e)
  | true => exact (abs_neg _).trans (abs_of_nonneg (size_nonneg m e))

theorem exists_read_of_value (found : value x = some q) :
    ∃ s m e, read x = .finite s m e ∧ q = if s then -size m e else size m e := by
  unfold value at found
  cases reading : read x with
  | finite s m e =>
    rw [reading] at found
    exact ⟨s, m, e, rfl, (Option.some.inj found).symm⟩
  | nan =>
    rw [reading] at found
    cases found
  | infinite s =>
    rw [reading] at found
    cases found

def unpackedValue (u : UnpackedFloat) : Option ℚ := (Reading.ofUnpacked u).value

theorem value_eq (x : Float) : value x = unpackedValue x.toModel.unpack := by
  rw [value, read_eq]
  rfl

theorem value_pack (u : UnpackedFloat) : value (.ofModel (.pack u)) =
    unpackedValue (UnpackedFloat.unpack .binary64 (UnpackedFloat.pack .binary64 u)) := by
  rw [value, read_ofModel_pack]
  rfl

theorem unpackedValue_zero (s : Sign) : unpackedValue (.zero s) = some 0 := by
  cases s <;> simp [unpackedValue, Reading.ofUnpacked, Reading.value, size_zero]

theorem unpackedValue_finite (s : Sign) (m : Nat) (e : Int) (positive : 0 < m) :
    unpackedValue (.finite s m e positive) = some (((s.apply m : Int) : ℚ) * 2 ^ e) := by
  cases s with
  | positive => rfl
  | negative =>
    show some (-((m : ℚ) * 2 ^ e)) = some (((-(m : Int) : Int) : ℚ) * 2 ^ e)
    push_cast
    rw [neg_mul]

end Values

section Exact

variable {p q : ℚ}

/-- Apart from its sign the number is a mantissa of a float times a power of two, and it is in
range. -/
structure OnGrid (q : ℚ) : Prop where
  below : |q| < overflow
  grid : ∃ m k, m < 2 ^ 53 ∧ -1074 ≤ k ∧ size m k = |q|

/-- Rounding changes nothing about a number on the grid. -/
theorem value_normalize {n : Int} {t : Int} (sign : Sign) (exact : OnGrid (n * (2 : ℚ) ^ t)) :
    value (.ofModel (.pack (UnpackedFloat.normalize .binary64 n t sign))) =
      some ((n : ℚ) * 2 ^ t) := by
  obtain ⟨below, m, k, short, least, same⟩ := exact
  have unit : (0 : ℚ) < 2 ^ t := zpow_pos two_pos t
  have magnitude : |(n * 2 ^ t : ℚ)| = size n.natAbs t := by
    rw [abs_mul, abs_of_pos unit, size, Nat.cast_natAbs, Int.cast_abs]
  -- a number other than zero is rounded to itself, with either sign
  have rounded (s : Sign) (some : 0 < n.natAbs) :
      value (.ofModel (.pack (UnpackedFloat.round .binary64 s n.natAbs t))) =
        .some (if s == .negative then -size n.natAbs t else size n.natAbs t) := by
    obtain ⟨i, j, closest, result⟩ := round_closest (e := t) s some
    have value' : size i j = size n.natAbs t :=
      closest.exact short least (same.trans magnitude)
    have small : j ≤ 971 := by
      by_contra large
      rw [magnitude] at below
      exact absurd (closest.overflow_le (by omega)) below.not_ge
    rw [result, value, read_pack closest.canonical small, Reading.value, value']
  -- the magnitude is rounded, so the cases are those of the sign
  unfold UnpackedFloat.normalize
  cases order : compare n 0 with
  | lt =>
    have negative : n < 0 := Int.compare_eq_lt.mp order
    have size : (-n).toNat = n.natAbs := by omega
    have number : (n.natAbs : ℚ) = -n := by
      rw [Nat.cast_natAbs, Int.cast_abs, abs_of_neg (by exact_mod_cast negative)]
    dsimp only
    rw [size, rounded .negative (by omega), Binary64.size, number, neg_mul, neg_neg]
    rfl
  | eq =>
    have nothing : n = 0 := Int.compare_eq_eq.mp order
    dsimp only
    rw [value_pack, unpack_pack_zero, unpackedValue_zero, nothing, Int.cast_zero, zero_mul]
  | gt =>
    have positive : 0 < n := Int.compare_eq_gt.mp order
    have size : n.toNat = n.natAbs := by omega
    have number : (n.natAbs : ℚ) = n := by
      rw [Nat.cast_natAbs, Int.cast_abs, abs_of_pos (by exact_mod_cast positive)]
    dsimp only
    rw [size, rounded .positive (by omega), Binary64.size, number]
    rfl

def Stable (u : UnpackedFloat) : Prop :=
  UnpackedFloat.unpack .binary64 (UnpackedFloat.pack .binary64 u) = u

theorem stable_unpack (x : Float) : Stable x.toModel.unpack ∧ Stable x.toModel.unpack.neg := by
  have given := read_eq x
  cases u : x.toModel.unpack with
  | notANumber => exact ⟨rfl, rfl⟩
  | infinity s => cases s <;> exact ⟨rfl, rfl⟩
  | zero s => exact ⟨unpack_pack_zero s, unpack_pack_zero (-s)⟩
  | finite s m e positive =>
    rw [u] at given
    obtain ⟨canonical, small⟩ := canonical_of_read given
    exact ⟨unpack_pack positive canonical small, unpack_pack positive canonical small⟩

theorem Stable.value {u : UnpackedFloat} (stable : Stable u) :
    value (.ofModel (.pack u)) = unpackedValue u := by
  rw [value_pack, stable]

theorem apply_neg (s : Sign) (n : Int) : (-s).apply n = -s.apply n := by
  cases s with
  | positive => rfl
  | negative => exact (neg_neg n).symm

theorem unpackedValue_neg (u : UnpackedFloat) :
    unpackedValue u.neg = (unpackedValue u).map (- ·) := by
  cases u with
  | notANumber => rfl
  | infinity s => rfl
  | zero s =>
    show unpackedValue (.zero (-s)) = _
    rw [unpackedValue_zero, unpackedValue_zero, Option.map_some, neg_zero]
  | finite s m e positive =>
    show unpackedValue (.finite (-s) m e positive) = _
    rw [unpackedValue_finite, unpackedValue_finite, Option.map_some, apply_neg, Int.cast_neg,
      neg_mul]

theorem sub_eq_add (a b : UnpackedFloat) :
    UnpackedFloat.sub .binary64 a b = UnpackedFloat.add .binary64 a b.neg := by
  cases a with
  | finite s m e positive =>
    cases b with
    | finite t n k positive' =>
      have signs : s.apply (decreaseExponent m e (min e k)).1 -
          t.apply (decreaseExponent n k (min e k)).1 =
          s.apply (decreaseExponent m e (min e k)).1 +
            (-t).apply (decreaseExponent n k (min e k)).1 := by
        rw [apply_neg, Int.sub_eq_add_neg]
      exact congrArg (UnpackedFloat.normalize .binary64 · (min e k) .positive) signs
    | _ => rfl
  | _ => cases b <;> rfl

theorem decreaseExponent_size (s : Sign) {m : Nat} {e t : Int} (lower : t ≤ e) :
    ((s.apply (decreaseExponent m e t).1 : Int) : ℚ) * 2 ^ t = ((s.apply m : Int) : ℚ) * 2 ^ e := by
  obtain ⟨d, rfl⟩ : ∃ d : Nat, e = t + d := ⟨(e - t).toNat, by omega⟩
  have count : (t + d - t).toNat = d := by omega
  have shifted : (decreaseExponent m (t + d) t).1 = m * 2 ^ d := by
    rw [decreaseExponent, count, Nat.shiftLeft_eq]
  rw [shifted, zpow_add₀ two_ne_zero, zpow_natCast]
  cases s with
  | positive =>
    simp only [Sign.apply]
    push_cast
    ring
  | negative =>
    simp only [Sign.apply]
    push_cast
    ring

theorem value_add_unpacked {a b : UnpackedFloat} (stable : Stable a) (stable' : Stable b)
    (left : unpackedValue a = some p) (right : unpackedValue b = some q) (exact : OnGrid (p + q)) :
    value (.ofModel (.pack (UnpackedFloat.add .binary64 a b))) = some (p + q) := by
  cases a with
  | notANumber => cases left
  | infinity s => cases left
  | zero s =>
    rw [unpackedValue_zero] at left
    obtain rfl := Option.some.inj left
    rw [zero_add]
    cases b with
    | notANumber => cases right
    | infinity t => cases right
    | zero t =>
      have sum : ∃ r, UnpackedFloat.add .binary64 (.zero s) (.zero t) = .zero r := by
        cases s <;> cases t <;> exact ⟨_, rfl⟩
      obtain ⟨r, sum⟩ := sum
      rw [sum, value_pack, unpack_pack_zero, unpackedValue_zero, ← right, unpackedValue_zero]
    | finite t n k positive =>
      rw [← right]
      exact stable'.value
  | finite s m e positive =>
    cases b with
    | notANumber => cases right
    | infinity t => cases right
    | zero t =>
      rw [unpackedValue_zero] at right
      obtain rfl := Option.some.inj right
      rw [add_zero, ← left]
      exact stable.value
    | finite t n k positive' =>
      rw [unpackedValue_finite] at left right
      obtain rfl := Option.some.inj left
      obtain rfl := Option.some.inj right
      have sum : ((s.apply m : Int) : ℚ) * 2 ^ e + ((t.apply n : Int) : ℚ) * 2 ^ k =
          ((s.apply (decreaseExponent m e (min e k)).1 +
            t.apply (decreaseExponent n k (min e k)).1 : Int) : ℚ) * 2 ^ min e k := by
        rw [Int.cast_add, add_mul, decreaseExponent_size s (min_le_left e k),
          decreaseExponent_size t (min_le_right e k)]
      rw [sum] at exact ⊢
      exact value_normalize .positive exact

variable {x y : Float}

theorem value_add (left : value x = some p) (right : value y = some q) (exact : OnGrid (p + q)) :
    value (x + y) = some (p + q) := by
  rw [value_eq] at left right
  exact value_add_unpacked (stable_unpack x).1 (stable_unpack y).1 left right exact

theorem value_sub (left : value x = some p) (right : value y = some q) (exact : OnGrid (p - q)) :
    value (x - y) = some (p - q) := by
  rw [value_eq] at left right
  have negative : unpackedValue y.toModel.unpack.neg = some (-q) := by
    rw [unpackedValue_neg, right]
    rfl
  have difference : x - y = .ofModel (.pack (UnpackedFloat.add .binary64 x.toModel.unpack
      y.toModel.unpack.neg)) := by
    rw [← sub_eq_add]
    rfl
  rw [sub_eq_add_neg] at exact ⊢
  rw [difference]
  exact value_add_unpacked (stable_unpack x).1 (stable_unpack y).2 left negative exact

end Exact

section Order

variable {m n : Nat} {e k : Int} {p q : ℚ} {x y : Float}

theorem size_pos (positive : 0 < m) (e : Int) : 0 < size m e :=
  mul_pos (by exact_mod_cast positive) (zpow_pos two_pos e)

theorem size_lt_of_exponent_lt (first : Canonical m e) (second : Canonical n k) (lower : e < k) :
    size m e < size n k := by
  have full : 2 ^ 52 ≤ n := second.full.resolve_right (by have := first.least; omega)
  have short : m < 2 * n := by have := first.below; omega
  calc size m e
    _ < size (2 * n) e :=
      mul_lt_mul_of_pos_right (by exact_mod_cast short) (zpow_pos two_pos e)
    _ = size n (e + 1) := by
      rw [size_add_one, size, size]
      push_cast
      ring
    _ ≤ size n k := size_le_size le_rfl lower

theorem compare_size (first : Canonical m e) (second : Canonical n k) :
    compare (size m e) (size n k) = (compare e k).then (compare m n) := by
  rcases lt_trichotomy e k with lower | same | higher
  · rw [compare_lt_iff_lt.mpr lower]
    exact compare_lt_iff_lt.mpr (size_lt_of_exponent_lt first second lower)
  · subst same
    have unit : (0 : ℚ) < 2 ^ e := zpow_pos two_pos e
    rw [compare_eq_iff_eq.mpr rfl]
    show compare (size m e) (size n e) = compare m n
    rcases lt_trichotomy m n with less | equal | more
    · rw [compare_lt_iff_lt.mpr less]
      exact compare_lt_iff_lt.mpr (mul_lt_mul_of_pos_right (by exact_mod_cast less) unit)
    · rw [equal, compare_eq_iff_eq.mpr rfl, compare_eq_iff_eq.mpr rfl]
    · rw [compare_gt_iff_gt.mpr more]
      exact compare_gt_iff_gt.mpr (mul_lt_mul_of_pos_right (by exact_mod_cast more) unit)
  · rw [compare_gt_iff_gt.mpr higher]
    exact compare_gt_iff_gt.mpr (size_lt_of_exponent_lt second first higher)

theorem compare_neg (p q : ℚ) : compare (-p) (-q) = (compare p q).swap := by
  rcases lt_trichotomy p q with less | equal | more
  · rw [compare_lt_iff_lt.mpr less]
    exact compare_gt_iff_gt.mpr (neg_lt_neg less)
  · rw [equal, compare_eq_iff_eq.mpr rfl, compare_eq_iff_eq.mpr rfl]
    rfl
  · rw [compare_gt_iff_gt.mpr more]
    exact compare_lt_iff_lt.mpr (neg_lt_neg more)

theorem unpack_cases (found : value x = some p) :
    (∃ s, x.toModel.unpack = .zero s ∧ p = 0) ∨
      ∃ s m e, ∃ positive : 0 < m, x.toModel.unpack = .finite s m e positive ∧ Canonical m e ∧
        p = if s == .negative then -size m e else size m e := by
  have given := read_eq x
  rw [value_eq] at found
  cases u : x.toModel.unpack with
  | notANumber =>
    rw [u] at found
    cases found
  | infinity s =>
    rw [u] at found
    cases found
  | zero s =>
    rw [u, unpackedValue_zero] at found
    exact .inl ⟨s, rfl, (Option.some.inj found).symm⟩
  | finite s m e positive =>
    rw [u] at found given
    exact .inr ⟨s, m, e, positive, rfl, (canonical_of_read given).1, (Option.some.inj found).symm⟩

theorem compare_unpack (left : value x = some p) (right : value y = some q) :
    x.toModel.unpack.compare y.toModel.unpack = some (compare p q) := by
  rcases unpack_cases left with ⟨s, u, rfl⟩ | ⟨s, m, e, positive, u, canonical, rfl⟩
  · rcases unpack_cases right with ⟨t, w, rfl⟩ | ⟨t, n, k, positive, w, -, rfl⟩
    · have same : compare (0 : ℚ) 0 = .eq := compare_eq_iff_eq.mpr rfl
      rw [u, w, same]
      rfl
    · have above := size_pos positive k
      rw [u, w]
      cases t with
      | positive => exact congrArg some (compare_lt_iff_lt.mpr above).symm
      | negative => exact congrArg some (compare_gt_iff_gt.mpr (neg_lt_zero.mpr above)).symm
  · have above := size_pos positive e
    rcases unpack_cases right with ⟨t, w, rfl⟩ | ⟨t, n, k, positive', w, canonical', rfl⟩
    · rw [u, w]
      cases s with
      | positive => exact congrArg some (compare_gt_iff_gt.mpr above).symm
      | negative => exact congrArg some (compare_lt_iff_lt.mpr (neg_lt_zero.mpr above)).symm
    · have above' := size_pos positive' k
      have order := compare_size canonical canonical'
      rw [u, w]
      cases s with
      | positive =>
        cases t with
        | positive => exact congrArg some order.symm
        | negative =>
          exact congrArg some (compare_gt_iff_gt.mpr ((neg_lt_zero.mpr above').trans above)).symm
      | negative =>
        cases t with
        | positive =>
          exact congrArg some (compare_lt_iff_lt.mpr ((neg_lt_zero.mpr above).trans above')).symm
        | negative =>
          have reversed := (compare_neg (size m e) (size n k)).trans (congrArg Ordering.swap order)
          exact congrArg some reversed.symm

theorem lt_iff_value (left : value x = some p) (right : value y = some q) : x < y ↔ p < q := by
  have order : x < y ↔ (x.toModel.unpack.compare y.toModel.unpack == some .lt) = true :=
    decide_eq_true_iff
  rw [order, compare_unpack left right, beq_iff_eq, Option.some.injEq]
  exact compare_lt_iff_lt

theorem le_iff_value (left : value x = some p) (right : value y = some q) : x ≤ y ↔ p ≤ q := by
  have order : x ≤ y ↔ (x.toModel.unpack.compare y.toModel.unpack).any (·.isLE) = true :=
    decide_eq_true_iff
  rw [order, compare_unpack left right, Option.any_some, ← Ordering.ne_gt_iff_isLE]
  exact compare_le_iff_le

end Order

end ConstExpr.Binary64
