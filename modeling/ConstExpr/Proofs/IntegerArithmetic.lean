import ConstExpr.Operator.Arithmetic
import ConstExpr.Proofs.DecimalRounding

/-!
Arithmetic on integers is exact or done on floats, and never wraps around. The value of an operator
is the exact result when that is a word; a sum, a difference, a product or a quotient that is no
word is a float, and so is a power that is no word. A power of -1, 0 or 1 is a word whatever the
exponent is, but from 2^32 on it is a float all the same.
-/

namespace ConstExpr

section Words

variable {n : Int} {a b : Int64}

theorem Word.ofInt?_eq_none_iff : Word.ofInt? n = none ↔ ∀ i : Int64, i.toInt ≠ n := by
  rw [Option.eq_none_iff_forall_ne_some]
  exact forall_congr' fun i => not_congr Word.ofInt?_eq_some_iff

theorem Word.pow_repeat (small : a.toInt.natAbs ≤ 1) (exponent : Nat) :
    a.toInt ^ (if exponent ≤ 1 then exponent else 2 - exponent % 2) = a.toInt ^ exponent := by
  have bases : a.toInt = -1 ∨ a.toInt = 0 ∨ a.toInt = 1 := by omega
  rcases bases with base | base | base
  · -- the short exponent has the parity of the long one
    have parity : Even (if exponent ≤ 1 then exponent else 2 - exponent % 2) ↔ Even exponent := by
      rw [Nat.even_iff, Nat.even_iff]
      split <;> omega
    rw [base]
    by_cases even : Even exponent
    · rw [even.neg_one_pow, (parity.mpr even).neg_one_pow]
    · rw [(Nat.not_even_iff_odd.mp even).neg_one_pow,
        (Nat.not_even_iff_odd.mp (mt parity.mp even)).neg_one_pow]
  · have zero : (if exponent ≤ 1 then exponent else 2 - exponent % 2) = 0 ↔ exponent = 0 := by
      split <;> omega
    rw [base, zero_pow_eq, zero_pow_eq]
    simp only [zero]
  · rw [base, one_pow, one_pow]

theorem Word.pow_out_of_range {exponent : Nat} (large : 1 < a.toInt.natAbs) (long : 64 ≤ exponent)
    (i : Int64) : i.toInt ≠ a.toInt ^ exponent := by
  intro value
  have size : 2 ^ 64 ≤ i.toInt.natAbs :=
    calc 2 ^ 64
      _ ≤ 2 ^ exponent := Nat.pow_le_pow_right two_pos long
      _ ≤ a.toInt.natAbs ^ exponent := Nat.pow_le_pow_left large exponent
      _ = i.toInt.natAbs := by rw [value, Int.natAbs_pow]
  have := i.le_toInt
  have := i.toInt_lt
  omega

theorem Word.exists_pow (small : a.toInt.natAbs ≤ 1) (exponent : Nat) :
    ∃ i : Int64, i.toInt = a.toInt ^ exponent := by
  have power : (a.toInt ^ exponent).natAbs ≤ 1 := by
    rw [Int.natAbs_pow]
    exact pow_le_one₀ (Nat.zero_le _) small
  refine ⟨Int64.ofInt (a.toInt ^ exponent), Int64.toInt_ofInt_of_le ?_ ?_⟩
  · omega
  · omega

theorem Word.pow?_eq (a : Int64) (exponent : Nat) :
    Word.pow? a exponent = Word.ofInt? (a.toInt ^ exponent) := by
  have power : ∀ n, a.toInt.pow n = a.toInt ^ n := fun _ => rfl
  unfold Word.pow?
  rw [power, power]
  by_cases small : a.toInt.natAbs ≤ 1
  · rw [if_pos small, Word.pow_repeat small]
  rw [if_neg small]
  by_cases short : exponent < 64
  · rw [if_pos short]
  · have none := Word.pow_out_of_range (not_le.mp small) (not_lt.mp short)
    rw [if_neg short, Word.ofInt?_eq_none_iff.mpr none]

end Words

section Operands

variable {v l r : Value} {a b : Int64} {op : ArithOp}

theorem Value.toWord_of_number? (number : v.number? = some (.int a)) : v.toWord = a := by
  cases v with
  | str s =>
    obtain ⟨⟨n, whole⟩, found, same⟩ := Option.map_eq_some_iff.mp number
    obtain rfl : n = .int a := same
    simp only [Value.toWord, found]
  | null | bool | int | float | array => cases number <;> rfl

/-- The value is the exact integer if that is a word, and otherwise a given float. -/
structure ExactOrFloat (value : Value) (exact : Int) (float : Float) : Prop where
  word : ∀ i, value = .int i ↔ i.toInt = exact
  promoted : (∀ i : Int64, i.toInt ≠ exact) → value = .float float

theorem onNumbers_exactOrFloat {exact : Int} (words : op.onWords? a b = Word.ofInt? exact) :
    ExactOrFloat (op.onNumbers (.int a) (.int b)) exact
      (op.onFloats (Binary64.ofWord a) (Binary64.ofWord b)) := by
  unfold ArithOp.onNumbers
  dsimp only
  rw [words]
  cases found : Word.ofInt? exact with
  | some i =>
    have value := Word.ofInt?_eq_some_iff.mp found
    refine ⟨fun j => ?_, fun none => absurd value (none i)⟩
    rw [Value.int.injEq, ← value, Int64.toInt_inj, eq_comm]
  | none =>
    have nowhere := Word.ofInt?_eq_none_iff.mp found
    exact ⟨fun j => iff_of_false nofun (nowhere j), fun _ => rfl⟩

theorem apply_of_numbers (left : l.number? = some (.int a)) (right : r.number? = some (.int b))
    (possible : op = .div → b ≠ 0) :
    (op.apply l r).value = op.onNumbers (.int a) (.int b) := by
  have scalars : op.apply l r = op.onScalars l r := by
    cases l with
    | array => cases left
    | _ => cases op <;> rfl
  have divisible : ¬(op = .div ∧ Binary64.isZero (Number.int b).toFloat) :=
    fun ⟨division, zero⟩ => possible division (Binary64.isZero_ofWord.mp zero)
  rw [scalars, ArithOp.onScalars, left, right]
  dsimp only
  rw [if_neg divisible]
  rfl

theorem apply_exactOrFloat {exact : Int} (left : l.number? = some (.int a))
    (right : r.number? = some (.int b)) (possible : op = .div → b ≠ 0)
    (words : op.onWords? a b = Word.ofInt? exact) :
    ExactOrFloat (op.apply l r).value exact
      (op.onFloats (Binary64.ofWord a) (Binary64.ofWord b)) := by
  rw [apply_of_numbers left right possible]
  exact onNumbers_exactOrFloat words

theorem divided_by_zero (left : l.number? = some (.int a)) (right : r.number? = some (.int 0)) :
    (ArithOp.div.apply l r).value = .null := by
  have scalars : ArithOp.div.apply l r = ArithOp.div.onScalars l r := rfl
  have zero : Binary64.isZero (Number.int 0).toFloat = true := Binary64.isZero_ofWord.mpr rfl
  rw [scalars, ArithOp.onScalars, left, right]
  dsimp only
  rw [if_pos ⟨rfl, zero⟩]
  rfl

theorem divided (left : l.number? = some (.int a)) (right : r.number? = some (.int b))
    (divisor : b ≠ 0) :
    (∀ q, (ArithOp.div.apply l r).value = .int q ↔ q.toInt * b.toInt = a.toInt) ∧
      ((∀ q : Int64, q.toInt * b.toInt ≠ a.toInt) →
        (ArithOp.div.apply l r).value = .float (Binary64.ofWord a / Binary64.ofWord b)) := by
  have some : b.toInt ≠ 0 := fun zero => divisor (Int64.toInt_inj.mp zero)
  -- the machine divides exactly only where nothing is left and the quotient is a word
  by_cases exact : b.toInt ∣ a.toInt
  · have words : ArithOp.div.onWords? a b = Word.ofInt? (a.toInt / b.toInt) :=
      if_pos ⟨some, Int.emod_eq_zero_of_dvd exact⟩
    have quotient : ∀ q : Int64, q.toInt = a.toInt / b.toInt ↔ q.toInt * b.toInt = a.toInt := by
      intro q
      rw [eq_comm, Int.ediv_eq_iff_eq_mul_left some exact, eq_comm]
    obtain ⟨word, promoted⟩ := apply_exactOrFloat left right (fun _ => divisor) words
    exact ⟨fun q => (word q).trans (quotient q),
      fun none => promoted fun q => mt (quotient q).mp (none q)⟩
  · have words : ArithOp.div.onWords? a b = none :=
      if_neg fun ⟨_, zero⟩ => exact (Int.dvd_of_emod_eq_zero zero)
    have value : (ArithOp.div.apply l r).value =
        .float (Binary64.ofWord a / Binary64.ofWord b) := by
      rw [apply_of_numbers left right fun _ => divisor, ArithOp.onNumbers, words]
      rfl
    refine ⟨fun q => ?_, fun _ => value⟩
    rw [value]
    exact iff_of_false nofun fun product => exact ⟨q.toInt, by rw [← product, mul_comm]⟩

theorem modulo_of_numbers (left : l.number? = some (.int a)) (right : r.number? = some (.int b)) :
    (modulo l r).value = if b = 0 then .null else .int (Int64.ofInt (a.toInt.tmod b.toInt)) := by
  have allowed : ¬(l.number?.isNone || r.number?.isNone) := by simp [left, right]
  rw [modulo, if_neg allowed, Value.toWord_of_number? left, Value.toWord_of_number? right]
  split <;> rfl

theorem natAbs_remainder_lt (divisor : b ≠ 0) :
    (a.toInt.tmod b.toInt).natAbs < b.toInt.natAbs := by
  have some : b.toInt ≠ 0 := fun zero => divisor (Int64.toInt_inj.mp zero)
  rw [Int.natAbs_tmod]
  exact Nat.mod_lt _ (Int.natAbs_pos.mpr some)

theorem remainder_truncated (divisor : b ≠ 0) :
    a.toInt = b.toInt * a.toInt.tdiv b.toInt + a.toInt.tmod b.toInt ∧
      (a.toInt.tmod b.toInt).natAbs < b.toInt.natAbs ∧
      (a.toInt.tmod b.toInt = 0 ∨ (a.toInt.tmod b.toInt).sign = a.toInt.sign) := by
  refine ⟨(Int.mul_tdiv_add_tmod _ _).symm, natAbs_remainder_lt divisor, ?_⟩
  by_cases exact : b.toInt ∣ a.toInt
  · exact .inl (Int.tmod_eq_zero_of_dvd exact)
  · exact .inr (by rw [Int.sign_tmod, if_neg exact])

theorem toInt_remainder (divisor : b ≠ 0) :
    (Int64.ofInt (a.toInt.tmod b.toInt)).toInt = a.toInt.tmod b.toInt := by
  have below := natAbs_remainder_lt (a := a) divisor
  have := b.le_toInt
  have := b.toInt_lt
  apply Int64.toInt_ofInt_of_le
  · omega
  · omega

/-- Integer arithmetic never wraps around and has a value for all integers. A sum, a difference and
a product are exact or done on floats. A quotient is exact where the division is, null where the
divisor is zero, and done on floats elsewhere. A remainder is that of truncated division. -/
theorem integer_arithmetic (left : l.number? = some (.int a)) (right : r.number? = some (.int b)) :
    ExactOrFloat (ArithOp.add.apply l r).value (a.toInt + b.toInt)
        (Binary64.ofWord a + Binary64.ofWord b) ∧
      ExactOrFloat (ArithOp.sub.apply l r).value (a.toInt - b.toInt)
        (Binary64.ofWord a - Binary64.ofWord b) ∧
      ExactOrFloat (ArithOp.mul.apply l r).value (a.toInt * b.toInt)
        (Binary64.ofWord a * Binary64.ofWord b) ∧
      ((ArithOp.div.apply l r).value = .null ↔ b = 0) ∧
      (∀ q, (ArithOp.div.apply l r).value = .int q ↔ b ≠ 0 ∧ q.toInt * b.toInt = a.toInt) ∧
      (b ≠ 0 → (∀ q : Int64, q.toInt * b.toInt ≠ a.toInt) →
        (ArithOp.div.apply l r).value = .float (Binary64.ofWord a / Binary64.ofWord b)) ∧
      ((modulo l r).value = .null ↔ b = 0) ∧
      (b ≠ 0 → ∃ m : Int64, (modulo l r).value = .int m ∧
        a.toInt = b.toInt * a.toInt.tdiv b.toInt + m.toInt ∧
        m.toInt.natAbs < b.toInt.natAbs ∧ (m.toInt = 0 ∨ m.toInt.sign = a.toInt.sign)) := by
  refine ⟨apply_exactOrFloat left right nofun rfl, apply_exactOrFloat left right nofun rfl,
    apply_exactOrFloat left right nofun rfl, ?_⟩
  rw [modulo_of_numbers left right]
  by_cases zero : b = 0
  · subst zero
    rw [divided_by_zero left right]
    simp
  · obtain ⟨quotient, promoted⟩ := divided left right zero
    have number : (ArithOp.div.apply l r).value ≠ .null := by
      by_cases exact : ∃ q : Int64, q.toInt * b.toInt = a.toInt
      · obtain ⟨q, value⟩ := exact
        rw [(quotient q).mpr value]
        nofun
      · rw [promoted fun q value => exact ⟨q, value⟩]
        nofun
    rw [if_neg zero]
    refine ⟨iff_of_false number zero, fun q => ?_, fun _ => promoted, by simp [zero],
      fun _ => ⟨_, rfl, ?_⟩⟩
    · rw [quotient q]
      exact (and_iff_right zero).symm
    · rw [toInt_remainder zero]
      exact remainder_truncated zero

end Operands

theorem least_and_minus_one :
    (Value.str (32 :: Word.text Int64.minValue)).number? = some (.int Int64.minValue) ∧
      (Value.int (-1)).number? = some (.int (-1)) ∧
      (ArithOp.add.apply (.str (32 :: Word.text Int64.minValue)) (.int (-1))).value =
        .float (Binary64.ofWord Int64.minValue + Binary64.ofWord (-1)) ∧
      (ArithOp.sub.apply (.str (32 :: Word.text Int64.minValue)) (.int (-1))).value =
        .int (-9223372036854775807) ∧
      (ArithOp.mul.apply (.str (32 :: Word.text Int64.minValue)) (.int (-1))).value =
        .float (Binary64.ofWord Int64.minValue * Binary64.ofWord (-1)) ∧
      (ArithOp.div.apply (.str (32 :: Word.text Int64.minValue)) (.int (-1))).value =
        .float (Binary64.ofWord Int64.minValue / Binary64.ofWord (-1)) ∧
      (modulo (.str (32 :: Word.text Int64.minValue)) (.int (-1))).value = .int 0 := by
  have left : (Value.str (32 :: Word.text Int64.minValue)).number? =
      some (.int Int64.minValue) := rfl
  have right : (Value.int (-1)).number? = some (.int (-1)) := rfl
  have beyond : ∀ i : Int64, -9223372036854775808 ≤ i.toInt ∧ i.toInt < 9223372036854775808 :=
    fun i => ⟨i.le_toInt, i.toInt_lt⟩
  obtain ⟨sum, difference, product, -, -, quotient, -, remainder⟩ := integer_arithmetic left right
  refine ⟨left, right, sum.promoted fun i value => ?_, (difference.word _).mpr (by decide),
    product.promoted fun i value => ?_, quotient (by decide) fun q value => ?_, ?_⟩
  · have := beyond i
    have : i.toInt = -9223372036854775809 := value
    omega
  · have := beyond i
    have : i.toInt = 9223372036854775808 := value
    omega
  · have := beyond q
    have : q.toInt * -1 = -9223372036854775808 := value
    omega
  · obtain ⟨m, value, -, small, -⟩ := remainder (by decide)
    have : m.toInt.natAbs < 1 := small
    have zero : m = 0 := Int64.toInt_inj.mp (show m.toInt = 0 by omega)
    rw [value, zero]

section Powers

variable {a b : Int64}

theorem wide_power (wide : 2 ^ 32 ≤ b.toInt) :
    (ArithOp.pow.apply (.int a) (.int b)).value =
      .float (Float.pow (Binary64.ofWord a) (Binary64.ofWord b)) := by
  have operands : (ArithOp.pow.apply (.int a) (.int b)).value =
      ArithOp.pow.onNumbers (.int a) (.int b) := apply_of_numbers rfl rfl nofun
  have words : ArithOp.pow.onWords? a b = none := if_neg fun ⟨_, narrow⟩ => narrow.not_ge wide
  rw [operands, ArithOp.onNumbers, words]
  rfl

/-- A power of integers is exact or done on floats, unless the exponent is 2^32 or more and the base
is -1, 0 or 1. Then the power is a word, but it is done on floats all the same. -/
theorem integer_power (natural : 0 ≤ b.toInt) :
    (b.toInt < 2 ^ 32 ∨ 1 < a.toInt.natAbs →
        ExactOrFloat (ArithOp.pow.apply (.int a) (.int b)).value (a.toInt ^ b.toInt.toNat)
          (Float.pow (Binary64.ofWord a) (Binary64.ofWord b))) ∧
      (2 ^ 32 ≤ b.toInt → a.toInt.natAbs ≤ 1 →
        (∃ i : Int64, i.toInt = a.toInt ^ b.toInt.toNat) ∧
          (ArithOp.pow.apply (.int a) (.int b)).value =
            .float (Float.pow (Binary64.ofWord a) (Binary64.ofWord b))) := by
  have operands : (ArithOp.pow.apply (.int a) (.int b)).value =
      ArithOp.pow.onNumbers (.int a) (.int b) := apply_of_numbers rfl rfl nofun
  rw [operands]
  by_cases narrow : b.toInt < 2 ^ 32
  · have words : ArithOp.pow.onWords? a b = Word.ofInt? (a.toInt ^ b.toInt.toNat) := by
      rw [← Word.pow?_eq]
      exact if_pos ⟨natural, narrow⟩
    exact ⟨fun _ => onNumbers_exactOrFloat words, fun wide => absurd narrow wide.not_gt⟩
  · -- from 2^32 on the exponent is not tried on words, whatever the base is
    rw [← operands, wide_power (not_lt.mp narrow)]
    refine ⟨fun reach => ⟨fun i => iff_of_false nofun ?_, fun _ => rfl⟩, fun _ small => ⟨?_, rfl⟩⟩
    · exact Word.pow_out_of_range (reach.resolve_left narrow) (by omega) i
    · exact Word.exists_pow small b.toInt.toNat

theorem power_least :
    0 ≤ (63 : Int64).toInt ∧
      (ArithOp.pow.apply (.int (-2)) (.int 63)).value = .int Int64.minValue := by
  have natural : 0 ≤ (63 : Int64).toInt := by decide
  have exact := (integer_power (a := -2) natural).1 (.inl (by decide))
  exact ⟨natural, (exact.word _).mpr (by decide)⟩

theorem power_of_one_promoted :
    (1 : Int64).toInt = (1 : Int64).toInt ^ (4294967296 : Int64).toInt.toNat ∧
      (ArithOp.pow.apply (.int 1) (.int 4294967296)).value =
        .float (Float.pow (Binary64.ofWord 1) (Binary64.ofWord 4294967296)) ∧
      ¬∀ a b i : Int64, 0 ≤ b.toInt → i.toInt = a.toInt ^ b.toInt.toNat →
        (ArithOp.pow.apply (.int a) (.int b)).value = .int i := by
  have one : (1 : Int64).toInt = (1 : Int64).toInt ^ (4294967296 : Int64).toInt.toNat :=
    (one_pow _).symm
  have value : (ArithOp.pow.apply (.int 1) (.int 4294967296)).value =
      .float (Float.pow (Binary64.ofWord 1) (Binary64.ofWord 4294967296)) :=
    wide_power (by decide)
  refine ⟨one, value, fun exact => ?_⟩
  have other := exact 1 4294967296 1 (by decide) one
  rw [value] at other
  cases other

end Powers

end ConstExpr
