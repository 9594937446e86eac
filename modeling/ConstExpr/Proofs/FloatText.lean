import ConstExpr.Proofs.FloatFormat
import ConstExpr.Proofs.FloatValue
import ConstExpr.Proofs.IntegerText

/-!
The text of a float as a number. Whether it is written with an exponent, behind zeros or with a
point among its digits, the text is a numeral whose digits are the significant ones, so it spells
the float rounded to 14 significant digits. Its fraction has no zeros at the end but the one that
stands alone before an exponent.
-/

namespace ConstExpr.Binary64

open Decimal (stripped scientific Digits)

section Bytes

variable {digits : List Char}

theorem toNat_toUInt8 {c : Char} (digit : c.isDigit = true) :
    48 ≤ c.toNat ∧ c.toNat ≤ 57 ∧ c.toUInt8.toNat = c.toNat := by
  have range := Char.isDigit_iff_toNat.mp digit
  have low : '0'.toNat = 48 := rfl
  have high : '9'.toNat = 57 := rfl
  have byte : c.toUInt8.toNat = c.toNat % 256 := UInt32.toNat_toUInt8 c.val
  omega

theorem digits_ofAscii (every : ∀ c ∈ digits, c.isDigit = true) :
    Grammar.Digits (Bytes.ofAscii digits) := by
  intro b member
  obtain ⟨c, inside, rfl⟩ := List.mem_map.mp member
  obtain ⟨low, high, byte⟩ := toNat_toUInt8 (every c inside)
  have low' : 48 ≤ c.toUInt8 := by
    rw [UInt8.le_iff_toNat_le, byte]
    exact low
  have high' : c.toUInt8 ≤ 57 := by
    rw [UInt8.le_iff_toNat_le, byte]
    exact high
  rw [Bytes.isDigit, decide_eq_true low', decide_eq_true high', Bool.and_self]

theorem getLast?_ofAscii (every : ∀ c ∈ digits, c.isDigit = true)
    (last : digits.getLast? ≠ some '0') : (Bytes.ofAscii digits).getLast? ≠ some 48 := by
  intro zero
  rw [Bytes.ofAscii, List.getLast?_map, Option.map_eq_some_iff] at zero
  obtain ⟨c, found, byte⟩ := zero
  obtain ⟨-, -, same⟩ := toNat_toUInt8 (every c (List.mem_of_getLast? found))
  rw [byte] at same
  have letter : c = '0' := Char.toNat_inj.mp same.symm
  exact last (letter ▸ found)

theorem toNat_zeros (count : Nat) : Bytes.toNat (List.replicate count 48) = 0 := by
  induction count with
  | zero => rfl
  | succ count ih =>
    rw [List.replicate_succ', Grammar.toNat_concat, ih]
    rfl

end Bytes

section Numerals

variable {p : Bytes} {d : Digits} {negative : Bool}

theorem numericPrefix?_of_mem (found : p ∈ Grammar.numeral.matches') :
    ∃ n, numericPrefix? p = some (n, true) ∧ Grammar.Denotes p n := by
  have front : p.dropWhile Bytes.isBlank = p := by
    have plain : ∀ b, p.head? = some b → Bytes.isBlank b = false := by
      intro b first
      by_contra blank
      obtain ⟨digit, -, point⟩ := plain_of_isBlank (eq_true_of_ne_false blank)
      obtain ⟨σ, _, ep, signed, inside, -, rfl⟩ := Grammar.mem_numeral.mp found
      obtain ⟨whole, fraction, every, -, filled, rfl⟩ := Grammar.mem_decimal.mp inside
      rcases Grammar.mem_sign.mp signed with rfl | rfl | rfl
      · cases whole with
        | nil =>
          cases fraction with
          | none => exact filled rfl
          | some ds => exact point (Option.some.inj first).symm
        | cons c rest =>
          rw [Option.some.inj first.symm, every c List.mem_cons_self] at digit
          cases digit
      · exact blank (Option.some.inj first ▸ rfl)
      · exact blank (Option.some.inj first ▸ rfl)
    exact Grammar.dropWhile_append_of_head (a := []) (by simp) plain
  obtain ⟨n, σ, ep, written, rfl, read⟩ := Grammar.read_longest (List.prefix_refl p) found
    fun q inside _ => inside.length_le
  refine ⟨n.value, ?_, written.denotes⟩
  rw [numericPrefix?, front, read, List.drop_length]
  rfl

def amount (d : Digits) : ℚ :=
  Bytes.toNat (Bytes.ofAscii d.digits) * 10 ^ (d.exponent + 1 - d.digits.length)

structure Significant (d : Digits) : Prop where
  filled : d.digits ≠ []
  every : ∀ c ∈ d.digits, c.isDigit = true
  -- zeros at the end are not printed
  last : d.digits.getLast? ≠ some '0'

def signText (negative : Bool) : Bytes := if negative then [45] else []

def powerText (exponent : Int) : Bytes :=
  if exponent < -4 ∨ 14 ≤ exponent then
    69 :: (if exponent < 0 then 45 else 43) :: Word.natText exponent.natAbs
  else []

/-- What the text of some digits is as a numeral: it stands for the same number, there are digits
behind its point, and the last of them is no zero unless it is needed. -/
structure Shows (negative : Bool) (d : Digits) (n : Numeral) : Prop where
  written : Grammar.Written n (signText negative) (powerText d.exponent)
  text : Bytes.ofAscii ((if negative then ['-'] else []) ++ printedDigits d) =
    Grammar.spelling n (signText negative) (powerText d.exponent)
  sign : n.negative = negative
  amount : (Bytes.toNat (n.whole ++ n.fraction.getD []) : ℚ) *
    10 ^ (n.exponent.getD 0 - (n.fraction.getD []).length) = amount d
  power : n.exponent = if d.exponent < -4 ∨ 14 ≤ d.exponent then some d.exponent else none
  point : n.fraction ≠ some []
  last : (n.fraction.getD []).getLast? = some 48 → n.exponent.isSome ∧ n.fraction = some [48]

theorem signText_mem (negative : Bool) : signText negative ∈ Grammar.sign.matches' := by
  rw [Grammar.mem_sign]
  cases negative with
  | false => exact .inl rfl
  | true => exact .inr (.inr rfl)

theorem isNegative_signText (negative : Bool) :
    Grammar.isNegative (signText negative) = negative := by
  cases negative <;> rfl

theorem ofAscii_sign (negative : Bool) (text : List Char) :
    Bytes.ofAscii ((if negative then ['-'] else []) ++ text) =
      signText negative ++ Bytes.ofAscii text := by
  cases negative <;> rfl

theorem power_far {exponent : Int} (far : exponent < -4 ∨ 14 ≤ exponent) :
    powerText exponent ∈ Grammar.power.matches' ∧
      Grammar.integerValue (powerText exponent).tail = exponent := by
  have every : Grammar.Digits (Word.natText exponent.natAbs) := Word.isDigit_natText _
  have filled := Word.natText_ne_nil exponent.natAbs
  obtain ⟨b, mark⟩ : ∃ b : UInt8, (if exponent < 0 then 45 else 43) = b := ⟨_, rfl⟩
  have signed : [b] ∈ Grammar.sign.matches' ∧ Grammar.isNegative [b] = decide (exponent < 0) := by
    rw [Grammar.mem_sign, ← mark]
    split
    next below => exact ⟨.inr (.inr rfl), (decide_eq_true below).symm⟩
    next above => exact ⟨.inr (.inl rfl), (decide_eq_false above).symm⟩
  rw [powerText, if_pos far, mark]
  refine ⟨Grammar.mem_power.mpr ⟨69, _, rfl,
    Grammar.mem_integer.mpr ⟨[b], _, signed.1, filled, every, rfl⟩, rfl⟩, ?_⟩
  have value := Grammar.integerValue_append signed.1 every
  rw [signed.2, Word.toNat_natText] at value
  refine value.trans ?_
  split
  next below =>
    have := of_decide_eq_true below
    omega
  next above =>
    have := of_decide_eq_false (eq_false_of_ne_true above)
    omega

theorem ofAscii_power (exponent : Int) :
    Bytes.ofAscii ('E' :: (if exponent < 0 then '-' else '+') ::
      Nat.toDigits 10 exponent.natAbs) =
      69 :: (if exponent < 0 then 45 else 43) :: Word.natText exponent.natAbs := by
  split <;> rfl

theorem shows_exponential (significant : Significant d)
    (far : d.exponent < -4 ∨ 14 ≤ d.exponent) : ∃ n, Shows negative d n := by
  obtain ⟨digits, exponent⟩ := d
  obtain ⟨c, rest, rfl⟩ := List.exists_cons_of_ne_nil significant.filled
  have every := digits_ofAscii significant.every
  have last := getLast?_ofAscii significant.every significant.last
  dsimp only at far every last
  obtain ⟨fraction, behind⟩ : ∃ fraction, (if rest.isEmpty then ['0'] else rest) = fraction :=
    ⟨_, rfl⟩
  -- a single digit is followed by a zero
  have shape : (rest = [] ∧ fraction = ['0']) ∨ (rest ≠ [] ∧ fraction = rest) := by
    rw [← behind]
    cases rest with
    | nil => exact .inl ⟨rfl, rfl⟩
    | cons c rest => exact .inr ⟨List.cons_ne_nil c rest, rfl⟩
  have tail : Grammar.Digits (Bytes.ofAscii fraction) := by
    rcases shape with ⟨-, rfl⟩ | ⟨-, rfl⟩
    · refine digits_ofAscii fun c member => ?_
      rw [List.mem_singleton.mp member]
      rfl
    · exact fun b member => every b (List.mem_cons_of_mem _ member)
  refine ⟨⟨negative, Bytes.ofAscii [c], some (Bytes.ofAscii fraction), some exponent⟩, {
    written := {
      signed := signText_mem negative
      negative := (isNegative_signText negative).symm
      whole := fun b member => every b (List.mem_append_left _ member)
      fraction := tail
      filled := List.cons_ne_nil _ _
      powered := power_far far }
    sign := rfl
    power := (if_pos far).symm
    text := ?_
    amount := ?_
    point := ?_
    last := ?_ }⟩
  · have text : printedDigits ⟨c :: rest, exponent⟩ = c :: '.' :: fraction ++
        'E' :: (if exponent < 0 then '-' else '+') :: Nat.toDigits 10 exponent.natAbs := by
      rw [printedDigits, if_pos far]
      dsimp only
      rw [List.drop_one, List.tail_cons, behind]
      rfl
    rw [ofAscii_sign, text, Bytes.ofAscii, List.map_append, ← Bytes.ofAscii, ← Bytes.ofAscii,
      ofAscii_power, Grammar.spelling, powerText, if_pos far, List.append_assoc]
    rfl
  · rcases shape with ⟨rfl, rfl⟩ | ⟨-, rfl⟩
    · have number : Bytes.toNat (Bytes.ofAscii [c] ++ [48]) =
          Bytes.toNat (Bytes.ofAscii [c]) * 10 := Grammar.toNat_concat _ _
      have place : (10 : ℚ) ^ exponent = 10 * 10 ^ (exponent - 1) := by
        rw [← zpow_one_add₀ (by norm_num), add_sub_cancel]
      have zero : Bytes.ofAscii ['0'] = [48] := rfl
      simp only [amount, Option.getD_some, zero, number, List.length_singleton]
      push_cast
      rw [add_sub_cancel_right, place]
      ring
    · have place : exponent + 1 - ((c :: fraction).length : Int) = exponent - fraction.length := by
        rw [List.length_cons]
        omega
      have width : (Bytes.ofAscii fraction).length = fraction.length := List.length_map _
      simp only [amount, Option.getD_some, place, width]
      rfl
  · rcases shape with ⟨-, rfl⟩ | ⟨filled, rfl⟩
    · simp [Bytes.ofAscii]
    · simpa [Bytes.ofAscii] using filled
  · rcases shape with ⟨-, rfl⟩ | ⟨filled, rfl⟩
    · exact fun _ => ⟨rfl, rfl⟩
    · intro zero
      refine absurd ?_ last
      show (c.toUInt8 :: Bytes.ofAscii fraction).getLast? = some 48
      rw [List.getLast?_cons]
      exact congrArg (fun b : Option UInt8 => some (b.getD c.toUInt8)) zero

theorem ofAscii_zeros (count : Nat) :
    Bytes.ofAscii (List.replicate count '0') = List.replicate count 48 := List.map_replicate

theorem power_near {exponent : Int} (low : -4 ≤ exponent) (high : exponent < 14) :
    ¬(exponent < -4 ∨ 14 ≤ exponent) ∧ powerText exponent = [] := by
  have near : ¬(exponent < -4 ∨ 14 ≤ exponent) := by omega
  exact ⟨near, if_neg near⟩

theorem shows_small (significant : Significant d) (low : -4 ≤ d.exponent)
    (negative' : d.exponent < 0) : ∃ n, Shows negative d n := by
  obtain ⟨digits, exponent⟩ := d
  have every := digits_ofAscii significant.every
  have last := getLast?_ofAscii significant.every significant.last
  have filled := significant.filled
  dsimp only at low negative' every last filled
  obtain ⟨near, unwritten⟩ := power_near low (by omega)
  obtain ⟨zeros, before⟩ : ∃ zeros, (-exponent - 1).toNat = zeros := ⟨_, rfl⟩
  have some' : Bytes.ofAscii digits ≠ [] := by simpa [Bytes.ofAscii] using filled
  refine ⟨⟨negative, [48], some (List.replicate zeros 48 ++ Bytes.ofAscii digits), none⟩, {
    written := {
      signed := signText_mem negative
      negative := (isNegative_signText negative).symm
      whole := by simp [Grammar.Digits, Bytes.isDigit]
      fraction := ?_
      filled := List.cons_ne_nil _ _
      powered := unwritten }
    sign := rfl
    power := (if_neg near).symm
    text := ?_
    amount := ?_
    point := by simp [some']
    last := ?_ }⟩
  · intro b member
    rcases List.mem_append.mp member with zero | digit
    · rw [List.eq_of_mem_replicate zero]
      rfl
    · exact every b digit
  · have text : printedDigits ⟨digits, exponent⟩ =
        ['0', '.'] ++ List.replicate zeros '0' ++ digits := by
      rw [printedDigits, if_neg near, Decimal.positional, if_pos negative', before]
    rw [ofAscii_sign, text, Bytes.ofAscii, List.map_append, List.map_append, ← Bytes.ofAscii,
      ← Bytes.ofAscii, ← Bytes.ofAscii, ofAscii_zeros, Grammar.spelling, unwritten]
    rw [List.append_nil]
    rfl
  · have number : Bytes.toNat ([48] ++ (List.replicate zeros 48 ++ Bytes.ofAscii digits)) =
        Bytes.toNat (Bytes.ofAscii digits) := by
      have zero : Bytes.toNat [48] = 0 := rfl
      rw [Grammar.toNat_append, Grammar.toNat_append, toNat_zeros, zero]
      omega
    have place : 0 - ((List.replicate zeros 48 ++ Bytes.ofAscii digits).length : Int) =
        exponent + 1 - digits.length := by
      rw [List.length_append, List.length_replicate, Bytes.ofAscii, List.length_map]
      omega
    simp only [amount, Option.getD_some, Option.getD_none, number, place]
  · intro zero
    refine absurd ?_ last
    rw [Option.getD_some, List.getLast?_append_of_ne_nil _ some'] at zero
    exact zero

theorem toNat_places (b : Bytes) (count : Nat) :
    (Bytes.toNat (b.take count ++ List.replicate (count - b.length) 48 ++ b.drop count) : ℚ) *
      10 ^ (0 - ((b.drop count).length : Int)) =
      Bytes.toNat b * 10 ^ ((count : Int) - b.length) := by
  rcases le_total b.length count with short | long
  · have scale : (count : Int) - b.length = (count - b.length : Nat) := by omega
    rw [List.take_of_length_le short, List.drop_of_length_le short, List.append_nil,
      Grammar.toNat_append, toNat_zeros, List.length_replicate, scale, zpow_natCast]
    simp
  · have none : count - b.length = 0 := by omega
    have scale : 0 - ((b.drop count).length : Int) = count - b.length := by
      rw [List.length_drop]
      omega
    rw [none, List.replicate_zero, List.append_nil, List.take_append_drop, scale]

theorem shows_large (significant : Significant d) (nonneg : 0 ≤ d.exponent)
    (high : d.exponent < 14) : ∃ n, Shows negative d n := by
  obtain ⟨digits, exponent⟩ := d
  have every := digits_ofAscii significant.every
  have last := getLast?_ofAscii significant.every significant.last
  have filled := significant.filled
  dsimp only at nonneg high every last filled
  obtain ⟨near, unwritten⟩ := power_near (by omega) high
  obtain ⟨count, whole⟩ : ∃ count, exponent.toNat + 1 = count := ⟨_, rfl⟩
  obtain ⟨zeros, behind⟩ : ∃ zeros, count - digits.length = zeros := ⟨_, rfl⟩
  obtain ⟨fraction, rest⟩ : ∃ fraction, digits.drop count = fraction := ⟨_, rfl⟩
  have text : printedDigits ⟨digits, exponent⟩ =
      digits.take count ++ List.replicate zeros '0' ++
        (if fraction.isEmpty then [] else '.' :: fraction) := by
    rw [printedDigits, if_neg near, Decimal.positional, if_neg nonneg.not_gt]
    dsimp only
    rw [whole, behind, rest]
  obtain ⟨point, pointed⟩ : ∃ point : Option Bytes,
      (if fraction.isEmpty then none else some (Bytes.ofAscii fraction)) = point := ⟨_, rfl⟩
  have shape : point.getD [] = Bytes.ofAscii fraction ∧ point ≠ some [] ∧
      Grammar.pointText point =
        Bytes.ofAscii (if fraction.isEmpty then [] else '.' :: fraction) := by
    rw [← pointed]
    cases fraction with
    | nil => exact ⟨rfl, nofun, rfl⟩
    | cons c rest => exact ⟨rfl, nofun, rfl⟩
  obtain ⟨behindPoint, useful, spelled⟩ := shape
  have front : Bytes.ofAscii (digits.take count) ≠ [] := by
    cases digits with
    | nil => exact absurd rfl filled
    | cons c rest =>
      rw [← whole]
      exact List.cons_ne_nil _ _
  refine ⟨⟨negative, Bytes.ofAscii (digits.take count) ++ List.replicate zeros 48, point, none⟩, {
    written := {
      signed := signText_mem negative
      negative := (isNegative_signText negative).symm
      whole := ?_
      fraction := ?_
      filled := by simp [front]
      powered := unwritten }
    sign := rfl
    power := (if_neg near).symm
    text := ?_
    amount := ?_
    point := useful
    last := ?_ }⟩
  · intro b member
    rcases List.mem_append.mp member with digit | zero
    · have taken : ∀ c ∈ digits.take count, c.isDigit = true := fun c inside =>
        significant.every c (List.mem_of_mem_take inside)
      exact digits_ofAscii taken b digit
    · rw [List.eq_of_mem_replicate zero]
      rfl
  · dsimp only
    rw [behindPoint, ← rest]
    exact digits_ofAscii fun c inside => significant.every c (List.mem_of_mem_drop inside)
  · rw [ofAscii_sign, text, Bytes.ofAscii, List.map_append, List.map_append, ← Bytes.ofAscii,
      ← Bytes.ofAscii, ← Bytes.ofAscii, ofAscii_zeros, Grammar.spelling, unwritten, spelled,
      List.append_nil]
  · have place : exponent + 1 - (digits.length : Int) =
        count - ((Bytes.ofAscii digits).length : Int) := by
      rw [← whole, Bytes.ofAscii, List.length_map]
      omega
    have split := toNat_places (Bytes.ofAscii digits) count
    dsimp only
    rw [behindPoint, ← rest, ← behind, amount, place, ← split, Bytes.ofAscii, Bytes.ofAscii,
      Bytes.ofAscii, List.map_take, List.map_drop, List.length_map]
    rfl
  · intro zero
    refine absurd ?_ last
    dsimp only at zero
    rw [behindPoint, ← rest, Bytes.ofAscii, List.map_drop, List.getLast?_drop] at zero
    split at zero
    next => cases zero
    next => exact zero

end Numerals

section Printed

variable {d : Digits} {n : Numeral} {q : ℚ} {num den N : Nat} {exponent : Int} {negative : Bool}

theorem exists_shows (negative : Bool) (significant : Significant d) :
    ∃ n, Shows negative d n := by
  by_cases far : d.exponent < -4 ∨ 14 ≤ d.exponent
  · exact shows_exponential significant far
  · rcases lt_or_ge d.exponent 0 with below | above
    · exact shows_small significant (by omega) below
    · exact shows_large significant above (by omega)

theorem amount_stripped (leads : Decimal.Leads 14 q N exponent) :
    Significant ⟨stripped (Nat.toDigits 10 N), exponent⟩ ∧
      amount ⟨stripped (Nat.toDigits 10 N), exponent⟩ = N * 10 ^ (exponent + 1 - 14) := by
  have positive : 0 < N := (Nat.pow_pos (by decide)).trans_le leads.least
  have width := Decimal.length_toDigits (by decide) leads.least leads.below
  refine ⟨⟨stripped_ne_nil positive, isDigit_stripped N, getLast?_stripped _⟩, ?_⟩
  obtain ⟨zeros, split⟩ := exists_zeros (Nat.toDigits 10 N)
  have number := Word.toNat_natText N
  rw [Word.natText, split, Bytes.ofAscii, List.map_append, ← Bytes.ofAscii, ← Bytes.ofAscii,
    ofAscii_zeros, Grammar.toNat_append, toNat_zeros, List.length_replicate, add_zero] at number
  have count : (stripped (Nat.toDigits 10 N)).length + zeros = 14 := by
    have lengths := congrArg List.length split
    rw [width, List.length_append, List.length_replicate] at lengths
    exact lengths.symm
  -- each zero that was stripped is a factor of ten
  have place : (10 : ℚ) ^ (exponent + 1 - (stripped (Nat.toDigits 10 N)).length) =
      10 ^ zeros * 10 ^ (exponent + 1 - 14) := by
    rw [← zpow_natCast, ← zpow_add₀ (by norm_num)]
    congr 1
    omega
  have number' : (N : ℚ) = Bytes.toNat (Bytes.ofAscii (stripped (Nat.toDigits 10 N))) *
      10 ^ zeros := by exact_mod_cast number.symm
  rw [amount]
  dsimp only
  rw [place, ← mul_assoc, ← number']

theorem log_leads (leads : Decimal.Leads 14 q N exponent) :
    Int.log 10 ((N : ℚ) * 10 ^ (exponent + 1 - 14)) = exponent := by
  have unit : (0 : ℚ) < 10 ^ (exponent + 1 - 14) := zpow_pos (by norm_num) _
  have least : (10 : ℚ) ^ (13 : Int) ≤ N := by exact_mod_cast leads.least
  have below : (N : ℚ) < 10 ^ (14 : Int) := by exact_mod_cast leads.below
  apply Decimal.log_eq
  · calc (10 : ℚ) ^ exponent
      _ = 10 ^ (13 : Int) * 10 ^ (exponent + 1 - 14) := by
        rw [← zpow_add₀ (by norm_num)]
        congr 1
        omega
      _ ≤ N * 10 ^ (exponent + 1 - 14) := mul_le_mul_of_nonneg_right least unit.le
  · calc (N : ℚ) * 10 ^ (exponent + 1 - 14)
      _ < 10 ^ (14 : Int) * 10 ^ (exponent + 1 - 14) := mul_lt_mul_of_pos_right below unit
      _ = 10 ^ (exponent + 1) := by
        rw [← zpow_add₀ (by norm_num)]
        congr 1
        omega

theorem Shows.letter (shown : Shows negative d n) :
    69 ∈ Grammar.spelling n (signText negative) (powerText d.exponent) ↔
      d.exponent < -4 ∨ 14 ≤ d.exponent := by
  constructor
  · intro member
    by_contra near
    rw [powerText, if_neg near, Grammar.spelling, List.append_nil] at member
    rcases List.mem_append.mp member with sign | digit
    · cases negative <;> simp [signText] at sign
    · exact absurd (shown.written.plain 69 digit) (by decide)
  · intro far
    rw [powerText, if_pos far, Grammar.spelling]
    simp

theorem Shows.fraction_of_point (shown : Shows negative d n)
    (member : 46 ∈ Grammar.spelling n (signText negative) (powerText d.exponent)) :
    n.fraction.getD [] ≠ [] := by
  have useful := shown.point
  have every := shown.written.whole
  cases fraction : n.fraction with
  | some ds => simpa [fraction] using useful
  | none =>
    rw [Grammar.spelling, fraction, Grammar.pointText, List.append_nil] at member
    have digit {b : UInt8} (found : Bytes.isDigit b = true) : b ≠ 46 := by
      simpa using (Grammar.plain_of_isDigit found).2.2
    rcases List.mem_append.mp member with front | power
    · rcases List.mem_append.mp front with sign | whole
      · cases negative <;> simp [signText] at sign
      · exact absurd rfl (digit (every 46 whole))
    · unfold powerText at power
      split at power
      next =>
        rcases List.mem_cons.mp power with letter | after
        · cases letter
        · rcases List.mem_cons.mp after with mark | later
          · split at mark <;> cases mark
          · exact absurd rfl (digit (Word.isDigit_natText _ 46 later))
      next => cases power

/-- A text that spells a number rounded to 14 significant digits. -/
structure Spells (text : Bytes) (q : ℚ) : Prop where
  sign : Grammar.isNegative text ↔ q < 0
  -- the only number that the given one is rounded to
  rounded : ∀ r, Decimal.RoundsToDigits 14 |q| r ↔ r = Grammar.magnitude text
  -- a capital E stands before the exponent of the first digit, if that is far from zero
  letter : 69 ∈ text ↔
    Int.log 10 (Grammar.magnitude text) < -4 ∨ 14 ≤ Int.log 10 (Grammar.magnitude text)
  power : Grammar.exponentValue text =
    if 69 ∈ text then Int.log 10 (Grammar.magnitude text) else 0
  point : 46 ∈ text → Grammar.fractionPart text ≠ []
  zero : (Grammar.fractionPart text).getLast? = some 48 →
    69 ∈ text ∧ Grammar.fractionPart text = [48]
  numeric : ∃ n, numericPrefix? text = some (n, true) ∧ Grammar.Denotes text n

theorem spells_of_shows (shown : Shows (q < 0) d n)
    (rounded : Decimal.RoundsToDigits 14 |q| (amount d))
    (first : Int.log 10 (amount d) = d.exponent) :
    Spells (Grammar.spelling n (signText (q < 0)) (powerText d.exponent)) q := by
  have written := shown.written
  have magnitude : Grammar.magnitude
      (Grammar.spelling n (signText (q < 0)) (powerText d.exponent)) = amount d :=
    written.magnitude.trans shown.amount
  constructor
  · rw [written.isNegative, shown.sign, decide_eq_true_iff]
  · intro r
    rw [magnitude]
    exact ⟨fun other => other.unique rounded, fun same => same ▸ rounded⟩
  · rw [magnitude, first]
    exact shown.letter
  · rw [written.exponentValue, shown.power, magnitude, first]
    simp only [shown.letter]
    split <;> rfl
  · intro member
    rw [written.parts.2]
    exact shown.fraction_of_point member
  · rw [written.parts.2, shown.letter]
    intro zero
    obtain ⟨power, fraction⟩ := shown.last zero
    rw [shown.power] at power
    refine ⟨?_, by rw [fraction]; rfl⟩
    by_contra near
    rw [if_neg near] at power
    cases power
  · exact numericPrefix?_of_mem written.mem_numeral

/-- A finite float other than zero is printed with 14 significant digits, and two roundings that do
not know of each other print it in the same way. -/
theorem printed_spells (x : Float) (found : value x = some q) (nonzero : q ≠ 0) :
    formatted x = printed x ∧ Spells (Bytes.ofAscii (printed x)) q := by
  refine ⟨formatted_eq x, ?_⟩
  obtain ⟨s, m, e, reading, same⟩ := exists_read_of_value found
  have filled : m ≠ 0 := by
    rintro rfl
    rw [size_zero, neg_zero, ite_self] at same
    exact nonzero same
  have above := size_pos (Nat.pos_of_ne_zero filled) e
  have sign : decide (q < 0) = s := by
    rw [same]
    cases s with
    | false => simpa using above.le
    | true => simpa using above
  have positive := (Decimal.fraction_spec m e).1
  have some' := Decimal.fraction_pos (Nat.pos_of_ne_zero filled) e
  have leads : Decimal.Leads 14 _ _ _ := Decimal.leads_scientific (by decide) some' positive
  rw [(Decimal.fraction_spec m e).2, ← abs_eq_size same] at leads
  -- the printed digits are those of the leading integer, without the zeros at their end
  obtain ⟨significant, value⟩ := amount_stripped leads
  obtain ⟨n, shown⟩ := exists_shows (decide (q < 0)) significant
  have text : printed x = (if decide (q < 0) = true then ['-'] else []) ++
      printedDigits ⟨stripped (Nat.toDigits 10
        (scientific 14 (Decimal.fraction m e).1 (Decimal.fraction m e).2).1),
        (scientific 14 (Decimal.fraction m e).1 (Decimal.fraction m e).2).2⟩ := by
    rw [sign]
    unfold printed
    rw [reading]
    dsimp only
    rw [if_neg filled, Decimal.significant_eq (by decide) some' positive]
  rw [text, shown.text]
  refine spells_of_shows shown ?_ ?_
  · rw [value]
    exact leads.value
  · rw [value]
    exact log_leads leads

theorem tie_carried :
    value 99999999999999.5 = some (199999999999999 / 2) ∧ (199999999999999 / 2 : ℚ) ≠ 0 ∧
      formatted 99999999999999.5 = ['1', '.', '0', 'E', '+', '1', '4'] ∧
      Spells (Bytes.ofAscii ['1', '.', '0', 'E', '+', '1', '4']) (199999999999999 / 2) := by
  have reading : read 99999999999999.5 = .finite false 6399999999999968 (-6) := by decide +kernel
  have found : value 99999999999999.5 = some (199999999999999 / 2) := by
    rw [value, reading, Reading.value]
    norm_num [size]
  have nonzero : (199999999999999 / 2 : ℚ) ≠ 0 := by norm_num
  -- at the tie the even one is the power of ten, so the digits carry
  have text : printed 99999999999999.5 = ['1', '.', '0', 'E', '+', '1', '4'] := by
    decide +kernel
  obtain ⟨same, spells⟩ := printed_spells 99999999999999.5 found nonzero
  rw [text] at same spells
  exact ⟨found, nonzero, same, spells⟩

end Printed

end ConstExpr.Binary64
