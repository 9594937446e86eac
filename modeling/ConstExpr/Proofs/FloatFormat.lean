import ConstExpr.Proofs.DecimalText
import ConstExpr.Proofs.SignificantDigits

/-!
Two roundings of one float. The first, to 14 significant digits, finds the exponent and the digits
of a text with an exponent. The digits of a text without one come from a second rounding, to the
places that the exponent leaves, and zeros are taken off behind a point only. Both find the same
digits, also where rounding carries into a new power of ten.
-/

namespace ConstExpr.Binary64

open Decimal (stripped scientific lastDigits Digits)

section Steps

def mantissaText (n : Nat) : List Char :=
  (Nat.toDigits 10 n).take 1 ++ '.' :: (Nat.toDigits 10 n).drop 1

def fixedText (places num den : Nat) : List Char :=
  let (n, d) := Decimal.scale num den places
  let rounded := Decimal.roundEven n d
  Nat.toDigits 10 (rounded / 10 ^ places) ++
    if places = 0 then [] else '.' :: lastDigits places rounded

/-- A text without the zeros after its point, and without the point if nothing stands behind it. A
text without a point keeps its zeros. -/
def trimmed (text : List Char) : List Char :=
  if text.contains '.' then (text.rdropWhile (· == '0')).rdropWhile (· == '.') else text

/-- The text of a float from two roundings. -/
def formatted (x : Float) : List Char :=
  match read x with
  | .nan => ['N', 'A', 'N']
  | .infinite negative => (if negative then ['-'] else []) ++ ['I', 'N', 'F']
  | .finite negative mantissa exponent =>
    let sign := if negative then ['-'] else []
    if mantissa = 0 then sign ++ ['0']
    else
      let (num, den) := Decimal.fraction mantissa exponent
      let (digits, exponent) := scientific 14 num den
      if exponent < -4 ∨ 14 ≤ exponent then
        let text := trimmed (sign ++ mantissaText digits)
        (if text.contains '.' then text else text ++ ['.', '0']) ++
          'E' :: (if exponent < 0 then '-' else '+') :: Nat.toDigits 10 exponent.natAbs
      else trimmed (sign ++ fixedText (13 - exponent).toNat num den)

end Steps

section Trimming

variable {digits rest whole fraction : List Char} {c : Char}

theorem rdropWhile_append (f : Char → Bool) (a b : List Char) : (a ++ b).rdropWhile f =
    if b.rdropWhile f = [] then a.rdropWhile f else a ++ b.rdropWhile f := by
  induction b using List.reverseRecOn with
  | nil => simp
  | append_singleton b c ih =>
    rw [← List.append_assoc, List.rdropWhile_concat, List.rdropWhile_concat, ih]
    split
    · rfl
    · simp

theorem stripped_cons (leading : c ≠ '0') (rest : List Char) :
    stripped (c :: rest) = c :: stripped rest := by
  have front : [c].rdropWhile (· == '0') = [c] := by
    rw [List.rdropWhile_singleton, if_neg (by simpa using leading)]
  have split := rdropWhile_append (· == '0') [c] rest
  rw [front] at split
  show (c :: rest).rdropWhile (· == '0') = _
  refine split.trans ?_
  split
  next none => rw [stripped, none]
  next => rfl

theorem exists_zeros (digits : List Char) :
    ∃ zeros, digits = stripped digits ++ List.replicate zeros '0' := by
  refine ⟨(digits.rtakeWhile (· == '0')).length, ?_⟩
  have zeros : digits.rtakeWhile (· == '0') =
      List.replicate (digits.rtakeWhile (· == '0')).length '0' := by
    apply List.eq_replicate_of_mem
    intro c member
    have zero := List.mem_rtakeWhile_imp member
    exact eq_of_beq zero
  rw [← zeros]
  exact List.rdropWhile_append_rtakeWhile.symm

theorem stripped_zeros (digits : List Char) (zeros : Nat) :
    stripped (digits ++ List.replicate zeros '0') = stripped digits := by
  have none : (List.replicate zeros '0').rdropWhile (· == '0') = [] := by
    rw [List.rdropWhile_eq_nil_iff]
    intro c member
    simp [List.eq_of_mem_replicate member]
  rw [stripped, rdropWhile_append, if_pos none]
  rfl

theorem getLast?_stripped (digits : List Char) : (stripped digits).getLast? ≠ some '0' := by
  intro zero
  have filled : stripped digits ≠ [] := by
    rintro none
    rw [none] at zero
    cases zero
  have last := List.rdropWhile_last_not (· == '0') digits filled
  rw [List.getLast?_eq_getLast_of_ne_nil filled] at zero
  exact last (by simpa [stripped] using zero)

theorem stripped_drop (digits : List Char) (count : Nat) :
    stripped (digits.drop count) = (stripped digits).drop count := by
  obtain ⟨zeros, split⟩ := exists_zeros digits
  have last := getLast?_stripped digits
  obtain ⟨front, same⟩ : ∃ front, stripped digits = front := ⟨_, rfl⟩
  rw [same] at split last ⊢
  have kept : stripped (front.drop count) = front.drop count := by
    refine List.rdropWhile_eq_self_iff.mpr fun filled => ?_
    have within : (front.drop count).getLast? = front.getLast? := by
      rw [List.getLast?_drop, if_neg]
      exact not_le.mpr (List.length_lt_of_drop_ne_nil filled)
    rw [List.getLast?_eq_getLast_of_ne_nil filled] at within
    rw [← within] at last
    simpa using last
  rw [split, List.drop_append, List.drop_replicate, stripped_zeros, kept]

theorem take_stripped {count : Nat} (short : count ≤ digits.length) : digits.take count =
    (stripped digits).take count ++ List.replicate (count - (stripped digits).length) '0' := by
  obtain ⟨zeros, split⟩ := exists_zeros digits
  have lengths := congrArg List.length split
  rw [List.length_append, List.length_replicate] at lengths
  have enough : min (count - (stripped digits).length) zeros =
      count - (stripped digits).length := by omega
  calc digits.take count
    _ = (stripped digits ++ List.replicate zeros '0').take count := by rw [← split]
    _ = (stripped digits).take count ++
        List.replicate (count - (stripped digits).length) '0' := by
      rw [List.take_append, List.take_replicate, enough]

theorem trimmed_point (front : '.' ∉ whole) (plain : '.' ∉ fraction) :
    trimmed (whole ++ '.' :: fraction) =
      whole ++ if (stripped fraction).isEmpty then [] else '.' :: stripped fraction := by
  have point : (whole ++ '.' :: fraction).contains '.' = true := by simp
  have zeros : (whole ++ '.' :: fraction).rdropWhile (· == '0') =
      whole ++ '.' :: stripped fraction := by
    rw [rdropWhile_append, ← stripped, stripped_cons (by decide), if_neg (List.cons_ne_nil _ _)]
  have unpointed {text : List Char} (none : '.' ∉ text) : text.rdropWhile (· == '.') = text := by
    refine List.rdropWhile_eq_self_iff.mpr fun filled last => none ?_
    rw [← eq_of_beq last]
    exact List.getLast_mem filled
  rw [trimmed, if_pos point, zeros, rdropWhile_append]
  cases digits : stripped fraction with
  | nil =>
    -- nothing is left behind the point, so the point goes too
    have bare : ['.'].rdropWhile (· == '.') = [] := rfl
    rw [if_pos bare, unpointed front]
    simp
  | cons c rest =>
    have stays : (c :: rest).rdropWhile (· == '.') = c :: rest := by
      rw [← digits]
      exact unpointed fun member =>
        plain ((List.rdropWhile_prefix (· == '0') fraction).subset member)
    have behind : ('.' :: c :: rest).rdropWhile (· == '.') = '.' :: c :: rest := by
      have split := rdropWhile_append (· == '.') ['.'] (c :: rest)
      rw [stays, if_neg (List.cons_ne_nil c rest)] at split
      exact split
    rw [behind, if_neg (List.cons_ne_nil _ _), List.isEmpty_cons, if_neg Bool.false_ne_true]

theorem trimmed_plain {text : List Char} (plain : '.' ∉ text) : trimmed text = text := by
  rw [trimmed, if_neg (by simpa using plain)]

end Trimming

section Agreement

variable {num den n : Nat} {exponent : Int} {sign : List Char}

theorem not_mem_of_isDigit {digits : List Char} (every : ∀ c ∈ digits, c.isDigit = true) :
    '.' ∉ digits := fun member => absurd (every '.' member) (by decide)

theorem isDigit_toDigits (n : Nat) : ∀ c ∈ Nat.toDigits 10 n, c.isDigit = true := fun _ member =>
  Nat.isDigit_of_mem_toDigits (by decide) (by decide) member

theorem isDigit_stripped (n : Nat) : ∀ c ∈ stripped (Nat.toDigits 10 n), c.isDigit = true :=
  fun c member =>
    isDigit_toDigits n c ((List.rdropWhile_prefix (· == '0') (Nat.toDigits 10 n)).subset member)

theorem not_mem_take {digits : List Char} (signed : '.' ∉ sign)
    (every : ∀ c ∈ digits, c.isDigit = true) (count : Nat) : '.' ∉ sign ++ digits.take count := by
  rw [List.mem_append, not_or]
  exact ⟨signed, fun member => not_mem_of_isDigit every (List.mem_of_mem_take member)⟩

theorem isDigit_lastDigits (count n : Nat) : ∀ c ∈ lastDigits count n, c.isDigit = true := by
  induction count generalizing n with
  | zero => nofun
  | succ count ih =>
    intro c member
    rcases List.mem_append.mp member with early | last
    · exact ih (n / 10) c early
    · have single : Nat.toDigits 10 (n % 10) = [Nat.digitChar (n % 10)] :=
        Nat.toDigits_of_lt_base (Nat.mod_lt n (by decide))
      rw [← single] at last
      exact isDigit_toDigits _ c last

theorem head_toDigits (positive : 0 < n) : (Nat.toDigits 10 n).head? ≠ some '0' := by
  intro zero
  apply Word.head_natText positive
  rw [Word.natText, Bytes.ofAscii, List.head?_map, zero]
  rfl

theorem exists_digits (positive : 0 < n) :
    ∃ c rest, Nat.toDigits 10 n = c :: rest ∧ c ≠ '0' := by
  obtain ⟨c, rest, digits⟩ := List.exists_cons_of_ne_nil (Nat.toDigits_ne_nil (n := n) (b := 10))
  refine ⟨c, rest, digits, ?_⟩
  rintro rfl
  exact head_toDigits positive (by rw [digits]; rfl)

theorem stripped_ne_nil (positive : 0 < n) : stripped (Nat.toDigits 10 n) ≠ [] := by
  obtain ⟨c, rest, digits, leading⟩ := exists_digits positive
  rw [digits, stripped_cons leading]
  exact List.cons_ne_nil _ _

theorem roundEven_places (leads : Decimal.Leads 14 (num / den) n exponent) (positive : 0 < den)
    (low : exponent ≤ 13) :
    Decimal.roundEven (Decimal.scale num den (13 - exponent).toNat).1
      (Decimal.scale num den (13 - exponent).toNat).2 = n := by
  obtain ⟨scaled, quotient⟩ := Decimal.scale_spec num positive (13 - exponent).toNat
  -- rounding to these places is rounding to the 14 digits, and the result is unique
  have rounds := Decimal.roundEven_spec (Decimal.scale num den (13 - exponent).toNat).1 scaled
  have places : (((13 - exponent).toNat : Nat) : Int) = (14 : Nat) - 1 - exponent := by omega
  rw [quotient] at rounds
  rw [places] at rounds ⊢
  exact rounds.unique leads.place

theorem trimmed_fixedText (leads : Decimal.Leads 14 (num / den) n exponent) (positive : 0 < den)
    (low : exponent ≤ 13) (signed : '.' ∉ sign) :
    trimmed (sign ++ fixedText (13 - exponent).toNat num den) =
      sign ++ Decimal.positional ⟨stripped (Nat.toDigits 10 n), exponent⟩ := by
  have width := Decimal.length_toDigits (by decide) leads.least leads.below
  have least : 10 ^ 13 ≤ n := leads.least
  have filled : stripped (Nat.toDigits 10 n) ≠ [] := stripped_ne_nil (by omega)
  unfold fixedText Decimal.positional
  dsimp only
  rw [roundEven_places leads positive low]
  rcases lt_or_ge exponent 0 with negative | nonneg
  · -- zeros stand between the point and the first digit
    have places : (13 - exponent).toNat = (-exponent - 1).toNat + (Nat.toDigits 10 n).length := by
      omega
    have whole : n / 10 ^ (13 - exponent).toNat = 0 := by
      apply Nat.div_eq_of_lt
      exact leads.below.trans_le (Nat.pow_le_pow_right (by decide) (by omega))
    have front : '.' ∉ sign ++ ['0'] := by simp [signed]
    have digits : stripped (List.replicate (-exponent - 1).toNat '0' ++ Nat.toDigits 10 n) =
        List.replicate (-exponent - 1).toNat '0' ++ stripped (Nat.toDigits 10 n) := by
      rw [stripped, rdropWhile_append, ← stripped, if_neg filled]
    have point : '.' ∉ lastDigits ((-exponent - 1).toNat + (Nat.toDigits 10 n).length) n :=
      not_mem_of_isDigit (isDigit_lastDigits _ n)
    rw [if_pos negative, whole, Nat.toDigits_zero, places, if_neg (by omega), ← List.append_assoc,
      trimmed_point front point, Decimal.lastDigits_long, digits, if_neg (by simp [filled])]
    simp
  · have long : 10 ^ (13 - exponent).toNat ≤ n :=
      (Nat.pow_le_pow_right (by decide) (by omega)).trans least
    have places : (Nat.toDigits 10 n).length = exponent.toNat + 1 + (13 - exponent).toNat := by
      omega
    obtain ⟨front, back⟩ := Decimal.toDigits_places long places
    rw [if_neg nonneg.not_gt, front, back, ← take_stripped (by omega), ← stripped_drop]
    have front := not_mem_take signed (isDigit_toDigits n) (exponent.toNat + 1)
    by_cases whole : (13 - exponent).toNat = 0
    · -- the zeros of an integer stay
      have none : (Nat.toDigits 10 n).drop (exponent.toNat + 1) = [] :=
        List.drop_eq_nil_of_le (by omega)
      rw [if_pos whole, List.append_nil, trimmed_plain front, none]
      simp [stripped]
    · have plain : '.' ∉ (Nat.toDigits 10 n).drop (exponent.toNat + 1) := fun member =>
        not_mem_of_isDigit (isDigit_toDigits n) (List.mem_of_mem_drop member)
      rw [if_neg whole, ← List.append_assoc, trimmed_point front plain, List.append_assoc]

theorem trimmed_mantissaText (positive : 0 < n) (signed : '.' ∉ sign) :
    trimmed (sign ++ mantissaText n) = sign ++ (stripped (Nat.toDigits 10 n)).take 1 ++
      if ((stripped (Nat.toDigits 10 n)).drop 1).isEmpty then []
      else '.' :: (stripped (Nat.toDigits 10 n)).drop 1 := by
  have plain : '.' ∉ (Nat.toDigits 10 n).drop 1 := fun member =>
    not_mem_of_isDigit (isDigit_toDigits n) (List.mem_of_mem_drop member)
  have first : (Nat.toDigits 10 n).take 1 = (stripped (Nat.toDigits 10 n)).take 1 := by
    obtain ⟨c, rest, digits, leading⟩ := exists_digits positive
    rw [digits, stripped_cons leading]
    rfl
  have front := not_mem_take signed (isDigit_toDigits n) 1
  rw [mantissaText, ← List.append_assoc, trimmed_point front plain, stripped_drop, first]

/-- Both roundings find the same digits. -/
theorem formatted_eq (x : Float) : formatted x = printed x := by
  unfold formatted printed
  cases reading : read x with
  | nan => rfl
  | infinite s => rfl
  | finite s m e =>
    dsimp only
    by_cases zero : m = 0
    · rw [if_pos zero, if_pos zero]
    · rw [if_neg zero, if_neg zero]
      have positive := (Decimal.fraction_spec m e).1
      have filled := Decimal.fraction_pos (Nat.pos_of_ne_zero zero) e
      have leads : Decimal.Leads 14 _ _ _ :=
        Decimal.leads_scientific (by decide) filled positive
      have signed : '.' ∉ if s = true then ['-'] else [] := by cases s <;> decide
      rw [Decimal.significant_eq (by decide) filled positive]
      unfold printedDigits
      dsimp only
      split
      next far =>
        have some : 0 < (scientific 14 (Decimal.fraction m e).1 (Decimal.fraction m e).2).1 :=
          (Nat.pow_pos (by decide)).trans_le leads.least
        have front := not_mem_take signed (isDigit_stripped
          (scientific 14 (Decimal.fraction m e).1 (Decimal.fraction m e).2).1) 1
        rw [trimmed_mantissaText some signed]
        generalize stripped _ = digits at front ⊢
        -- a single digit gets its point and a zero back
        cases rest : digits.drop 1 with
        | nil =>
          rw [List.isEmpty_nil, if_pos rfl, List.append_nil, if_neg (by simpa using front)]
          simp
        | cons c rest => simp
      next near =>
        exact trimmed_fixedText leads positive (by omega) signed

end Agreement

end ConstExpr.Binary64
