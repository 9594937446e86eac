import ConstExpr.Proofs.DecimalRounding
import Mathlib.Computability.RegularExpressions

/-!
The grammar of numbers in strings. A regular expression says which texts are numerals, and a few
functions on texts say which number a numeral stands for. The reader of numerals finds one exactly
where the grammar does, and then the longest one, with the number that it stands for.
-/

namespace ConstExpr.Grammar

section Patterns

def oneOf : List UInt8 → RegularExpression UInt8
  | [] => 0
  | b :: bs => .char b + oneOf bs

def digitBytes : List UInt8 := [48, 49, 50, 51, 52, 53, 54, 55, 56, 57]

def digit : RegularExpression UInt8 := oneOf digitBytes

def digits : RegularExpression UInt8 := digit * .star digit

def sign : RegularExpression UInt8 := 1 + oneOf [43, 45]

def integer : RegularExpression UInt8 := sign * digits

def decimal : RegularExpression UInt8 := digits * (1 + .char 46 * .star digit) + .char 46 * digits

def power : RegularExpression UInt8 := oneOf [69, 101] * integer

def numeral : RegularExpression UInt8 := sign * decimal * (1 + power)

def isSign (b : UInt8) : Bool := b == 43 || b == 45

def isLetter (b : UInt8) : Bool := b == 69 || b == 101

variable {p : Bytes}

def Digits (p : Bytes) : Prop := ∀ b ∈ p, Bytes.isDigit b = true

theorem mem_oneOf {bs : List UInt8} : p ∈ (oneOf bs).matches' ↔ ∃ b ∈ bs, p = [b] := by
  induction bs with
  | nil => simp [oneOf]
  | cons b bs ih =>
    have one : p ∈ (RegularExpression.char b).matches' ↔ p = [b] := Iff.rfl
    rw [oneOf, RegularExpression.matches'_add, Language.mem_add, one, ih]
    simp

theorem isDigit_iff {b : UInt8} : Bytes.isDigit b = true ↔ b ∈ digitBytes := by
  simp only [Bytes.isDigit, digitBytes, Bool.and_eq_true, decide_eq_true_iff,
    UInt8.le_iff_toNat_le, List.mem_cons, List.not_mem_nil, or_false, ← UInt8.toNat_inj]
  simp
  omega

theorem mem_digit : p ∈ digit.matches' ↔ ∃ b, Bytes.isDigit b = true ∧ p = [b] := by
  rw [digit, mem_oneOf]
  simp only [isDigit_iff]

theorem mem_star_digit : p ∈ (RegularExpression.star digit).matches' ↔ Digits p := by
  rw [RegularExpression.matches'_star, Language.mem_kstar]
  constructor
  · rintro ⟨parts, rfl, every⟩ b member
    obtain ⟨part, found, inside⟩ := List.mem_flatten.mp member
    obtain ⟨c, isDigit, rfl⟩ := mem_digit.mp (every part found)
    rwa [List.mem_singleton.mp inside]
  · intro every
    refine ⟨p.map fun b => [b], ?_, fun part found => ?_⟩
    · induction p with
      | nil => rfl
      | cons b p ih => simpa using ih fun c member => every c (List.mem_cons_of_mem b member)
    · obtain ⟨b, member, rfl⟩ := List.mem_map.mp found
      exact mem_digit.mpr ⟨b, every b member, rfl⟩

theorem mem_digits : p ∈ digits.matches' ↔ p ≠ [] ∧ Digits p := by
  rw [digits, RegularExpression.matches'_mul, Language.mem_mul]
  constructor
  · rintro ⟨first, one, more, rest, rfl⟩
    obtain ⟨b, isDigit, rfl⟩ := mem_digit.mp one
    refine ⟨by simp, fun c member => ?_⟩
    rcases List.mem_cons.mp member with rfl | later
    · exact isDigit
    · exact mem_star_digit.mp rest c later
  · rintro ⟨some, every⟩
    obtain ⟨b, more, rfl⟩ := List.exists_cons_of_ne_nil some
    exact ⟨[b], mem_digit.mpr ⟨b, every b List.mem_cons_self, rfl⟩, more,
      mem_star_digit.mpr fun c member => every c (List.mem_cons_of_mem b member), rfl⟩

theorem mem_sign : p ∈ sign.matches' ↔ p = [] ∨ p = [43] ∨ p = [45] := by
  rw [sign, RegularExpression.matches'_add, Language.mem_add, mem_oneOf]
  simp [Language.mem_one]

theorem mem_integer : p ∈ integer.matches' ↔
    ∃ σ ds, σ ∈ sign.matches' ∧ ds ≠ [] ∧ Digits ds ∧ p = σ ++ ds := by
  rw [integer, RegularExpression.matches'_mul, Language.mem_mul]
  constructor
  · rintro ⟨σ, signed, ds, more, rfl⟩
    obtain ⟨some, every⟩ := mem_digits.mp more
    exact ⟨σ, ds, signed, some, every, rfl⟩
  · rintro ⟨σ, ds, signed, some, every, rfl⟩
    exact ⟨σ, signed, ds, mem_digits.mpr ⟨some, every⟩, rfl⟩

theorem mem_power : p ∈ power.matches' ↔
    ∃ b q, isLetter b = true ∧ q ∈ integer.matches' ∧ p = b :: q := by
  rw [power, RegularExpression.matches'_mul, Language.mem_mul]
  constructor
  · rintro ⟨first, one, q, more, rfl⟩
    obtain ⟨b, letter, rfl⟩ := mem_oneOf.mp one
    exact ⟨b, q, by simpa [isLetter] using letter, more, rfl⟩
  · rintro ⟨b, q, letter, more, rfl⟩
    exact ⟨[b], mem_oneOf.mpr ⟨b, by simpa [isLetter] using letter, rfl⟩, q, more, rfl⟩

def pointText : Option Bytes → Bytes
  | none => []
  | some fraction => 46 :: fraction

theorem mem_decimal : p ∈ decimal.matches' ↔
    ∃ whole fraction, Digits whole ∧ Digits (fraction.getD []) ∧
      whole ++ fraction.getD [] ≠ [] ∧ p = whole ++ pointText fraction := by
  have point : ∀ q, q ∈ (1 + RegularExpression.char 46 * .star digit).matches' ↔
      ∃ fraction : Option Bytes, Digits (fraction.getD []) ∧ q = pointText fraction := by
    intro q
    rw [RegularExpression.matches'_add, Language.mem_add, RegularExpression.matches'_epsilon,
      Language.mem_one, RegularExpression.matches'_mul, Language.mem_mul]
    constructor
    · rintro (rfl | ⟨_, rfl, fraction, more, rfl⟩)
      · exact ⟨none, by simp [Digits], rfl⟩
      · exact ⟨some fraction, mem_star_digit.mp more, rfl⟩
    · rintro ⟨_ | fraction, every, rfl⟩
      · exact .inl rfl
      · exact .inr ⟨[46], rfl, fraction, mem_star_digit.mpr every, rfl⟩
  rw [decimal, RegularExpression.matches'_add, Language.mem_add, RegularExpression.matches'_mul,
    Language.mem_mul, RegularExpression.matches'_mul, Language.mem_mul]
  constructor
  · rintro (⟨whole, front, q, back, rfl⟩ | ⟨_, rfl, fraction, more, rfl⟩)
    · obtain ⟨some, every⟩ := mem_digits.mp front
      obtain ⟨fraction, rest, rfl⟩ := (point q).mp back
      exact ⟨whole, fraction, every, rest, by simp [some], rfl⟩
    · obtain ⟨some, every⟩ := mem_digits.mp more
      exact ⟨[], .some fraction, by simp [Digits], every, by simpa using some, rfl⟩
  · rintro ⟨whole, fraction, every, rest, some, rfl⟩
    by_cases front : whole = []
    · subst front
      cases fraction with
      | none => simp at some
      | some ds => exact .inr ⟨[46], rfl, ds, mem_digits.mpr ⟨by simpa using some, rest⟩, rfl⟩
    · exact .inl ⟨whole, mem_digits.mpr ⟨front, every⟩, pointText fraction,
        (point _).mpr ⟨fraction, rest, rfl⟩, rfl⟩

theorem mem_numeral : p ∈ numeral.matches' ↔
    ∃ σ d ep, σ ∈ sign.matches' ∧ d ∈ decimal.matches' ∧ (ep = [] ∨ ep ∈ power.matches') ∧
      p = σ ++ d ++ ep := by
  rw [numeral, RegularExpression.matches'_mul, Language.mem_mul]
  constructor
  · rintro ⟨front, inside, ep, last, rfl⟩
    rw [RegularExpression.matches'_mul, Language.mem_mul] at inside
    obtain ⟨σ, signed, d, found, rfl⟩ := inside
    exact ⟨σ, d, ep, signed, found, last, rfl⟩
  · rintro ⟨σ, d, ep, signed, found, last, rfl⟩
    exact ⟨σ ++ d, Language.mem_mul.mpr ⟨σ, signed, d, found, rfl⟩, ep, last, rfl⟩

theorem ne_nil_of_mem_numeral (found : p ∈ numeral.matches') : p ≠ [] := by
  rintro rfl
  obtain ⟨σ, d, ep, -, inside, -, empty⟩ := mem_numeral.mp found
  obtain ⟨whole, fraction, -, -, filled, rfl⟩ := mem_decimal.mp inside
  have empty : whole ++ pointText fraction = [] :=
    (List.append_eq_nil_iff.mp (List.append_eq_nil_iff.mp empty.symm).1).2
  cases fraction with
  | none => exact filled empty
  | some ds => simp [pointText] at empty

/-- The blanks: space, tab, line feed, carriage return, vertical tab and form feed. -/
def whitespace : List UInt8 := [32, 9, 10, 13, 11, 12]

theorem isBlank_eq (b : UInt8) : Bytes.isBlank b = decide (b ∈ whitespace) := by
  rw [Bool.eq_iff_iff, decide_eq_true_iff]
  simp only [whitespace, Bytes.isBlank, Bool.or_eq_true, Bool.and_eq_true, decide_eq_true_iff,
    beq_iff_eq, UInt8.le_iff_toNat_le, List.mem_cons, List.not_mem_nil, or_false,
    ← UInt8.toNat_inj]
  simp
  omega

end Patterns

section Values

def isNegative (p : Bytes) : Bool := p.head? == some 45

def unsigned (p : Bytes) : Bytes := p.dropWhile isSign

/-- The integer that a sign and digits spell. -/
def integerValue (p : Bytes) : Int :=
  if isNegative p then -Bytes.toNat (unsigned p) else Bytes.toNat (unsigned p)

/-- The text between the sign and the letter of the exponent. -/
def significand (p : Bytes) : Bytes := (unsigned p).takeWhile fun b => !isLetter b

def exponentValue (p : Bytes) : Int :=
  integerValue ((unsigned p).dropWhile fun b => !isLetter b).tail

def wholePart (p : Bytes) : Bytes := (significand p).takeWhile (· != 46)

def fractionPart (p : Bytes) : Bytes := ((significand p).dropWhile (· != 46)).tail

def magnitude (p : Bytes) : ℚ :=
  (Bytes.toNat (wholePart p) + Bytes.toNat (fractionPart p) / 10 ^ (fractionPart p).length) *
    10 ^ exponentValue p

/-- A number is what a numeral stands for: the integer itself if there is neither point nor exponent
and it is a word, and otherwise the nearest float. -/
def Denotes (p : Bytes) : Number → Prop
  | .int i => p ∈ integer.matches' ∧ i.toInt = integerValue p
  | .float x =>
    (p ∈ integer.matches' → ∀ i : Int64, i.toInt ≠ integerValue p) ∧
      Binary64.Nearest (isNegative p) (magnitude p) x

theorem toNat_append (a b : Bytes) :
    Bytes.toNat (a ++ b) = Bytes.toNat a * 10 ^ b.length + Bytes.toNat b := by
  have shift : ∀ (b : Bytes) (n : Nat), b.foldl (fun n c => 10 * n + Bytes.digit c) n =
      n * 10 ^ b.length + Bytes.toNat b := by
    intro b
    induction b with
    | nil => simp [Bytes.toNat]
    | cons c b ih =>
      intro n
      rw [Bytes.toNat, List.foldl_cons, List.foldl_cons, ih, ih (10 * 0 + Bytes.digit c),
        List.length_cons]
      ring
  rw [Bytes.toNat, List.foldl_append, shift]
  rfl

theorem plain_of_isDigit {b : UInt8} (isDigit : Bytes.isDigit b = true) :
    isSign b = false ∧ isLetter b = false ∧ (b != 46) = true := by
  have every : ∀ b ∈ digitBytes, isSign b = false ∧ isLetter b = false ∧ (b != 46) = true := by
    simp [digitBytes, isSign, isLetter]
  exact every b (isDigit_iff.mp isDigit)

theorem dropWhile_append_of_head {f : UInt8 → Bool} {a b : Bytes} (front : ∀ c ∈ a, f c = true)
    (back : ∀ c, b.head? = some c → f c = false) : (a ++ b).dropWhile f = b := by
  rw [List.dropWhile_append_of_pos front]
  cases b with
  | nil => rfl
  | cons c b => simp [back c rfl]

theorem takeWhile_append_of_head {f : UInt8 → Bool} {a b : Bytes} (front : ∀ c ∈ a, f c = true)
    (back : ∀ c, b.head? = some c → f c = false) : (a ++ b).takeWhile f = a := by
  rw [List.takeWhile_append_of_pos front]
  cases b with
  | nil => simp
  | cons c b => simp [back c rfl]

variable {σ p : Bytes}

theorem isSign_of_mem_sign (signed : σ ∈ sign.matches') : ∀ b ∈ σ, isSign b = true := by
  rcases mem_sign.mp signed with rfl | rfl | rfl
  · simp
  · simp [isSign]
  · simp [isSign]

theorem unsigned_append (signed : σ ∈ sign.matches')
    (back : ∀ b, p.head? = some b → isSign b = false) : unsigned (σ ++ p) = p :=
  dropWhile_append_of_head (isSign_of_mem_sign signed) back

theorem isNegative_append (signed : σ ∈ sign.matches')
    (back : ∀ b, p.head? = some b → isSign b = false) : isNegative (σ ++ p) = isNegative σ := by
  rcases mem_sign.mp signed with rfl | rfl | rfl
  · cases p with
    | nil => rfl
    | cons b p =>
      have := back b rfl
      simp_all [isNegative, isSign]
  · rfl
  · rfl

theorem not_isSign_of_digits {ds : Bytes} (every : Digits ds) :
    ∀ b, ds.head? = some b → isSign b = false := fun b first =>
  (plain_of_isDigit (every b (List.mem_of_mem_head? first))).1

theorem integerValue_append {ds : Bytes} (signed : σ ∈ sign.matches') (every : Digits ds) :
    integerValue (σ ++ ds) =
      if isNegative σ then -(Bytes.toNat ds : Int) else Bytes.toNat ds := by
  have back := not_isSign_of_digits every
  rw [integerValue, isNegative_append signed back, unsigned_append signed back]

theorem head_of_decimal {whole : Bytes} {fraction : Option Bytes} (every : Digits whole)
    (filled : whole ++ fraction.getD [] ≠ []) (s : Bytes) :
    ∀ b, (whole ++ pointText fraction ++ s).head? = some b → isSign b = false := by
  intro b first
  cases whole with
  | nil =>
    cases fraction with
    | none => exact absurd rfl filled
    | some ds =>
      obtain rfl : 46 = b := Option.some.inj first
      rfl
  | cons c rest =>
    obtain rfl : c = b := Option.some.inj first
    exact not_isSign_of_digits every c rfl

end Values

section Reading

/-- How a numeral is written: the sign and the power, around its digits. -/
structure Written (n : Numeral) (σ ep : Bytes) : Prop where
  signed : σ ∈ sign.matches'
  negative : n.negative = isNegative σ
  whole : Digits n.whole
  fraction : Digits (n.fraction.getD [])
  filled : n.whole ++ n.fraction.getD [] ≠ []
  powered : match n.exponent with
    | none => ep = []
    | some e => ep ∈ power.matches' ∧ integerValue ep.tail = e

def spelling (n : Numeral) (σ ep : Bytes) : Bytes := σ ++ (n.whole ++ pointText n.fraction) ++ ep

variable (s whole : Bytes)

theorem sign_spec : ∃ σ ∈ sign.matches', s = σ ++ (Numeral.sign s).2 ∧
    (Numeral.sign s).1 = isNegative σ := by
  fun_cases Numeral.sign s with
  | case1 rest => exact ⟨[45], mem_sign.mpr (.inr (.inr rfl)), rfl, rfl⟩
  | case2 rest => exact ⟨[43], mem_sign.mpr (.inr (.inl rfl)), rfl, rfl⟩
  | case3 => exact ⟨[], mem_sign.mpr (.inl rfl), rfl, rfl⟩

theorem digits_eq : Numeral.digits s = (s.takeWhile Bytes.isDigit, s.dropWhile Bytes.isDigit) :=
  List.span_eq_takeWhile_dropWhile ..

theorem digits_spec : s = (Numeral.digits s).1 ++ (Numeral.digits s).2 ∧
    Digits (Numeral.digits s).1 := by
  rw [digits_eq]
  exact ⟨List.takeWhile_append_dropWhile.symm, fun b member => List.mem_takeWhile_imp member⟩

theorem point_spec : s = pointText (Numeral.point whole s).1 ++ (Numeral.point whole s).2 ∧
    Digits ((Numeral.point whole s).1.getD []) ∧
    ((Numeral.point whole s).1.isSome → whole ++ (Numeral.point whole s).1.getD [] ≠ []) := by
  fun_cases Numeral.point whole s with
  | case1 rest fraction after read bare => simp [pointText, Digits]
  | case2 rest fraction after read useful =>
    obtain ⟨split, every⟩ := digits_spec rest
    rw [read] at split every
    refine ⟨by rw [split]; rfl, every, fun _ => ?_⟩
    simpa using useful
  | case3 => simp [pointText, Digits]

theorem nothing_iff : (whole.isEmpty && (Numeral.point whole s).1.isNone) = true ↔
    whole.length = 0 ∧ ((Numeral.point whole s).1.getD []).length = 0 := by
  obtain ⟨-, -, useful⟩ := point_spec s whole
  rw [Bool.and_eq_true, List.isEmpty_iff, List.length_eq_zero_iff, List.length_eq_zero_iff]
  refine and_congr_right fun front => ?_
  cases point : (Numeral.point whole s).1 with
  | none => simp
  | some ds =>
    rw [point, front] at useful
    simpa using useful rfl

variable {b : UInt8}

theorem power_of_letter (letter : isLetter b = true) (rest : Bytes) : Numeral.power (b :: rest) =
    if (Numeral.digits (Numeral.sign rest).2).1.isEmpty then (none, b :: rest)
    else (some (if (Numeral.sign rest).1
      then -(Bytes.toNat (Numeral.digits (Numeral.sign rest).2).1 : Int)
      else Bytes.toNat (Numeral.digits (Numeral.sign rest).2).1),
      (Numeral.digits (Numeral.sign rest).2).2) := by
  rcases Bool.or_eq_true_iff.mp letter with found | found
  · rw [eq_of_beq found]
    rfl
  · rw [eq_of_beq found]
    rfl

theorem power_of_other (other : ∀ b, s.head? = some b → isLetter b = false) :
    Numeral.power s = (none, s) := by
  fun_cases Numeral.power s with
  | case5 => rfl
  | _ => exact absurd (other _ rfl) (by decide)

theorem power_spec : ∃ ep, s = ep ++ (Numeral.power s).2 ∧
    match (Numeral.power s).1 with
    | none => ep = []
    | some e => ep ∈ power.matches' ∧ integerValue ep.tail = e := by
  by_cases letter : ∃ b rest, s = b :: rest ∧ isLetter b = true
  · obtain ⟨b, rest, rfl, letter⟩ := letter
    obtain ⟨σ, signed, split, negative⟩ := sign_spec rest
    obtain ⟨split', every⟩ := digits_spec (Numeral.sign rest).2
    rw [power_of_letter letter]
    by_cases none : (Numeral.digits (Numeral.sign rest).2).1.isEmpty
    · rw [if_pos none]
      exact ⟨[], rfl, rfl⟩
    · rw [if_neg none]
      have filled : (Numeral.digits (Numeral.sign rest).2).1 ≠ [] := by simpa using none
      refine ⟨b :: (σ ++ (Numeral.digits (Numeral.sign rest).2).1), ?_, ?_, ?_⟩
      · rw [List.cons_append, List.append_assoc, ← split', ← split]
      · exact mem_power.mpr ⟨b, _, letter, mem_integer.mpr ⟨σ, _, signed, filled, every, rfl⟩, rfl⟩
      · rw [List.tail_cons, integerValue_append signed every, negative]
  · have other : ∀ b, s.head? = some b → isLetter b = false := by
      intro b first
      by_contra mark
      obtain ⟨rest, rfl⟩ := List.head?_eq_some_iff.mp first
      exact letter ⟨b, rest, rfl, eq_true_of_ne_false mark⟩
    rw [power_of_other s other]
    exact ⟨[], rfl, rfl⟩

theorem read_stages :
    let whole := (Numeral.digits (Numeral.sign s).2).1
    let point := Numeral.point whole (Numeral.digits (Numeral.sign s).2).2
    let power := Numeral.power point.2
    Numeral.read? s = if whole.isEmpty && point.1.isNone then none
      else some (⟨(Numeral.sign s).1, whole, point.1, power.1⟩, power.2) := rfl

variable {s} {n : Numeral} {rest : Bytes}

theorem written_of_read (read : Numeral.read? s = some (n, rest)) :
    ∃ σ ep, Written n σ ep ∧ s = spelling n σ ep ++ rest := by
  obtain ⟨σ, signed, split₁, negative⟩ := sign_spec s
  obtain ⟨split₂, every⟩ := digits_spec (Numeral.sign s).2
  obtain ⟨split₃, every', useful⟩ :=
    point_spec (Numeral.digits (Numeral.sign s).2).2 (Numeral.digits (Numeral.sign s).2).1
  obtain ⟨ep, split₄, shape⟩ := power_spec (Numeral.point (Numeral.digits (Numeral.sign s).2).1
    (Numeral.digits (Numeral.sign s).2).2).2
  rw [read_stages] at read
  split at read
  next => cases read
  next some =>
    obtain ⟨rfl, rfl⟩ := Prod.mk.inj (Option.some.inj read)
    refine ⟨σ, ep, ⟨signed, negative, every, every', ?_, shape⟩, ?_⟩
    · intro empty
      have front : (Numeral.digits (Numeral.sign s).2).1 = [] :=
        (List.append_eq_nil_iff.mp empty).1
      rw [front, List.isEmpty_nil, Bool.true_and, Bool.not_eq_true,
        Option.isNone_eq_false_iff] at some
      exact useful (by rwa [front]) empty
    · rw [spelling]
      dsimp only
      rw [List.append_assoc, ← split₄, List.append_assoc, List.append_assoc, ← split₃, ← split₂,
        ← split₁]

end Reading

section Written

variable {n : Numeral} {σ ep : Bytes}

theorem Written.power_cases (written : Written n σ ep) :
    (n.exponent = none ∧ ep = []) ∨
      ∃ b q, n.exponent = some (integerValue q) ∧ isLetter b = true ∧ ep = b :: q ∧
        ep ∈ power.matches' := by
  have shape := written.powered
  cases exponent : n.exponent with
  | none =>
    rw [exponent] at shape
    exact .inl ⟨rfl, shape⟩
  | some e =>
    rw [exponent] at shape
    obtain ⟨found, value⟩ := shape
    obtain ⟨b, q, letter, -, rfl⟩ := mem_power.mp found
    exact .inr ⟨b, q, congrArg some value.symm, letter, rfl, found⟩

theorem Written.mem_numeral (written : Written n σ ep) : spelling n σ ep ∈ numeral.matches' := by
  refine Grammar.mem_numeral.mpr ⟨σ, _, ep, written.signed, mem_decimal.mpr ⟨n.whole, n.fraction,
    written.whole, written.fraction, written.filled, rfl⟩, ?_, rfl⟩
  rcases written.power_cases with ⟨-, none⟩ | ⟨b, q, -, -, -, found⟩
  · exact .inl none
  · exact .inr found

theorem Written.plain (written : Written n σ ep) :
    ∀ b ∈ n.whole ++ pointText n.fraction, isLetter b = false := by
  intro b member
  rcases List.mem_append.mp member with front | back
  · exact (plain_of_isDigit (written.whole b front)).2.1
  · have every := written.fraction
    cases fraction : n.fraction with
    | none =>
      rw [fraction] at back
      cases back
    | some ds =>
      rw [fraction] at back every
      rcases List.mem_cons.mp back with rfl | later
      · rfl
      · exact (plain_of_isDigit (every b later)).2.1

theorem Written.head (written : Written n σ ep) :
    ∀ b, (n.whole ++ pointText n.fraction ++ ep).head? = some b → isSign b = false :=
  head_of_decimal written.whole written.filled ep

theorem Written.isNegative (written : Written n σ ep) :
    isNegative (spelling n σ ep) = n.negative := by
  rw [spelling, List.append_assoc, isNegative_append written.signed written.head,
    written.negative]

theorem Written.unsigned (written : Written n σ ep) :
    unsigned (spelling n σ ep) = n.whole ++ pointText n.fraction ++ ep := by
  rw [spelling, List.append_assoc, unsigned_append written.signed written.head]

theorem Written.letter (written : Written n σ ep) :
    ∀ b, ep.head? = some b → (!isLetter b) = false := by
  intro b first
  rcases written.power_cases with ⟨-, rfl⟩ | ⟨c, q, -, letter, rfl, -⟩
  · cases first
  · obtain rfl : c = b := Option.some.inj first
    rw [letter]
    rfl

theorem Written.significand (written : Written n σ ep) :
    significand (spelling n σ ep) = n.whole ++ pointText n.fraction := by
  rw [Grammar.significand, written.unsigned]
  exact takeWhile_append_of_head (fun b member => by simp [written.plain b member])
    written.letter

theorem Written.exponentValue (written : Written n σ ep) :
    exponentValue (spelling n σ ep) = n.exponent.getD 0 := by
  have last : (n.whole ++ pointText n.fraction ++ ep).dropWhile (fun b => !isLetter b) = ep :=
    dropWhile_append_of_head (fun b member => by simp [written.plain b member]) written.letter
  rw [Grammar.exponentValue, written.unsigned, last]
  rcases written.power_cases with ⟨exponent, rfl⟩ | ⟨b, q, exponent, -, rfl, -⟩
  · rw [exponent]
    rfl
  · rw [exponent]
    rfl

theorem Written.parts (written : Written n σ ep) :
    wholePart (spelling n σ ep) = n.whole ∧
      fractionPart (spelling n σ ep) = n.fraction.getD [] := by
  have front : ∀ b ∈ n.whole, (b != 46) = true := fun b member =>
    (plain_of_isDigit (written.whole b member)).2.2
  have back : ∀ b, (pointText n.fraction).head? = some b → (b != 46) = false := by
    cases n.fraction with
    | none => nofun
    | some ds =>
      rintro b ⟨⟩
      rfl
  have tail : (pointText n.fraction).tail = n.fraction.getD [] := by
    cases n.fraction <;> rfl
  rw [wholePart, fractionPart, written.significand, takeWhile_append_of_head front back,
    dropWhile_append_of_head front back, tail]
  exact ⟨rfl, rfl⟩

theorem Written.magnitude (written : Written n σ ep) : magnitude (spelling n σ ep) =
    Bytes.toNat (n.whole ++ n.fraction.getD []) *
      10 ^ (n.exponent.getD 0 - (n.fraction.getD []).length) := by
  obtain ⟨whole, fraction⟩ := written.parts
  rw [Grammar.magnitude, whole, fraction, written.exponentValue, toNat_append,
    zpow_sub₀ (by norm_num), zpow_natCast]
  push_cast
  field_simp

theorem Written.mem_integer_iff (written : Written n σ ep) :
    spelling n σ ep ∈ integer.matches' ↔ n.fraction = none ∧ n.exponent = none := by
  constructor
  · intro found
    obtain ⟨τ, ds, signed, -, every, same⟩ := mem_integer.mp found
    -- neither a point nor a letter is a sign or a digit
    have simple : ∀ b ∈ spelling n σ ep, isSign b = true ∨ Bytes.isDigit b = true := by
      intro b member
      rw [same] at member
      exact (List.mem_append.mp member).imp (isSign_of_mem_sign signed b) (every b)
    constructor
    · cases fraction : n.fraction with
      | none => rfl
      | some ds =>
        have point : (46 : UInt8) ∈ spelling n σ ep := by simp [spelling, fraction, pointText]
        exact absurd (simple 46 point) (by decide)
    · rcases written.power_cases with ⟨exponent, -⟩ | ⟨b, q, -, letter, rfl, -⟩
      · exact exponent
      · have last : b ∈ spelling n σ (b :: q) := by simp [spelling]
        rcases simple b last with mark | digit
        · rcases Bool.or_eq_true_iff.mp letter with found | found
          · rw [eq_of_beq found] at mark
            cases mark
          · rw [eq_of_beq found] at mark
            cases mark
        · rw [(plain_of_isDigit digit).2.1] at letter
          cases letter
  · rintro ⟨fraction, exponent⟩
    have filled := written.filled
    rcases written.power_cases with ⟨-, rfl⟩ | ⟨b, q, power, -⟩
    · rw [fraction, Option.getD_none, List.append_nil] at filled
      exact mem_integer.mpr ⟨σ, n.whole, written.signed, filled, written.whole,
        by simp [spelling, fraction, pointText]⟩
    · rw [exponent] at power
      cases power

theorem Written.integerValue (written : Written n σ ep) (fraction : n.fraction = none)
    (exponent : n.exponent = none) : integerValue (spelling n σ ep) =
      if n.negative then -(Bytes.toNat n.whole : Int) else Bytes.toNat n.whole := by
  have text : spelling n σ ep = σ ++ n.whole := by
    rcases written.power_cases with ⟨-, rfl⟩ | ⟨b, q, power, -⟩
    · simp [spelling, fraction, pointText]
    · rw [exponent] at power
      cases power
  rw [text, integerValue_append written.signed written.whole, written.negative]

theorem Written.denotes (written : Written n σ ep) : Denotes (spelling n σ ep) n.value := by
  have nearest := n.nearest
  rw [← written.magnitude, ← written.isNegative] at nearest
  unfold Numeral.value
  by_cases exact : n.fraction = none ∧ n.exponent = none
  · have value := written.integerValue exact.1 exact.2
    rw [if_neg (by simp [exact])]
    dsimp only
    split
    next i found =>
      refine ⟨written.mem_integer_iff.mpr exact, ?_⟩
      rw [value]
      exact Word.ofInt?_eq_some_iff.mp found
    next beyond =>
      refine ⟨fun _ i same => ?_, nearest⟩
      rw [value] at same
      rw [Word.ofInt?_eq_some_iff.mpr same] at beyond
      cases beyond
  · have float : (n.fraction.isSome || n.exponent.isSome) = true := by
      rw [Bool.or_eq_true, Option.isSome_iff_ne_none, Option.isSome_iff_ne_none]
      tauto
    rw [if_pos float]
    exact ⟨fun found => absurd (written.mem_integer_iff.mp found) exact, nearest⟩

end Written

section Longest

variable {σ ds ep s : Bytes}

theorem sign_append (signed : σ ∈ sign.matches')
    (back : ∀ b, s.head? = some b → isSign b = false) :
    Numeral.sign (σ ++ s) = (isNegative σ, s) := by
  rcases mem_sign.mp signed with rfl | rfl | rfl
  · rw [List.nil_append]
    fun_cases Numeral.sign s with
    | case3 => rfl
    | _ => exact absurd (back _ rfl) (by decide)
  · rfl
  · rfl

theorem digits_append (every : Digits ds) (s : Bytes) :
    Numeral.digits (ds ++ s) = (ds ++ (Numeral.digits s).1, (Numeral.digits s).2) := by
  rw [digits_eq, digits_eq, List.takeWhile_append_of_pos every, List.dropWhile_append_of_pos every]

theorem digits_of_other (other : ∀ b, s.head? = some b → Bytes.isDigit b = false) :
    Numeral.digits s = ([], s) := by
  rw [digits_eq]
  cases s with
  | nil => rfl
  | cons b s => simp [other b rfl]

theorem point_of_dot (whole s : Bytes) : Numeral.point whole (46 :: s) =
    if whole.isEmpty && (Numeral.digits s).1.isEmpty then (none, 46 :: s)
    else (some (Numeral.digits s).1, (Numeral.digits s).2) := rfl

theorem point_of_other (whole : Bytes) (other : s.head? ≠ some 46) :
    Numeral.point whole s = (none, s) := by
  fun_cases Numeral.point whole s with
  | case3 => rfl
  | _ => exact absurd rfl other

theorem power_append (found : ep ∈ power.matches') (s : Bytes) :
    (Numeral.power (ep ++ s)).2 <:+ s := by
  obtain ⟨b, q, letter, rest, rfl⟩ := mem_power.mp found
  obtain ⟨σ, ds, signed, filled, every, rfl⟩ := mem_integer.mp rest
  have back : ∀ b, (ds ++ s).head? = some b → isSign b = false := by
    intro b first
    rw [List.head?_append_of_ne_nil ds filled] at first
    exact not_isSign_of_digits every b first
  have some : ¬(ds ++ (Numeral.digits s).1).isEmpty = true := by simp [filled]
  rw [List.cons_append, List.append_assoc, power_of_letter letter, sign_append signed back,
    digits_append every, if_neg some]
  exact ⟨(Numeral.digits s).1, (digits_spec s).1.symm⟩

theorem head_of_power (found : ep ∈ power.matches') (s : Bytes) :
    ∃ b, (ep ++ s).head? = some b ∧ isLetter b = true := by
  obtain ⟨b, q, letter, -, rfl⟩ := mem_power.mp found
  exact ⟨b, rfl, letter⟩

theorem rest_after_digits (last : ep = [] ∨ ep ∈ power.matches') (s : Bytes) :
    (Numeral.power (Numeral.digits (ep ++ s)).2).2 <:+ s ∧
      ∀ whole, (Numeral.power (Numeral.point whole (Numeral.digits (ep ++ s)).2).2).2 <:+ s := by
  have power : ∀ s, (Numeral.power s).2 <:+ s := fun s => by
    obtain ⟨ep, split, -⟩ := power_spec s
    exact ⟨ep, split.symm⟩
  have point : ∀ whole s, (Numeral.point whole s).2 <:+ s := fun whole s =>
    ⟨_, (point_spec s whole).1.symm⟩
  have digits : ∀ s, (Numeral.digits s).2 <:+ s := fun s => ⟨_, (digits_spec s).1.symm⟩
  rcases last with rfl | found
  · exact ⟨(power _).trans (digits s),
      fun whole => ((power _).trans (point whole _)).trans (digits s)⟩
  · -- the letter is neither a digit nor a point, so both stages before it take nothing
    obtain ⟨b, first, letter⟩ := head_of_power found s
    have still : Numeral.digits (ep ++ s) = ([], ep ++ s) := by
      apply digits_of_other
      intro c same
      obtain rfl : b = c := Option.some.inj (first.symm.trans same)
      by_contra isDigit
      rw [(plain_of_isDigit (eq_true_of_ne_false isDigit)).2.1] at letter
      cases letter
    have plain : (ep ++ s).head? ≠ some 46 := by
      rw [first]
      rintro ⟨⟩
      cases letter
    rw [still]
    refine ⟨power_append found s, fun whole => ?_⟩
    rw [point_of_other whole plain]
    exact power_append found s

/-- Where a numeral stands at the front, one is read, and it goes at least as far. -/
theorem read_of_mem {p : Bytes} (found : p ∈ numeral.matches') (s : Bytes) :
    ∃ n rest, Numeral.read? (p ++ s) = some (n, rest) ∧ rest <:+ s := by
  obtain ⟨σ, d, ep, signed, inside, last, rfl⟩ := mem_numeral.mp found
  obtain ⟨whole, fraction, every, every', filled, rfl⟩ := mem_decimal.mp inside
  obtain ⟨afterDigits, afterPoint⟩ := rest_after_digits last s
  have unsigned : (Numeral.sign (σ ++ (whole ++ pointText fraction) ++ ep ++ s)).2 =
      whole ++ pointText fraction ++ (ep ++ s) := by
    rw [List.append_assoc _ ep, List.append_assoc,
      sign_append signed (head_of_decimal every filled (ep ++ s))]
  rw [read_stages, unsigned]
  cases fraction with
  | none =>
    -- the digits may go on behind the numeral, and a point may follow
    have some : whole ≠ [] := by simpa using filled
    rw [pointText, List.append_nil, digits_append every]
    exact ⟨_, _, if_neg (by simp [some]), afterPoint _⟩
  | some ds =>
    have useful : ¬(whole.isEmpty && (ds ++ (Numeral.digits (ep ++ s)).1).isEmpty) = true := by
      simp only [Option.getD_some] at filled
      simp_all
    have every' : Digits ds := every'
    -- the point stops the digits, and the digits behind it may go on
    have front : Numeral.digits (whole ++ 46 :: (ds ++ (ep ++ s))) =
        (whole, 46 :: (ds ++ (ep ++ s))) := by
      rw [digits_append every, digits_of_other (by rintro b ⟨⟩; rfl), List.append_nil]
    have point : Numeral.point whole (46 :: (ds ++ (ep ++ s))) =
        (some (ds ++ (Numeral.digits (ep ++ s)).1), (Numeral.digits (ep ++ s)).2) := by
      rw [point_of_dot, digits_append every', if_neg useful]
    rw [pointText, List.append_assoc, List.cons_append, front]
    dsimp only
    rw [point]
    exact ⟨_, _, if_neg (by simp), afterDigits⟩

end Longest

section Reader

variable {t : Bytes}

theorem read_eq_none_iff :
    Numeral.read? t = none ↔ ∀ p, p <+: t → p ∉ numeral.matches' := by
  constructor
  · rintro nothing p ⟨rest, rfl⟩ found
    obtain ⟨n, after, read, -⟩ := read_of_mem found rest
    rw [nothing] at read
    cases read
  · intro nowhere
    by_contra some
    obtain ⟨⟨n, rest⟩, read⟩ := Option.ne_none_iff_exists'.mp some
    obtain ⟨σ, ep, written, split⟩ := written_of_read read
    exact nowhere _ ⟨rest, split.symm⟩ written.mem_numeral

theorem read_longest {p : Bytes} (front : p <+: t) (found : p ∈ numeral.matches')
    (longest : ∀ q, q <+: t → q ∈ numeral.matches' → q.length ≤ p.length) :
    ∃ n σ ep, Written n σ ep ∧ spelling n σ ep = p ∧
      Numeral.read? t = some (n, t.drop p.length) := by
  obtain ⟨after, rfl⟩ := front
  obtain ⟨n, rest, read, further⟩ := read_of_mem found after
  obtain ⟨σ, ep, written, split⟩ := written_of_read read
  -- what is read goes at least as far as the given one, and no numeral goes further
  have same : p.length = (spelling n σ ep).length := by
    apply le_antisymm
    · have lengths := congrArg List.length split
      rw [List.length_append, List.length_append] at lengths
      have := further.length_le
      omega
    · exact longest _ ⟨rest, split.symm⟩ written.mem_numeral
  obtain ⟨rfl, rfl⟩ := List.append_inj split same
  exact ⟨n, σ, ep, written, rfl, by rw [List.drop_left, read]⟩

end Reader

end ConstExpr.Grammar
