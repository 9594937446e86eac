import ConstExpr.Proofs.NumeralGrammar

/-!
Reading a number by positions. The scanner goes through a string by positions and cuts pieces out of
it, and a piece that does not lie in the string makes it fail. Each of its stages stops where the
reader of numerals stops, so it never fails and finds the same number. With the grammar, that is the
longest numeral behind the blanks.
-/

namespace ConstExpr.Scan

open Grammar

/-- The bytes between two positions, if they are positions of the string in this order. -/
def slice? (s : Bytes) (start stop : Nat) : Option Bytes :=
  if start ≤ stop ∧ stop ≤ s.length then some ((s.drop start).take (stop - start)) else none

def digits? (s : Bytes) (pos : Nat) : Option Nat := do
  let rest ← slice? s pos s.length
  return (rest.takeWhile Bytes.isDigit).length

def pastSign (s : Bytes) (pos : Nat) : Nat :=
  if s[pos]? = some 43 ∨ s[pos]? = some 45 then pos + 1 else pos

def point? (s : Bytes) (whole pos : Nat) : Option (Nat × Bool × Nat) :=
  if s[pos]? = some 46 then do
    let fraction ← digits? s (pos + 1)
    return if 0 < whole ∨ 0 < fraction then (fraction, true, pos + 1 + fraction)
      else (fraction, false, pos)
  else some (0, false, pos)

def power? (s : Bytes) (pos : Nat) : Option (Bool × Nat) :=
  if s[pos]? = some 101 ∨ s[pos]? = some 69 then do
    let start := pastSign s (pos + 1)
    let exponent ← digits? s (min start s.length)
    return if 0 < exponent then (true, start + exponent) else (false, pos)
  else some (false, pos)

def floatOf (p : Bytes) : Float :=
  let x := Binary64.ofDecimal (Bytes.toNat (wholePart p ++ fractionPart p))
    (exponentValue p - (fractionPart p).length)
  if isNegative p then -x else x

def numberOf (float : Bool) (p : Bytes) : Number :=
  if float then .float (floatOf p)
  else
    match Word.ofInt? (integerValue p) with
    | some i => .int i
    | none => .float (floatOf p)

/-- The number a string begins with, after blanks, and whether only blanks follow it. There is no
result at all if a piece is not inside the string. -/
def scan (s : Bytes) : Option (Option (Number × Bool)) :=
  match s.findIdx? fun b => !Bytes.isBlank b with
  | none => some none
  | some start => do
    let whole ← digits? s (pastSign s start)
    let (fraction, pointed, pos) ← point? s whole (pastSign s start + whole)
    if whole = 0 ∧ fraction = 0 then return none
    let (powered, pos) ← power? s pos
    let text ← slice? s start pos
    let rest ← slice? s pos s.length
    return some (numberOf (pointed || powered) text, rest.all Bytes.isBlank)

section Positions

variable {s front rest : Bytes} {pos : Nat}

def At (s : Bytes) (pos : Nat) (rest : Bytes) : Prop :=
  ∃ front, s = front ++ rest ∧ front.length = pos

theorem At.get (place : At s pos rest) : s[pos]? = rest.head? := by
  obtain ⟨front, rfl, rfl⟩ := place
  rw [List.getElem?_append_right le_rfl, Nat.sub_self, List.head?_eq_getElem?]

theorem At.advance (place : At s pos (front ++ rest)) : At s (pos + front.length) rest := by
  obtain ⟨before, rfl, rfl⟩ := place
  exact ⟨before ++ front, (List.append_assoc ..).symm, List.length_append⟩

theorem At.slice (place : At s pos (front ++ rest)) :
    slice? s pos (pos + front.length) = some front := by
  obtain ⟨before, rfl, rfl⟩ := place
  have inside : before.length ≤ before.length + front.length ∧
      before.length + front.length ≤ (before ++ (front ++ rest)).length := by
    simp only [List.length_append]
    omega
  rw [slice?, if_pos inside, List.drop_left, Nat.add_sub_cancel_left, List.take_left]

theorem At.slice_rest (place : At s pos rest) : slice? s pos s.length = some rest := by
  obtain ⟨before, rfl, rfl⟩ := place
  have inside : before.length ≤ (before ++ rest).length ∧
      (before ++ rest).length ≤ (before ++ rest).length := by
    simp
  rw [slice?, if_pos inside, List.drop_left, List.length_append, Nat.add_sub_cancel_left,
    List.take_length]

theorem At.le_length (place : At s pos rest) : pos ≤ s.length := by
  obtain ⟨before, rfl, rfl⟩ := place
  simp

theorem At.pos_eq {other : Nat} (place : At s pos rest) (place' : At s other rest) :
    pos = other := by
  obtain ⟨before, rfl, rfl⟩ := place
  obtain ⟨before', same, rfl⟩ := place'
  rw [List.append_cancel_right same]

theorem At.digits (place : At s pos rest) :
    digits? s pos = some (Numeral.digits rest).1.length ∧
      At s (pos + (Numeral.digits rest).1.length) (Numeral.digits rest).2 := by
  constructor
  · rw [digits?, place.slice_rest, digits_eq]
    rfl
  · rw [(digits_spec rest).1] at place
    exact place.advance

theorem At.next {b : UInt8} (place : At s pos (b :: rest)) : At s (pos + 1) rest := by
  have place : At s pos ([b] ++ rest) := place
  exact place.advance

theorem At.sign (place : At s pos rest) : At s (pastSign s pos) (Numeral.sign rest).2 := by
  unfold pastSign
  rw [place.get]
  fun_cases Numeral.sign rest with
  | case1 rest => exact place.next
  | case2 rest => exact place.next
  | case3 rest minus plus =>
    have other : ¬(rest.head? = some 43 ∨ rest.head? = some 45) := by
      rintro (first | first)
      · obtain ⟨more, rfl⟩ := List.head?_eq_some_iff.mp first
        exact plus more rfl
      · obtain ⟨more, rfl⟩ := List.head?_eq_some_iff.mp first
        exact minus more rfl
    rwa [if_neg other]

theorem At.point (place : At s pos rest) (whole : Bytes) :
    ∃ after, point? s whole.length pos = some (((Numeral.point whole rest).1.getD []).length,
        (Numeral.point whole rest).1.isSome, after) ∧
      At s after (Numeral.point whole rest).2 := by
  unfold point?
  rw [place.get]
  by_cases dot : rest.head? = some 46
  · obtain ⟨more, rfl⟩ := List.head?_eq_some_iff.mp dot
    obtain ⟨count, behind⟩ := place.next.digits
    have taken : (whole.isEmpty && (Numeral.digits more).1.isEmpty) = true ↔
        ¬(0 < whole.length ∨ 0 < (Numeral.digits more).1.length) := by
      simp [List.length_pos_iff]
    rw [if_pos dot, count, point_of_dot]
    by_cases useful : 0 < whole.length ∨ 0 < (Numeral.digits more).1.length
    · rw [if_neg (mt taken.mp (not_not.mpr useful))]
      exact ⟨_, congrArg some (if_pos useful), behind⟩
    · -- a point between no digits is left, and the position with it
      have none : (Numeral.digits more).1.length = 0 := by omega
      rw [if_pos (taken.mpr useful)]
      exact ⟨pos, congrArg some ((if_neg useful).trans (by rw [none]; rfl)), place⟩
  · rw [if_neg dot, point_of_other whole dot]
    exact ⟨pos, rfl, place⟩

theorem At.power (place : At s pos rest) :
    ∃ after, power? s pos = some ((Numeral.power rest).1.isSome, after) ∧
      At s after (Numeral.power rest).2 := by
  unfold power?
  rw [place.get]
  by_cases mark : rest.head? = some 101 ∨ rest.head? = some 69
  · obtain ⟨b, more, rfl, letter⟩ : ∃ b more, rest = b :: more ∧ isLetter b = true := by
      rcases mark with first | first
      · obtain ⟨more, rfl⟩ := List.head?_eq_some_iff.mp first
        exact ⟨101, more, rfl, rfl⟩
      · obtain ⟨more, rfl⟩ := List.head?_eq_some_iff.mp first
        exact ⟨69, more, rfl, rfl⟩
    -- the letter and the sign belong to the number only if a digit follows them
    have start := place.next.sign
    obtain ⟨count, behind⟩ := start.digits
    rw [if_pos mark, power_of_letter letter]
    dsimp only
    rw [min_eq_left start.le_length, count]
    by_cases useful : 0 < (Numeral.digits (Numeral.sign more).2).1.length
    · rw [if_neg (by simpa [List.length_pos_iff] using useful)]
      exact ⟨_, congrArg some (if_pos useful), behind⟩
    · rw [if_pos (by simpa [List.length_pos_iff] using useful)]
      exact ⟨pos, congrArg some (if_neg useful), place⟩
  · have other : ∀ b, rest.head? = some b → isLetter b = false := by
      intro b first
      rw [first] at mark
      simpa [isLetter, and_comm] using mark
    rw [if_neg mark, power_of_other rest other]
    exact ⟨pos, rfl, place⟩

end Positions

section Numbers

variable {n : Numeral} {σ ep : Bytes}

theorem numberOf_spelling (written : Written n σ ep) :
    numberOf (n.fraction.isSome || n.exponent.isSome) (spelling n σ ep) = n.value := by
  obtain ⟨whole, fraction⟩ := written.parts
  have float : floatOf (spelling n σ ep) = n.toFloat := by
    rw [floatOf, Numeral.toFloat, whole, fraction, written.exponentValue, written.isNegative]
  unfold numberOf Numeral.value
  dsimp only
  rw [float]
  by_cases exact : n.fraction = none ∧ n.exponent = none
  · have value := written.integerValue exact.1 exact.2
    generalize integerValue (spelling n σ ep) = whole at value ⊢
    subst value
    rfl
  · have pointed : (n.fraction.isSome || n.exponent.isSome) = true := by
      rw [Bool.or_eq_true, Option.isSome_iff_ne_none, Option.isSome_iff_ne_none]
      tauto
    rw [if_pos pointed, if_pos pointed]

end Numbers

theorem start_spec (s : Bytes) : match s.findIdx? fun b => !Bytes.isBlank b with
    | none => s.dropWhile Bytes.isBlank = []
    | some start => At s start (s.dropWhile Bytes.isBlank) := by
  induction s with
  | nil => rfl
  | cons b s ih =>
    rw [List.findIdx?_cons]
    cases blank : Bytes.isBlank b with
    | false => exact ⟨[], by simp [blank], rfl⟩
    | true =>
      rw [List.dropWhile_cons_of_pos blank]
      cases found : s.findIdx? fun b => !Bytes.isBlank b with
      | none =>
        rw [found] at ih
        exact ih
      | some start =>
        rw [found] at ih
        obtain ⟨front, split, length⟩ := ih
        exact ⟨b :: front, congrArg (b :: ·) split, congrArg (· + 1) length⟩

theorem scan_eq (s : Bytes) : scan s = some (numericPrefix? s) := by
  have start := start_spec s
  unfold scan numericPrefix?
  cases found : s.findIdx? fun b => !Bytes.isBlank b with
  | none =>
    rw [found] at start
    rw [start]
    rfl
  | some pos =>
    rw [found] at start
    dsimp only at start ⊢
    generalize s.dropWhile Bytes.isBlank = t at start
    obtain ⟨whole, behind⟩ := start.sign.digits
    obtain ⟨next, point, place⟩ := behind.point (Numeral.digits (Numeral.sign t).2).1
    obtain ⟨last, power, place'⟩ := place.power
    simp only [whole, point, power, Option.bind_eq_bind, Option.bind_some]
    by_cases nothing : (Numeral.digits (Numeral.sign t).2).1.length = 0 ∧
        ((Numeral.point (Numeral.digits (Numeral.sign t).2).1
          (Numeral.digits (Numeral.sign t).2).2).1.getD []).length = 0
    · rw [if_pos nothing, read_stages t, if_pos ((nothing_iff _ _).mpr nothing)]
      rfl
    · -- the text that is cut out is the spelling of what is read
      have read := (read_stages t).trans (if_neg (mt (nothing_iff _ _).mp nothing))
      obtain ⟨σ, ep, written, split⟩ := written_of_read read
      rw [split] at start
      obtain rfl := place'.pos_eq start.advance
      rw [if_neg nothing, start.slice, place'.slice_rest, read]
      exact congrArg some (congrArg some (Prod.ext (numberOf_spelling written) rfl))

/-- Reading follows the grammar. Behind the blanks there is a number exactly where a numeral stands,
and then it is that of the longest numeral: an integer if that has neither point nor exponent and is
a word, and otherwise the nearest float. The flag says whether only blanks follow. Going by
positions finds the same, and never leaves the string. -/
theorem longest_numeral_read (s : Bytes) :
    let t := s.dropWhile fun b => decide (b ∈ whitespace)
    (numericPrefix? s = none ↔ ∀ p, p <+: t → p ≠ [] → p ∉ numeral.matches') ∧
      (∀ p, p <+: t → p ∈ numeral.matches' →
        (∀ q, q <+: t → q ∈ numeral.matches' → q.length ≤ p.length) →
        ∃ n, numericPrefix? s = some (n, decide (∀ b ∈ t.drop p.length, b ∈ whitespace)) ∧
          Denotes p n) ∧
      scan s = some (numericPrefix? s) := by
  have blanks : Bytes.isBlank = fun b => decide (b ∈ whitespace) := funext isBlank_eq
  intro t
  have prefixed : numericPrefix? s =
      (Numeral.read? t).map fun r => (r.1.value, r.2.all Bytes.isBlank) := by
    rw [numericPrefix?, blanks]
  refine ⟨?_, fun p front found longest => ?_, scan_eq s⟩
  · rw [prefixed, Option.map_eq_none_iff, read_eq_none_iff]
    refine ⟨fun nowhere p front _ => nowhere p front, fun nowhere p front found => ?_⟩
    exact nowhere p front (ne_nil_of_mem_numeral found) found
  · obtain ⟨n, σ, ep, written, rfl, read⟩ := read_longest front found longest
    refine ⟨n.value, ?_, written.denotes⟩
    have rest : ∀ r : Bytes, r.all Bytes.isBlank = decide (∀ b ∈ r, b ∈ whitespace) := by
      intro r
      rw [Bool.eq_iff_iff, List.all_eq_true, decide_eq_true_iff, blanks]
      simp only [decide_eq_true_iff]
    rw [prefixed, read, Option.map_some, rest]

theorem letter_left_over :
    ∃ x, numericPrefix? [9, 49, 50, 46, 53, 101, 43, 32] = some (.float x, false) ∧
      Binary64.Nearest false (25 / 2) x := by
  obtain ⟨-, longest, -⟩ := longest_numeral_read [9, 49, 50, 46, 53, 101, 43, 32]
  have behind : ([9, 49, 50, 46, 53, 101, 43, 32] : Bytes).dropWhile
      (fun b => decide (b ∈ whitespace)) = [49, 50, 46, 53, 101, 43, 32] := by decide
  rw [behind] at longest
  have short : ∀ k : Fin 8, List.take k [49, 50, 46, 53, 101, 43, 32] ∈ numeral.matches' →
      k.val ≤ 4 := by
    decide +kernel
  obtain ⟨n, read, denotes⟩ := longest [49, 50, 46, 53] (by decide) (by decide +kernel) (by
    intro q front found
    rw [List.prefix_iff_eq_take.mp front] at found
    exact short ⟨q.length, Nat.lt_succ_of_le front.length_le⟩ found)
  have size : magnitude [49, 50, 46, 53] = 25 / 2 := by decide +kernel
  have pointed : ([49, 50, 46, 53] : Bytes) ∉ integer.matches' := by decide +kernel
  cases n with
  | int i => exact absurd denotes.1 pointed
  | float x =>
    have nearest := denotes.2
    rw [size] at nearest
    exact ⟨x, read, nearest⟩

end ConstExpr.Scan
