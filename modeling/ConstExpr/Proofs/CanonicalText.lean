import ConstExpr.Proofs.DecimalText
import ConstExpr.Proofs.NumeralGrammar
import ConstExpr.Value.Conversion

/-!
Canonical texts of integers. Digits without a leading zero are the text of the number they spell, so
an integer of any size has one canonical text. A string is taken for an integer key exactly if it is
the canonical text of a word, and therefore integers and strings that stand for the same key are the
ones with the same text.
-/

namespace ConstExpr

namespace Grammar

/-- The canonical texts of integers: a zero, or digits that do not begin with one, alone or behind a
minus sign. -/
inductive Canonical : Bytes → Prop
  | zero : Canonical [48]
  | positive {ds : Bytes} (filled : ds ≠ []) (every : Digits ds) (leading : ds.head? ≠ some 48) :
      Canonical ds
  | negative {ds : Bytes} (filled : ds ≠ []) (every : Digits ds) (leading : ds.head? ≠ some 48) :
      Canonical (45 :: ds)

def integerText (n : Int) : Bytes := (if n < 0 then [45] else []) ++ Word.natText n.natAbs

theorem digitByte_digit {b : UInt8} (digit : Bytes.isDigit b = true) :
    Word.digitByte (Bytes.digit b) = b ∧ Bytes.digit b < 10 := by
  have every : ∀ b ∈ digitBytes, Word.digitByte (Bytes.digit b) = b ∧ Bytes.digit b < 10 := by
    decide +kernel
  exact every b (isDigit_iff.mp digit)

theorem toNat_concat (ds : Bytes) (b : UInt8) :
    Bytes.toNat (ds ++ [b]) = Bytes.toNat ds * 10 + Bytes.digit b := by
  rw [toNat_append]
  simp [Bytes.toNat]

theorem natText_toNat {ds : Bytes} (filled : ds ≠ []) (every : Digits ds)
    (leading : ds.head? = some 48 → ds = [48]) : Word.natText (Bytes.toNat ds) = ds := by
  -- the last digit is the remainder by ten, and those before it are the text of the quotient
  induction ds using List.reverseRecOn with
  | nil => exact absurd rfl filled
  | append_singleton front b ih =>
    obtain ⟨last, small⟩ := digitByte_digit (every b (by simp))
    rw [toNat_concat]
    by_cases one : front = []
    · subst one
      have value : Bytes.toNat [] * 10 + Bytes.digit b = Bytes.digit b := by simp [Bytes.toNat]
      rw [value, Word.natText_of_lt small, last, List.nil_append]
    · have first : front.head? ≠ some 48 := by
        intro zero
        have whole := leading ((List.head?_append_of_ne_nil _ one).trans zero)
        have lengths := congrArg List.length whole
        have := List.length_pos_of_ne_nil one
        simp only [List.length_append, List.length_singleton] at lengths
        omega
      have shorter := ih one (fun c member => every c (List.mem_append_left _ member))
        fun zero => absurd zero first
      have some : Bytes.toNat front ≠ 0 := by
        intro nothing
        rw [nothing, Word.natText_of_lt (by decide)] at shorter
        exact first (by rw [← shorter]; decide)
      have quotient : (Bytes.toNat front * 10 + Bytes.digit b) / 10 = Bytes.toNat front := by
        omega
      have remainder : (Bytes.toNat front * 10 + Bytes.digit b) % 10 = Bytes.digit b := by omega
      rw [Word.natText_of_le (by omega), quotient, remainder, shorter, last]

theorem toNat_pos {ds : Bytes} (filled : ds ≠ []) (every : Digits ds)
    (leading : ds.head? ≠ some 48) : 0 < Bytes.toNat ds := by
  rw [Nat.pos_iff_ne_zero]
  intro nothing
  have text := natText_toNat filled every fun zero => absurd zero leading
  rw [nothing, Word.natText_of_lt (by decide)] at text
  exact leading (by rw [← text]; decide)

theorem integerText_natCast (n : Nat) : integerText n = Word.natText n := by
  simp [integerText]

theorem integerText_neg {n : Nat} (positive : 0 < n) :
    integerText (-n) = 45 :: Word.natText n := by
  simp [integerText, positive]

theorem canonical_iff {s : Bytes} : Canonical s ↔ ∃ n, s = integerText n := by
  constructor
  · rintro (_ | ⟨filled, every, leading⟩ | ⟨filled, every, leading⟩)
    · exact ⟨0, rfl⟩
    · refine ⟨(Bytes.toNat s : Int), ?_⟩
      rw [integerText_natCast, natText_toNat filled every fun zero => absurd zero leading]
    · rename_i ds
      refine ⟨-(Bytes.toNat ds : Int), ?_⟩
      rw [integerText_neg (toNat_pos filled every leading),
        natText_toNat filled every fun zero => absurd zero leading]
  · rintro ⟨n, rfl⟩
    have every : Digits (Word.natText n.natAbs) := Word.isDigit_natText _
    rcases lt_trichotomy n 0 with below | rfl | above
    · obtain ⟨k, rfl⟩ : ∃ k : Nat, n = -k := ⟨n.natAbs, by omega⟩
      have some : 0 < k := by omega
      rw [integerText_neg some]
      exact .negative (Word.natText_ne_nil k) (Word.isDigit_natText k) (Word.head_natText some)
    · exact .zero
    · obtain ⟨k, rfl⟩ : ∃ k : Nat, n = k := ⟨n.natAbs, by omega⟩
      rw [integerText_natCast]
      exact .positive (Word.natText_ne_nil k) (Word.isDigit_natText k)
        (Word.head_natText (by omega))

theorem integerValue_integerText (n : Int) : integerValue (integerText n) = n := by
  have signed : (if n < 0 then [45] else []) ∈ sign.matches' := by
    split
    · exact mem_sign.mpr (.inr (.inr rfl))
    · exact mem_sign.mpr (.inl rfl)
  rw [integerText, integerValue_append signed (Word.isDigit_natText _), Word.toNat_natText]
  by_cases below : n < 0
  · have minus : isNegative [45] = true := rfl
    rw [if_pos below, if_pos minus]
    omega
  · have plus : isNegative [] ≠ true := nofun
    rw [if_neg below, if_neg plus]
    omega

theorem integerText_inj {n k : Int} : integerText n = integerText k ↔ n = k := by
  refine ⟨fun same => ?_, congrArg integerText⟩
  rw [← integerValue_integerText n, same, integerValue_integerText]

end Grammar

open Grammar

section Words

variable {s : Bytes} {i : Int64}

theorem Word.text_eq (i : Int64) : Word.text i = integerText i.toInt := by
  unfold Word.text integerText
  split <;> rfl

theorem Word.exists_digits (read : Word.ofText? s = some i) :
    ∃ ds, ds ≠ [] ∧ Digits ds ∧
      (s = 45 :: ds ∧ ds.head? ≠ some 48 ∧ i.toInt = -(Bytes.toNat ds : Int) ∨
        s = ds ∧ (ds.head? = some 48 → ds = [48]) ∧ i.toInt = Bytes.toNat ds) := by
  unfold Word.ofText? at read
  dsimp only at read
  by_cases sign : s.head? = some 45
  · obtain ⟨ds, rfl⟩ := List.head?_eq_some_iff.mp sign
    have negative : ((45 :: ds).head? == some (45 : UInt8)) = true := rfl
    simp only [negative, if_true, List.tail_cons, Bool.true_or, Bool.and_true] at read
    split at read
    next => cases read
    next digits =>
      split at read
      next => cases read
      next leading =>
        obtain ⟨filled, every⟩ : ds ≠ [] ∧ Digits ds := by simpa [Digits] using digits
        exact ⟨ds, filled, every,
          .inl ⟨rfl, by simpa using leading, Word.ofInt?_eq_some_iff.mp read⟩⟩
  · have positive : (s.head? == some (45 : UInt8)) = false := by simpa using sign
    simp only [positive, Bool.false_eq_true, if_false, Bool.false_or] at read
    split at read
    next => cases read
    next digits =>
      split at read
      next => cases read
      next leading =>
        obtain ⟨filled, every⟩ : s ≠ [] ∧ Digits s := by simpa [Digits] using digits
        refine ⟨s, filled, every, .inr ⟨rfl, fun zero => ?_, Word.ofInt?_eq_some_iff.mp read⟩⟩
        have short : s.length ≤ 1 := by simpa [zero] using leading
        obtain ⟨rest, rfl⟩ := List.head?_eq_some_iff.mp zero
        have none : rest = [] := by simpa using short
        rw [none]

theorem Word.ofText?_eq_some_iff : Word.ofText? s = some i ↔ s = Word.text i := by
  constructor
  · intro read
    rw [Word.text_eq]
    obtain ⟨ds, filled, every, ⟨rfl, leading, value⟩ | ⟨rfl, leading, value⟩⟩ :=
      Word.exists_digits read
    · rw [value, integerText_neg (toNat_pos filled every leading),
        natText_toNat filled every fun zero => absurd zero leading]
    · rw [value, integerText_natCast, natText_toNat filled every leading]
  · rintro rfl
    exact Word.ofText?_text i

end Words

section Keys

variable {s t : Bytes} {i : Int64}

theorem Key.ofValue?_str_eq_int : Key.ofValue? (.str s) = some (.int i) ↔ s = Word.text i := by
  rw [← Word.ofText?_eq_some_iff, Key.ofValue?]
  cases Word.ofText? s with
  | none => simp
  | some j => simp

theorem Key.ofValue?_str_inj : Key.ofValue? (.str s) = Key.ofValue? (.str t) ↔ s = t := by
  refine ⟨fun same => ?_, congrArg fun s => Key.ofValue? (.str s)⟩
  cases read : Word.ofText? s with
  | some i =>
    have text := Word.ofText?_eq_some_iff.mp read
    have key := Key.ofValue?_str_eq_int.mpr text
    rw [text, Key.ofValue?_str_eq_int.mp (same.symm.trans key)]
  | none =>
    have key : Key.ofValue? (.str s) = some (.str s) := by rw [Key.ofValue?, read]
    rw [key, Key.ofValue?] at same
    split at same
    next => cases same
    next => exact Key.str.inj (Option.some.inj same)

theorem Key.ofValue?_toBytes {v : Value} (spelled : v.kind = "int" ∨ v.kind = "string") :
    Key.ofValue? v = Key.ofValue? (.str v.toBytes) := by
  cases v with
  | int i => exact (Key.ofValue?_str_eq_int.mpr rfl).symm
  | str s => rfl
  | _ => exact absurd spelled (by simp [Value.kind])

end Keys

/-- Keys are told apart by their text. A string is the key of an integer exactly if it is the text
of that integer, and integers and strings are the same key exactly if they have the same text. -/
theorem keys_by_text :
    (∀ s i, Key.ofValue? (.str s) = some (.int i) ↔ s = (Value.int i).toBytes) ∧
      ∀ a b : Value, (a.kind = "int" ∨ a.kind = "string") → (b.kind = "int" ∨ b.kind = "string") →
        (Key.ofValue? a = Key.ofValue? b ↔ a.toBytes = b.toBytes) := by
  refine ⟨fun s i => Key.ofValue?_str_eq_int, fun a b spelled spelled' => ?_⟩
  rw [Key.ofValue?_toBytes spelled, Key.ofValue?_toBytes spelled', Key.ofValue?_str_inj]

theorem least_word_by_text :
    let least := Value.int Int64.minValue
    let text := Value.str least.toBytes
    let longer := Value.str (least.toBytes ++ [48])
    (least.kind = "int" ∧ text.kind = "string" ∧ longer.kind = "string") ∧
      Key.ofValue? least = Key.ofValue? text ∧ Key.ofValue? least ≠ Key.ofValue? longer ∧
      Key.ofValue? (.str [45, 48]) ≠ some (.int 0) := by
  intro least text longer
  obtain ⟨words, same⟩ := keys_by_text
  refine ⟨⟨rfl, rfl, rfl⟩, (same least text (.inl rfl) (.inr rfl)).mpr rfl, ?_, ?_⟩
  · rw [ne_eq, same least longer (.inl rfl) (.inr rfl)]
    exact fun equal => List.cons_ne_nil _ _ (List.self_eq_append_right.mp equal)
  · rw [ne_eq, words]
    decide

end ConstExpr
