import ConstExpr.Operator.Apply
import Mathlib.Data.List.Basic

/-!
Bitwise operators on strings. What stands at a place of the result depends on that place of the two
strings only, where a disjunction takes a missing byte for zero and the others end with the shorter
string. So the laws of the operators on bytes are laws on strings of any lengths.
-/

namespace ConstExpr

namespace MaskOp

variable (op : MaskOp) (a b c : Bytes)

theorem onBytes_comm (x y : UInt8) : op.onBytes x y = op.onBytes y x := by
  cases op with
  | and => exact UInt8.and_comm x y
  | or => exact UInt8.or_comm x y
  | xor => exact UInt8.xor_comm x y

theorem onBytes_assoc (x y z : UInt8) :
    op.onBytes (op.onBytes x y) z = op.onBytes x (op.onBytes y z) := by
  cases op with
  | and => exact UInt8.and_assoc x y z
  | or => exact UInt8.or_assoc x y z
  | xor => exact UInt8.xor_assoc x y z

theorem onWords_comm (i j : Int64) : op.onWords i j = op.onWords j i := by
  cases op with
  | and => exact Int64.and_comm i j
  | or => exact Int64.or_comm i j
  | xor => exact Int64.xor_comm i j

/-- The operator at one place, where either string may have ended. -/
def onPlaces : Option UInt8 → Option UInt8 → Option UInt8
  | some x, some y => some (op.onBytes x y)
  | none, y => if op = or then y else none
  | x, none => if op = or then x else none

theorem onPlaces_comm (x y : Option UInt8) : op.onPlaces x y = op.onPlaces y x := by
  cases x with
  | none => cases y <;> rfl
  | some x =>
    cases y with
    | none => rfl
    | some y => exact congrArg some (op.onBytes_comm x y)

theorem onPlaces_assoc (x y z : Option UInt8) :
    op.onPlaces (op.onPlaces x y) z = op.onPlaces x (op.onPlaces y z) := by
  by_cases disjunction : op = or
  · cases x <;> cases y <;> cases z <;> simp [onPlaces, disjunction, onBytes_assoc]
  · cases x <;> cases y <;> cases z <;> simp [onPlaces, disjunction, onBytes_assoc]

theorem getElem?_onStrings (k : Nat) :
    (op.onStrings a b)[k]? = op.onPlaces a[k]? b[k]? := by
  fun_induction op.onStrings a b generalizing k with
  | case1 x a y b ih =>
    cases k with
    | zero => rfl
    | succ k => exact ih k
  | case2 b disjunction => simp [onPlaces, disjunction]
  | case3 b other => simp [onPlaces, other]
  | case4 a _ disjunction => cases a[k]? <;> simp [onPlaces, disjunction]
  | case5 a _ other => cases a[k]? <;> simp [onPlaces, other]

theorem onStrings_comm : op.onStrings a b = op.onStrings b a := by
  apply List.ext_getElem?
  intro k
  rw [getElem?_onStrings, getElem?_onStrings, onPlaces_comm]

theorem onStrings_assoc :
    op.onStrings (op.onStrings a b) c = op.onStrings a (op.onStrings b c) := by
  apply List.ext_getElem?
  intro k
  simp only [getElem?_onStrings, onPlaces_assoc]

variable {a b}

theorem xor_onStrings_cancel (long : a.length ≤ b.length) :
    xor.onStrings (xor.onStrings a b) b = a := by
  apply List.ext_getElem?
  intro k
  rw [getElem?_onStrings, getElem?_onStrings]
  -- a string under a shorter mask would be cut, so the length of the mask matters
  by_cases inside : k < a.length
  · rw [List.getElem?_eq_getElem inside, List.getElem?_eq_getElem (Nat.lt_of_lt_of_le inside long)]
    have twice : (a[k] ^^^ b[k]) ^^^ b[k] = a[k] := by
      rw [UInt8.xor_assoc, UInt8.xor_self, UInt8.xor_zero]
    exact congrArg some twice
  · rw [List.getElem?_eq_none (Nat.le_of_not_lt inside)]
    rfl

variable (a b)

def reach (m n : Nat) : Nat := if op = or then max m n else min m n

theorem onStrings_eq : op.onStrings a b =
    (List.range (op.reach a.length b.length)).map fun k =>
      op.onBytes (a.getD k 0) (b.getD k 0) := by
  apply List.ext_getElem?
  intro k
  rw [getElem?_onStrings, List.getElem?_map]
  by_cases inside : k < op.reach a.length b.length
  · rw [List.getElem?_range inside]
    cases op <;> grind [reach, onPlaces, onBytes]
  · have beyond : (List.range (op.reach a.length b.length))[k]? = none := by
      simpa using inside
    -- past the end nothing is left of either string that the operator keeps
    rw [beyond]
    cases op <;> grind [reach, onPlaces]

variable {a b c}

theorem apply_str {s : Bytes} (result : op.onStrings a b = s) :
    op.apply (.str a) (.str b) = pure (.str s) := by
  subst result
  rfl

variable {x y : Value}

theorem apply_of_not_strings (mixed : ¬∃ s t, x = .str s ∧ y = .str t) : op.apply x y =
    if x.table?.isSome || y.table?.isSome then
      .reject (.unsupportedOperands x.kind op.symbol y.kind)
    else pure (.int (op.onWords x.toWord y.toWord)) := by
  unfold apply
  split
  next s t => exact absurd ⟨s, t, rfl, rfl⟩ mixed
  next => rfl

theorem apply_comm (x y : Value) : (op.apply x y).value = (op.apply y x).value ∧
    (op.apply x y).warnings.length = (op.apply y x).warnings.length := by
  by_cases strings : ∃ s t, x = .str s ∧ y = .str t
  · obtain ⟨s, t, rfl, rfl⟩ := strings
    rw [op.apply_str (op.onStrings_comm s t), op.apply_str rfl]
    exact ⟨rfl, rfl⟩
  · have exchanged : ¬∃ t s, y = .str t ∧ x = .str s := by
      rintro ⟨t, s, rfl, rfl⟩
      exact strings ⟨s, t, rfl, rfl⟩
    rw [apply_of_not_strings op strings, apply_of_not_strings op exchanged,
      Bool.or_comm y.table?.isSome, onWords_comm]
    split <;> exact ⟨rfl, rfl⟩

end MaskOp

section Operators

/-- On strings the operators work byte by byte: a disjunction reaches as far as the longer string,
with zeros for the bytes that the other one lacks, and the others as far as the shorter one. So they
are commutative and associative on strings of any lengths, and a mask at least as long as the string
comes off again. On any two values the operands can be exchanged. -/
theorem masks_bytewise :
    (∀ a b : Bytes,
      (BinaryOp.mask .or).apply (.str a) (.str b) = pure (.str
          ((List.range (max a.length b.length)).map fun k => a.getD k 0 ||| b.getD k 0)) ∧
        (BinaryOp.mask .and).apply (.str a) (.str b) = pure (.str
          ((List.range (min a.length b.length)).map fun k => a.getD k 0 &&& b.getD k 0)) ∧
        (BinaryOp.mask .xor).apply (.str a) (.str b) = pure (.str
          ((List.range (min a.length b.length)).map fun k => a.getD k 0 ^^^ b.getD k 0))) ∧
      (∀ (op : MaskOp) (a b c : Bytes),
        (BinaryOp.mask op).apply (.str a) (.str b) = (BinaryOp.mask op).apply (.str b) (.str a) ∧
          ((BinaryOp.mask op).apply (.str a) (.str b) >>=
              ((BinaryOp.mask op).apply · (.str c))) =
            ((BinaryOp.mask op).apply (.str b) (.str c) >>=
              ((BinaryOp.mask op).apply (.str a) ·))) ∧
      (∀ a b : Bytes, a.length ≤ b.length →
        ((BinaryOp.mask .xor).apply (.str a) (.str b) >>=
          ((BinaryOp.mask .xor).apply · (.str b))) = pure (.str a)) ∧
      ∀ (op : MaskOp) (x y : Value),
        ((BinaryOp.mask op).apply x y).value = ((BinaryOp.mask op).apply y x).value ∧
          ((BinaryOp.mask op).apply x y).warnings.length =
            ((BinaryOp.mask op).apply y x).warnings.length := by
  refine ⟨fun a b => ⟨?_, ?_, ?_⟩, fun op a b c => ⟨?_, ?_⟩, fun a b long => ?_, ?_⟩
  · exact MaskOp.or.apply_str (MaskOp.or.onStrings_eq a b)
  · exact MaskOp.and.apply_str (MaskOp.and.onStrings_eq a b)
  · exact MaskOp.xor.apply_str (MaskOp.xor.onStrings_eq a b)
  · exact op.apply_str (op.onStrings_comm a b)
  · exact op.apply_str (op.onStrings_assoc a b c)
  · exact MaskOp.xor.apply_str (MaskOp.xor_onStrings_cancel long)
  · exact fun op x y => op.apply_comm x y

theorem short_string_unmasked :
    ([65] : Bytes).length ≤ ([32, 7] : Bytes).length ∧
      ((BinaryOp.mask .xor).apply (.str [65]) (.str [32, 7]) >>=
        ((BinaryOp.mask .xor).apply · (.str [32, 7]))) = pure (.str [65]) := by
  have long : ([65] : Bytes).length ≤ ([32, 7] : Bytes).length := by decide
  exact ⟨long, masks_bytewise.2.2.1 [65] [32, 7] long⟩

end Operators

end ConstExpr
