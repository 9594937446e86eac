import ConstExpr.Operator.Apply
import Mathlib.Data.List.Basic

/-!
Rejected operands. An operator of arithmetic or on bits either has a value and says nothing, or it
has none and gives one reason. So its result is null exactly when it has left a warning, and it
never leaves two.
-/

namespace ConstExpr

/-- A value that comes without a warning, or null with the one reason for it. -/
inductive Answered : Logged Value → Prop where
  | value {v : Value} (some : v ≠ .null) : Answered (pure v)
  | rejected (reason : Warning) : Answered (.reject reason)

namespace Answered

theorem int (i : Int64) : Answered (pure (.int i)) := .value nofun

theorem float (x : Float) : Answered (pure (.float x)) := .value nofun

theorem str (s : Bytes) : Answered (pure (.str s)) := .value nofun

variable {left right : Value}

theorem onNumbers (op : ArithOp) (a b : Number) : Answered (pure (op.onNumbers a b)) := by
  unfold ArithOp.onNumbers
  split
  next i j =>
    cases op.onWords? i j with
    | some n => exact int n
    | none => exact float _
  next => exact float _

theorem onScalars (op : ArithOp) : Answered (op.onScalars left right) := by
  unfold ArithOp.onScalars
  split
  next a b _ _ =>
    split
    · exact rejected _
    · exact onNumbers op a b
  next => exact rejected _

theorem arith (op : ArithOp) : Answered (op.apply left right) := by
  unfold ArithOp.apply
  split
  next => exact value nofun
  next => exact onScalars op

theorem modulo : Answered (ConstExpr.modulo left right) := by
  unfold ConstExpr.modulo
  split_ifs
  · exact rejected _
  · exact rejected _
  · exact int _

theorem mask (op : MaskOp) : Answered (op.apply left right) := by
  unfold MaskOp.apply
  split
  next => exact str _
  next =>
    split
    · exact rejected _
    · exact int _

theorem shift (symbol : String) (move : Int64 → Nat → Int64) :
    Answered (ConstExpr.shift symbol move left right) := by
  unfold ConstExpr.shift
  split_ifs
  · exact rejected _
  · exact rejected _
  · exact int _

theorem complement (v : Value) : Answered (ConstExpr.complement v) := by
  cases v with
  | int i => exact int _
  | float x => exact int _
  | str s => exact str _
  | null => exact rejected _
  | bool b => exact rejected _
  | array t => exact rejected _

theorem negate (v : Value) : Answered (ConstExpr.negate v) := by
  unfold ConstExpr.negate
  split
  next i =>
    cases Word.ofInt? (-i.toInt) with
    | some n => exact int n
    | none => exact float _
  next x => exact float _
  next => exact arith .mul

theorem affirm (v : Value) : Answered (ConstExpr.affirm v) := by
  unfold ConstExpr.affirm
  split
  next i => exact int i
  next x => exact float x
  next => exact arith .mul

theorem null_iff {result : Logged Value} (answered : Answered result) :
    result.warnings.length ≤ 1 ∧ (result.value = .null ↔ result.warnings.length = 1) := by
  cases answered with
  | value some =>
    refine ⟨Nat.zero_le 1, fun null => absurd null some, fun one => ?_⟩
    cases one
  | rejected reason => exact ⟨Nat.le_refl 1, fun _ => rfl, fun _ => rfl⟩

end Answered

/-- The operators of arithmetic and on bits. -/
inductive BinaryOp.Computes : BinaryOp → Prop where
  | arith (op : ArithOp) : Computes (.arith op)
  | modulo : Computes .modulo
  | mask (op : MaskOp) : Computes (.mask op)
  | shiftLeft : Computes .shiftLeft
  | shiftRight : Computes .shiftRight

/-- An operator of arithmetic or on bits leaves at most one warning, and it leaves one exactly when
its result is null. So do both signs and the complement. -/
theorem rejections_logged (left right : Value) :
    (∀ op : BinaryOp, op.Computes →
      (op.apply left right).warnings.length ≤ 1 ∧
        ((op.apply left right).value = .null ↔ (op.apply left right).warnings.length = 1)) ∧
      ∀ op ∈ [UnaryOp.plus, UnaryOp.minus, UnaryOp.bitNot],
        (op.apply left).warnings.length ≤ 1 ∧
          ((op.apply left).value = .null ↔ (op.apply left).warnings.length = 1) := by
  constructor
  · intro op computes
    apply Answered.null_iff
    cases computes with
    | arith op => exact .arith op
    | modulo => exact .modulo
    | mask op => exact .mask op
    | shiftLeft => exact .shift "<<" Word.shiftLeft
    | shiftRight => exact .shift ">>" Word.shiftRight
  · intro op signed
    apply Answered.null_iff
    simp only [List.mem_cons, List.not_mem_nil, or_false] at signed
    rcases signed with rfl | rfl | rfl
    · exact .affirm left
    · exact .negate left
    · exact .complement left

theorem text_not_negated :
    BinaryOp.modulo.Computes ∧ UnaryOp.minus ∈ [UnaryOp.plus, UnaryOp.minus, UnaryOp.bitNot] ∧
      (BinaryOp.modulo.apply (.str [97]) (.int 0)).warnings.length = 1 ∧
      (UnaryOp.minus.apply (.str [97])).warnings.length = 1 := by
  have computes : BinaryOp.modulo.Computes := .modulo
  have signed : UnaryOp.minus ∈ [UnaryOp.plus, UnaryOp.minus, UnaryOp.bitNot] := by decide
  obtain ⟨binary, unary⟩ := rejections_logged (.str [97]) (.int 0)
  exact ⟨computes, signed, (binary _ computes).2.mp rfl, (unary _ signed).2.mp rfl⟩

end ConstExpr
