import ConstExpr.Proofs.DecimalRounding
import ConstExpr.Value.Conversion

/-!
A float read from decimal text is a number: it is the float nearest to what the text spells, and
what is not a number is nearest to nothing. So the number of a string compares with itself.
-/

namespace ConstExpr.Binary64

variable {x : Float}

theorem exists_rank (number : read x ≠ .nan) : ∃ n, rank x = some n := by
  by_contra nowhere
  have beyond : 2047 * hiddenBit < x.toBits.toNat % signBit := by
    by_contra within
    exact nowhere ⟨_, by rw [rank]; exact if_neg within⟩
  simp only [hiddenBit, signBit] at beyond
  have ones : x.toBits.toNat / hiddenBit % 2048 = 2047 := by
    rw [hiddenBit]
    omega
  have some : x.toBits.toNat % hiddenBit ≠ 0 := by
    rw [hiddenBit]
    omega
  apply number
  unfold read
  dsimp only
  rw [if_pos ones, if_neg some]

theorem order?_self (number : read x ≠ .nan) : order? x x = some .eq := by
  obtain ⟨n, place⟩ := exists_rank number
  simp [order?, place]

theorem Nearest.number {negative : Bool} {q : ℚ} (nearest : Nearest negative q x) :
    read x ≠ .nan := by
  intro nan
  rw [Nearest, nan] at nearest
  exact nearest

end ConstExpr.Binary64

namespace ConstExpr

theorem Numeral.order?_value_self (n : Numeral) : n.value.order? n.value = some .eq := by
  have float := Binary64.order?_self n.nearest.number
  unfold Numeral.value
  split
  · exact float
  · dsimp only
    split
    next i _ => simp [Number.order?]
    next => exact float

theorem Value.order?_wholeNumber_self {v : Value} {n : Number} (read : v.wholeNumber? = some n) :
    n.order? n = some .eq := by
  cases v with
  | str s =>
    unfold Value.wholeNumber? at read
    dsimp only at read
    split at read
    next m found =>
      cases read
      obtain ⟨⟨numeral, rest⟩, -, same⟩ := Option.map_eq_some_iff.mp found
      obtain ⟨rfl, -⟩ := Prod.mk.inj same
      exact numeral.order?_value_self
    next => cases read
  | _ => cases read

end ConstExpr
