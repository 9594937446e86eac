import ConstExpr.Proofs.EntryOrder
import ConstExpr.Proofs.NextIndex

/-!
The sum of two arrays. It is the first array followed by what the second one has under other keys,
with the next free index that these entries give. So sums may be bracketed in any way, an array
added to itself changes nothing, and neither does the empty array.
-/

namespace ConstExpr

namespace Table

variable {α : Type} {a b c : Table α}

theorem entries_step (t : Table α) (key : Key) (v : α) :
    (if (t.get? key).isSome then t else t.insert key v).entries =
      Assoc.putNew t.entries key v := by
  cases found : t.get? key with
  | some old =>
    have known : Assoc.has t.entries key := Option.isSome_iff_exists.mpr ⟨old, found⟩
    rw [Assoc.putNew, if_pos known]
    rfl
  | none =>
    have new : key ∉ Assoc.keys t.entries := Assoc.get?_eq_none_iff.mp found
    have absent : ¬Assoc.has t.entries key := by
      rw [Assoc.has, Assoc.get?_eq_none_iff.mpr new]
      exact Bool.false_ne_true
    rw [Assoc.putNew, if_neg absent, ← Assoc.put_of_not_mem v new]
    rfl

theorem entries_union (a b : Table α) : (a.union b).entries = Assoc.union a.entries b.entries := by
  unfold union Assoc.union
  generalize b.entries = added
  induction added generalizing a with
  | nil => rfl
  | cons entry rest ih =>
    rw [List.foldl_cons, List.foldl_cons, ih, entries_step]

theorem Tracked.ext (tracked : a.Tracked) (tracked' : b.Tracked) (same : a.entries = b.entries) :
    a = b := by
  -- the entries alone tell the next free index
  have next : a.nextFree = b.nextFree := by rw [tracked.nextFree_eq, tracked'.nextFree_eq, same]
  cases a
  cases b
  cases same
  cases next
  rfl

theorem Tracked.union (tracked : a.Tracked) (b : Table α) : (a.union b).Tracked := by
  refine List.foldlRecOn b.entries _ tracked fun t kept entry _ => ?_
  dsimp only
  split
  · exact kept
  · exact kept.insert entry.1 entry.2

section Laws

variable (first : a.Tracked) (second : b.Tracked) (third : c.Tracked)

include first

theorem union_self : a.union a = a :=
  (first.union a).ext first ((entries_union a a).trans (Assoc.union_self first.unique))

theorem empty_union : empty.union a = a :=
  (Tracked.empty.union a).ext first ((entries_union _ a).trans (Assoc.nil_union first.unique))

include second third

theorem union_assoc : (a.union b).union c = a.union (b.union c) := by
  refine ((first.union b).union c).ext (first.union _) ?_
  simp only [entries_union]
  exact Assoc.union_assoc second.unique third.unique

end Laws

end Table

/-- The sum of two arrays has what the first one has, in its order, followed by what the second one
has under other keys; of arrays whose next free index is that of their keys it is such an array
again. Sums are associative, with the order of the entries and the next free index; an array is its
own sum with itself, and with the empty array on either side. -/
theorem union_ordered_monoid {a b c : Table Value} (first : a.Tracked) (second : b.Tracked)
    (third : c.Tracked) :
    ArithOp.add.apply (.array a) (.array b) = pure (.array (a.union b)) ∧ (a.union b).Tracked ∧
      (∀ key, (a.union b).get? key = (a.get? key).or (b.get? key)) ∧
      Assoc.keys (a.union b).entries =
        Assoc.keys a.entries ++ (Assoc.keys b.entries).filter (· ∉ Assoc.keys a.entries) ∧
      (ArithOp.add.apply (.array a) (.array b) >>= (ArithOp.add.apply · (.array c))) =
        (ArithOp.add.apply (.array b) (.array c) >>= ArithOp.add.apply (.array a)) ∧
      ArithOp.add.apply (.array a) (.array a) = pure (.array a) ∧
      ArithOp.add.apply (.array .empty) (.array a) = pure (.array a) ∧
      ArithOp.add.apply (.array a) (.array .empty) = pure (.array a) := by
  have sum : ∀ s t : Table Value,
      ArithOp.add.apply (.array s) (.array t) = pure (.array (s.union t)) := fun _ _ => rfl
  refine ⟨sum a b, first.union b, fun key => ?_, ?_, ?_, ?_, ?_, ?_⟩
  · rw [Table.get?, Table.entries_union, Assoc.get?_union second.unique]
    rfl
  · rw [Table.entries_union, Assoc.keys_union second.unique]
  · have assoc := Table.union_assoc first second third
    show ArithOp.add.apply (.array (a.union b)) (.array c) =
      ArithOp.add.apply (.array a) (.array (b.union c))
    rw [sum, sum, assoc]
  · rw [sum, Table.union_self first]
  · rw [sum, Table.empty_union first]
  · exact sum a .empty

theorem shared_keys_union :
    let a : Table Value := .ofEntries [(.int 5, .int 1), (.str [107], .int 2)]
    let b : Table Value := .ofEntries [(.str [107], .int 3), (.int (-2), .int 4)]
    let c : Table Value := .ofEntries [(.int 0, .int 5), (.int (-2), .int 6)]
    (a.Tracked ∧ b.Tracked ∧ c.Tracked) ∧
      (ArithOp.add.apply (.array a) (.array b) >>= (ArithOp.add.apply · (.array c))) =
        (ArithOp.add.apply (.array b) (.array c) >>= ArithOp.add.apply (.array a)) ∧
      Assoc.keys (a.union b).entries = [.int 5, .str [107], .int (-2)] ∧
      (a.union b).get? (.str [107]) = some (.int 2) ∧
      (a.union b).nextFree = 6 := by
  intro a b c
  have first : a.Tracked := .ofEntries (by decide)
  have second : b.Tracked := .ofEntries (by decide)
  have third : c.Tracked := .ofEntries (by decide)
  obtain ⟨-, -, values, keys, assoc, -⟩ := union_ordered_monoid first second third
  exact ⟨⟨first, second, third⟩, assoc, keys.trans (by decide), (values _).trans rfl, by decide⟩

end ConstExpr
