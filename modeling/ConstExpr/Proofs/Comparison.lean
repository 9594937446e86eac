import ConstExpr.Operator.Apply
import ConstExpr.Proofs.ArrayShape
import Mathlib

/-!
Comparing two values from either side. Values that are not both arrays compare the other way round
when they change sides. Arrays of one size are compared key by key in the order of the left one, so
they do the same as long as both walks stop at the same key. Equal arrays are equal from either
side, whatever the order of their keys.
-/

namespace ConstExpr

section Swap

theorem orderTruth_swap (a b : Bool) : (orderTruth a b).swap = orderTruth b a :=
  Nat.compare_swap _ _

theorem Binary64.order?_swap (x y : Float) : (order? x y).map Ordering.swap = order? y x := by
  unfold order?
  cases rank x with
  | none => cases rank y <;> rfl
  | some m =>
    cases rank y with
    | none => rfl
    | some n => simp [Int.compare_swap]

theorem Number.order?_swap (m n : Number) : (m.order? n).map Ordering.swap = n.order? m := by
  cases m with
  | int i =>
    cases n with
    | int j => simp [Number.order?, Int.compare_swap]
    | float y => exact Binary64.order?_swap _ _
  | float x => cases n <;> exact Binary64.order?_swap _ _

theorem Bytes.order_swap (s t : Bytes) : (order s t).swap = order t s := by
  induction s generalizing t with
  | nil => cases t <;> rfl
  | cons a s ih =>
    cases t with
    | nil => rfl
    | cons b t => simp [order, Ordering.swap_then, Nat.compare_swap, ih]

namespace Value

theorem orderStrings_swap (s t : Bytes) :
    (orderScalars? (str s) (str t)).map Ordering.swap = orderScalars? (str t) (str s) := by
  simp only [orderScalars?]
  cases (str s).wholeNumber? with
  | none => cases (str t).wholeNumber? <;> simp [Bytes.order_swap]
  | some m =>
    cases (str t).wholeNumber? with
    | none => simp [Bytes.order_swap]
    | some n => exact Number.order?_swap m n

theorem orderScalars?_swap {a b : Value} (plain : a.table? = none ∨ b.table? = none) :
    (orderScalars? a b).map Ordering.swap = orderScalars? b a := by
  cases a with
  | null =>
    cases b with
    | str t => cases t <;> rfl
    | _ => simp [orderScalars?, orderTruth_swap, truth]
  | bool p => cases b <;> simp [orderScalars?, orderTruth_swap, truth]
  | int i =>
    cases b with
    | int j => simp [orderScalars?, Int.compare_swap]
    | float y => exact Binary64.order?_swap _ _
    | str t => simp [orderScalars?, Function.comp_def]
    | array t => rfl
    | _ => simp [orderScalars?, orderTruth_swap]
  | float x =>
    cases b with
    | int j => exact Binary64.order?_swap _ _
    | float y => exact Binary64.order?_swap _ _
    | str t => simp [orderScalars?, Function.comp_def]
    | array t => rfl
    | _ => simp [orderScalars?, orderTruth_swap]
  | str s =>
    cases b with
    | null => cases s <;> rfl
    | bool p => simp [orderScalars?, orderTruth_swap]
    | str t => exact orderStrings_swap s t
    | _ => rfl
  | array t =>
    cases b with
    | null => simp [orderScalars?, orderTruth_swap]
    | bool p => simp [orderScalars?, orderTruth_swap]
    | array other => simp [table?] at plain
    | _ => rfl

theorem order?_of_plain {a b : Value} (plain : a.table? = none ∨ b.table? = none) :
    order? a b = orderScalars? a b := by
  cases a with
  | array t =>
    cases b with
    | array other => simp [table?] at plain
    | _ => simp [order?]
  | _ => simp [order?]

theorem order?_swap_of_plain {a b : Value} (plain : a.table? = none ∨ b.table? = none) :
    (order? a b).map Ordering.swap = order? b a := by
  rw [order?_of_plain plain, order?_of_plain plain.symm, orderScalars?_swap plain]

end Value

end Swap

/-- A value in whose arrays, at every depth, each key occurs once. -/
inductive Value.Keyed : Value → Prop
  | scalar {v : Value} (plain : v.table? = none) : Keyed v
  | array {t : Table Value} (unique : (Assoc.keys t.entries).Nodup)
      (each : ∀ entry ∈ t.entries, Keyed entry.2) : Keyed (.array t)

theorem Value.keyed_array {t : Table Value} :
    (Value.array t).Keyed ↔
      (Assoc.keys t.entries).Nodup ∧ ∀ entry ∈ t.entries, entry.2.Keyed := by
  constructor
  · intro keyed
    cases keyed with
    | scalar plain => cases plain
    | array unique each => exact ⟨unique, each⟩
  · exact fun ⟨unique, each⟩ => .array unique each

theorem Value.Keyed.flat {t : Table Value} (unique : (Assoc.keys t.entries).Nodup)
    (plain : t.entries.all (·.2.table?.isNone)) : (Value.array t).Keyed :=
  .array unique fun entry member =>
    .scalar (Option.isNone_iff_eq_none.mp (List.all_eq_true.mp plain entry member))

theorem Value.WellFormed.keyed {v : Value} (formed : v.WellFormed) : v.Keyed := by
  induction formed with
  | scalar plain => exact .scalar plain
  | array orderly each ih => exact .array orderly.unique ih

namespace Table

variable {s t : Table Value}

def matched (t : Table Value) (entry : Key × Value) : Bool := (t.get? entry.1).any entry.2.equal

/-- The entry at which the comparison with another array stops: the first one that is not
matched there. -/
def firstUnmatched (s t : Table Value) : Option (Key × Value) := s.entries.find? (!t.matched ·)

theorem matched_iff {entry : Key × Value} :
    t.matched entry ↔ ∃ found, t.get? entry.1 = some found ∧ entry.2.order? found = some .eq := by
  unfold matched
  cases t.get? entry.1 with
  | none => simp
  | some found => simp [Value.equal]

end Table

namespace Value

variable {s t : Table Value}

theorem orderEntries?_eq (entries : List (Key × Value)) (t : Table Value) :
    orderEntries? entries t =
      (entries.find? (!t.matched ·)).elim (some .eq)
        fun entry => (t.get? entry.1).bind entry.2.order? := by
  induction entries with
  | nil => rfl
  | cons entry rest ih =>
    obtain ⟨key, value⟩ := entry
    rw [orderEntries?]
    cases there : t.get? key with
    | none => simp [Table.matched, there]
    | some found =>
      cases decided : order? value found with
      | none => simp [Table.matched, there, equal, decided]
      | some order =>
        cases order with
        | eq => simp [Table.matched, there, equal, decided, ih]
        | _ => simp [Table.matched, there, equal, decided]

theorem order?_array_of_size (same : s.size = t.size) :
    order? (array s) (array t) =
      (s.firstUnmatched t).elim (some .eq) fun entry => (t.get? entry.1).bind entry.2.order? := by
  obtain ⟨entries, next⟩ := s
  have same : entries.length = t.size := same
  rw [order?, if_pos same, orderEntries?_eq]
  rfl

theorem order?_array_of_size_ne (differ : s.size ≠ t.size) :
    order? (array s) (array t) = some (compare s.size t.size) := by
  obtain ⟨entries, next⟩ := s
  have differ : entries.length ≠ t.size := differ
  rw [order?, if_neg differ]
  rfl

theorem order?_swap_of_size_ne (differ : s.size ≠ t.size) :
    (order? (array s) (array t)).map Ordering.swap = order? (array t) (array s) := by
  rw [order?_array_of_size_ne differ, order?_array_of_size_ne differ.symm, Option.map_some,
    Nat.compare_swap]

theorem equal_array_iff :
    (array s).equal (array t) ↔ s.size = t.size ∧ ∀ entry ∈ s.entries, t.matched entry := by
  by_cases same : s.size = t.size
  · have all : s.firstUnmatched t = none ↔ ∀ entry ∈ s.entries, t.matched entry := by
      simp [Table.firstUnmatched]
    rw [equal, order?_array_of_size same, ← all]
    cases stop : s.firstUnmatched t with
    | none => simp [same]
    | some entry =>
      -- an entry that is not matched does not compare as equal
      have unmatched : ¬t.matched entry := by simpa using List.find?_some stop
      have unequal : (t.get? entry.1).bind entry.2.order? ≠ some .eq := fun equal =>
        unmatched (Table.matched_iff.mpr (Option.bind_eq_some_iff.mp equal))
      simpa using unequal
  · simp [equal, order?_array_of_size_ne same, same]

theorem equal_swap_of_plain {a b : Value} (plain : a.table? = none ∨ b.table? = none)
    (same : a.equal b) : b.equal a := by
  rw [equal, ← order?_swap_of_plain plain, beq_iff_eq.mp same]
  rfl

theorem equal_swap {a b : Value} (left : a.Keyed) (right : b.Keyed) (same : a.equal b) :
    b.equal a := by
  -- unique keys, all of them in an array of the same size: so both have the same keys
  induction left generalizing b with
  | scalar plain => exact equal_swap_of_plain (.inl plain) same
  | @array s unique each ih =>
    cases right with
    | scalar plain => exact equal_swap_of_plain (.inr plain) same
    | @array t unique' each' =>
      obtain ⟨size, matched⟩ := equal_array_iff.mp same
      have included : Assoc.keys s.entries ⊆ Assoc.keys t.entries := by
        intro key member
        obtain ⟨entry, inside, rfl⟩ := List.mem_map.mp member
        obtain ⟨found, there, -⟩ := Table.matched_iff.mp (matched entry inside)
        exact List.mem_map.mpr ⟨_, Assoc.mem_of_get? there, rfl⟩
      have keys : (Assoc.keys s.entries).Perm (Assoc.keys t.entries) := by
        refine (List.subperm_of_subset unique included).perm_of_length_le ?_
        rw [Assoc.keys, Assoc.keys, List.length_map, List.length_map]
        exact size.ge
      refine equal_array_iff.mpr ⟨size.symm, fun entry inside => ?_⟩
      obtain ⟨left, member, key⟩ :=
        List.mem_map.mp (keys.mem_iff.mpr (List.mem_map_of_mem inside))
      obtain ⟨found, there, equal⟩ := Table.matched_iff.mp (matched left member)
      have here : t.get? left.1 = some entry.2 := by
        rw [key]
        exact (Assoc.get?_eq_some_iff unique').mpr inside
      obtain rfl : found = entry.2 := Option.some.inj (there.symm.trans here)
      refine Table.matched_iff.mpr ⟨left.2, ?_, ?_⟩
      · rw [← key]
        exact (Assoc.get?_eq_some_iff unique).mpr member
      · exact beq_iff_eq.mp (ih left member (each' entry inside) (beq_iff_eq.mpr equal))

theorem equal_symmetric {a b : Value} (left : a.Keyed) (right : b.Keyed) :
    a.equal b = b.equal a :=
  Bool.eq_iff_iff.mpr ⟨equal_swap left right, equal_swap right left⟩

theorem reordered_equal_symmetric :
    let a : Value := .array ⟨[(.str [120], .array ⟨[(.int 0, .int 1), (.int 1, .str [49])], 2⟩),
      (.str [121], .null)], 0⟩
    let b : Value := .array ⟨[(.str [121], .bool false),
      (.str [120], .array ⟨[(.int 1, .int 1), (.int 0, .bool true)], 2⟩)], 0⟩
    a.Keyed ∧ b.Keyed ∧ a.equal b = true ∧ a.equal b = b.equal a := by
  intro a b
  have left : a.Keyed := .array (by decide) (List.forall_mem_cons.mpr
    ⟨.flat (by decide) (by decide), List.forall_mem_singleton.mpr (.scalar rfl)⟩)
  have right : b.Keyed := .array (by decide) (List.forall_mem_cons.mpr
    ⟨.scalar rfl, List.forall_mem_singleton.mpr (.flat (by decide) (by decide))⟩)
  exact ⟨left, right, by cbv, equal_symmetric left right⟩

/-- Two values whose corresponding arrays, at every depth, list the same keys in the same order. -/
inductive SameLayout : Value → Value → Prop
  | plain {a b : Value} (plain : a.table? = none ∨ b.table? = none) : SameLayout a b
  | arrays {s t : Table Value} (keys : Assoc.keys s.entries = Assoc.keys t.entries)
      (each : ∀ key v w, s.get? key = some v → t.get? key = some w → SameLayout v w) :
      SameLayout (array s) (array t)

/-- Two values whose comparisons from either side stop at the same key, at every depth down to the
values that decide. -/
inductive Aligned : Value → Value → Prop
  | plain {a b : Value} (plain : a.table? = none ∨ b.table? = none) : Aligned a b
  | sizes {s t : Table Value} (differ : s.size ≠ t.size) : Aligned (array s) (array t)
  | matched {s t : Table Value} (all : s.firstUnmatched t = none) : Aligned (array s) (array t)
  | stop {s t : Table Value} {key : Key} {v w : Value} (left : s.firstUnmatched t = some (key, v))
      (right : t.firstUnmatched s = some (key, w)) (inner : Aligned v w) :
      Aligned (array s) (array t)

theorem Aligned.order?_swap {a b : Value} (aligned : a.Aligned b) (left : a.Keyed)
    (right : b.Keyed) : (order? a b).map Ordering.swap = order? b a := by
  induction aligned with
  | plain plain => exact order?_swap_of_plain plain
  | sizes differ => exact order?_swap_of_size_ne differ
  | @matched s t all =>
    by_cases same : s.size = t.size
    · have here : order? (array s) (array t) = some .eq := by
        rw [order?_array_of_size same, all]
        rfl
      have there : order? (array t) (array s) = some .eq :=
        beq_iff_eq.mp (equal_swap left right (beq_iff_eq.mpr here))
      rw [here, there]
      rfl
    · exact order?_swap_of_size_ne same
  | @stop s t key v w here there inner ih =>
    -- both sides come to the values under this key, and those compare the other way round
    by_cases same : s.size = t.size
    · obtain ⟨unique, each⟩ := keyed_array.mp left
      obtain ⟨unique', each'⟩ := keyed_array.mp right
      have v_inside := List.mem_of_find?_eq_some here
      have w_inside := List.mem_of_find?_eq_some there
      have v_found : s.get? key = some v := (Assoc.get?_eq_some_iff unique).mpr v_inside
      have w_found : t.get? key = some w := (Assoc.get?_eq_some_iff unique').mpr w_inside
      rw [order?_array_of_size same, order?_array_of_size same.symm, here, there]
      simpa [v_found, w_found] using ih (each _ v_inside) (each' _ w_inside)
    · exact order?_swap_of_size_ne same

theorem firstUnmatched_keys (left : (array s).Keyed) (right : (array t).Keyed)
    (keys : Assoc.keys s.entries = Assoc.keys t.entries) :
    (s.firstUnmatched t).map Prod.fst = (t.firstUnmatched s).map Prod.fst := by
  obtain ⟨unique, each⟩ := keyed_array.mp left
  obtain ⟨unique', each'⟩ := keyed_array.mp right
  -- both walks ask the same of a key: whether its two values differ
  let differs (key : Key) : Bool :=
    !(t.get? key).any fun w => (s.get? key).any fun v => v.equal w
  have here : s.firstUnmatched t = s.entries.find? (differs ∘ Prod.fst) := by
    refine List.find?_congr fun entry member => ?_
    have found : s.get? entry.1 = some entry.2 := (Assoc.get?_eq_some_iff unique).mpr member
    simp [differs, Table.matched, found]
  have there : t.firstUnmatched s = t.entries.find? (differs ∘ Prod.fst) := by
    refine List.find?_congr fun entry member => ?_
    have found : t.get? entry.1 = some entry.2 := (Assoc.get?_eq_some_iff unique').mpr member
    cases other : s.get? entry.1 with
    | none => simp [differs, Table.matched, found, other]
    | some v =>
      have keyed := each _ (Assoc.mem_of_get? other)
      have symm : entry.2.equal v = v.equal entry.2 := Bool.eq_iff_iff.mpr
        ⟨equal_swap (each' entry member) keyed, equal_swap keyed (each' entry member)⟩
      simp [differs, Table.matched, found, other, symm]
  rw [here, there, ← List.find?_map, ← List.find?_map]
  exact congrArg (List.find? differs) keys

theorem SameLayout.aligned {a b : Value} (layout : a.SameLayout b) (left : a.Keyed)
    (right : b.Keyed) : a.Aligned b := by
  induction layout with
  | plain plain => exact .plain plain
  | @arrays s t keys each ih =>
    have stops := firstUnmatched_keys left right keys
    cases here : s.firstUnmatched t with
    | none => exact .matched here
    | some entry =>
      rw [here] at stops
      obtain ⟨other, there, key⟩ := Option.map_eq_some_iff.mp stops.symm
      obtain ⟨unique, inner⟩ := keyed_array.mp left
      obtain ⟨unique', inner'⟩ := keyed_array.mp right
      have inside := List.mem_of_find?_eq_some here
      have inside' := List.mem_of_find?_eq_some there
      obtain ⟨stop, v⟩ := entry
      obtain ⟨stop', w⟩ := other
      obtain rfl : stop = stop' := key.symm
      refine .stop here there (ih stop v w ?_ ?_ (inner _ inside) (inner' _ inside'))
      · exact (Assoc.get?_eq_some_iff unique).mpr inside
      · exact (Assoc.get?_eq_some_iff unique').mpr inside'

end Value

/-- An ordering and its converse agree for values on either side whose comparisons stop at the same
key, and so in particular where corresponding arrays list their keys in the same order. -/
theorem orderings_converse {a b : Value} (left : a.Keyed) (right : b.Keyed) :
    (a.SameLayout b → a.Aligned b) ∧
      (a.Aligned b →
        (BinaryOp.relation .less).apply a b = (BinaryOp.relation .greater).apply b a ∧
        (BinaryOp.relation .lessEqual).apply a b =
          (BinaryOp.relation .greaterEqual).apply b a) := by
  refine ⟨fun layout => layout.aligned left right, fun aligned => ?_⟩
  have swap := aligned.order?_swap left right
  simp only [BinaryOp.apply, Relation.holds, ← swap]
  cases Value.order? a b with
  | none => exact ⟨rfl, rfl⟩
  | some order => cases order <;> exact ⟨rfl, rfl⟩

theorem decided_last_converse :
    let a : Value := .array ⟨[(.int 0, .int 1), (.str [120], .bool true), (.int 1, .int 5)], 2⟩
    let b : Value := .array ⟨[(.str [120], .int 7), (.int 0, .str [49]), (.int 1, .int 6)], 2⟩
    a.Keyed ∧ b.Keyed ∧ a.Aligned b ∧ (BinaryOp.relation .less).apply a b = pure (.bool true) ∧
      (BinaryOp.relation .less).apply a b = (BinaryOp.relation .greater).apply b a := by
  intro a b
  have left : a.Keyed := .flat (by decide) (by decide)
  have right : b.Keyed := .flat (by decide) (by decide)
  have aligned : a.Aligned b := .stop (by cbv) (by cbv) (.plain (.inl rfl))
  exact ⟨left, right, aligned, by cbv, ((orderings_converse left right).2 aligned).1⟩

theorem shuffled_not_converse :
    let a : Value := .array ⟨[(.int 0, .int 1), (.int 1, .int 2)], 2⟩
    let b : Value := .array ⟨[(.int 1, .int 1), (.int 0, .int 2)], 2⟩
    a.Keyed ∧ b.Keyed ∧ (BinaryOp.relation .less).apply a b = pure (.bool true) ∧
      (BinaryOp.relation .greater).apply b a = pure (.bool false) ∧
      (BinaryOp.relation .less).apply a b ≠ (BinaryOp.relation .greater).apply b a := by
  intro a b
  have left : a.Keyed := .flat (by decide) (by decide)
  have right : b.Keyed := .flat (by decide) (by decide)
  have less : (BinaryOp.relation .less).apply a b = pure (.bool true) := by cbv
  -- the second array begins with another key, and that one decides the other way
  have greater : (BinaryOp.relation .greater).apply b a = pure (.bool false) := by cbv
  refine ⟨left, right, less, greater, ?_⟩
  rw [less, greater]
  intro same
  cases same

end ConstExpr
