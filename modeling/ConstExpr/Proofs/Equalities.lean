import ConstExpr.Proofs.Comparison
import ConstExpr.Proofs.DecimalFloat

/-!
The equalities of values, from the finest on. Identical values are the same value with the keys of
corresponding arrays in the same order; values that are the same are equal after conversions. One
equality goes through arrays side by side, the others look keys up, and the two ways agree because
a key occurs once.
-/

namespace ConstExpr

theorem Assoc.forall_get?_cons {κ α : Type} [DecidableEq κ] {m other : Assoc κ α} {first : κ}
    {a b : α} {related : α → α → Prop} (new : first ∉ keys m) :
    (∀ key v w, get? ((first, a) :: m) key = some v → get? ((first, b) :: other) key = some w →
        related v w) ↔
      related a b ∧ ∀ key v w, get? m key = some v → get? other key = some w → related v w := by
  constructor
  · intro each
    refine ⟨each first a b (by simp [get?]) (by simp [get?]), ?_⟩
    intro key v w here there
    have apart : first ≠ key := by
      intro same
      rw [get?_eq_none_iff.mpr (same ▸ new)] at here
      cases here
    exact each key v w (by simpa [get?, apart] using here) (by simpa [get?, apart] using there)
  · intro each key v w here there
    by_cases same : first = key
    · obtain rfl : a = v := by simpa [get?, same] using here
      obtain rfl : b = w := by simpa [get?, same] using there
      exact each.1
    · exact each.2 key v w (by simpa [get?, same] using here) (by simpa [get?, same] using there)

namespace Value

variable {a b : Value} {s t : Table Value}

theorem identicalEntries_iff {entries others : List (Key × Value)}
    (unique : (Assoc.keys entries).Nodup) :
    identicalEntries entries others ↔ Assoc.keys entries = Assoc.keys others ∧
      ∀ key v w, Assoc.get? entries key = some v → Assoc.get? others key = some w →
        v.identical w := by
  induction entries generalizing others with
  | nil => cases others <;> simp [identicalEntries, Assoc.keys, Assoc.get?]
  | cons entry rest ih =>
    cases others with
    | nil => simp [identicalEntries, Assoc.keys]
    | cons other others =>
      obtain ⟨key, value⟩ := entry
      obtain ⟨key', found⟩ := other
      obtain ⟨new, later⟩ : key ∉ Assoc.keys rest ∧ (Assoc.keys rest).Nodup :=
        List.nodup_cons.mp unique
      rw [identicalEntries, Bool.and_eq_true, Bool.and_eq_true, beq_iff_eq, ih later]
      by_cases same : key = key'
      · subst same
        rw [Assoc.forall_get?_cons new]
        simp only [Assoc.keys, List.map_cons, List.cons.injEq, true_and]
        exact and_left_comm
      · simp [Assoc.keys, same]

theorem identical_array_iff (unique : (Assoc.keys s.entries).Nodup) :
    (array s).identical (array t) ↔ Assoc.keys s.entries = Assoc.keys t.entries ∧
      ∀ key v w, s.get? key = some v → t.get? key = some w → v.identical w := by
  obtain ⟨entries, next⟩ := s
  obtain ⟨others, next'⟩ := t
  rw [identical]
  exact identicalEntries_iff unique

theorem sameEntries_iff {entries : List (Key × Value)} :
    sameEntries entries t ↔
      ∀ entry ∈ entries, ∃ found, t.get? entry.1 = some found ∧ entry.2.same found := by
  induction entries with
  | nil => simp [sameEntries]
  | cons entry rest ih =>
    rw [sameEntries, Bool.and_eq_true, ih, List.forall_mem_cons]
    cases t.get? entry.1 <;> simp

theorem same_array_iff :
    (array s).same (array t) ↔ s.size = t.size ∧
      ∀ entry ∈ s.entries, ∃ found, t.get? entry.1 = some found ∧ entry.2.same found := by
  obtain ⟨entries, next⟩ := s
  rw [same, Bool.and_eq_true, beq_iff_eq, sameEntries_iff]
  rfl

theorem same_array_iff_of_keys (unique : (Assoc.keys s.entries).Nodup)
    (keys : Assoc.keys s.entries = Assoc.keys t.entries) :
    (array s).same (array t) ↔
      ∀ key v w, s.get? key = some v → t.get? key = some w → v.same w := by
  have size : s.size = t.size := by
    simpa [Assoc.keys, Table.size] using congrArg List.length keys
  rw [same_array_iff]
  constructor
  · intro each key v w here there
    obtain ⟨found, there', same⟩ := each.2 (key, v) (Assoc.mem_of_get? here)
    obtain rfl : found = w := Option.some.inj (there'.symm.trans there)
    exact same
  · intro each
    refine ⟨size, fun entry inside => ?_⟩
    have here : s.get? entry.1 = some entry.2 := (Assoc.get?_eq_some_iff unique).mpr inside
    have known : entry.1 ∈ Assoc.keys t.entries := keys ▸ List.mem_map_of_mem inside
    obtain ⟨found, there⟩ : ∃ found, t.get? entry.1 = some found :=
      Option.ne_none_iff_exists'.mp fun missing => Assoc.get?_eq_none_iff.mp missing known
    exact ⟨found, there, each entry.1 entry.2 found here there⟩

theorem sameLayout_array_iff :
    (array s).SameLayout (array t) ↔ Assoc.keys s.entries = Assoc.keys t.entries ∧
      ∀ key v w, s.get? key = some v → t.get? key = some w → v.SameLayout w := by
  constructor
  · intro layout
    cases layout with
    | plain plain => simp [table?] at plain
    | arrays keys each => exact ⟨keys, each⟩
  · intro each
    exact .arrays each.1 each.2

theorem identical_eq_same_of_plain (plain : a.table? = none ∨ b.table? = none) :
    a.identical b = a.same b := by
  cases a with
  | array s =>
    cases b with
    | array t => simp [table?] at plain
    | _ => simp [identical, same]
  | _ => cases b <;> simp [identical, same]

/-- Identical is the same in the same layout. -/
theorem identical_iff (keyed : a.Keyed) : a.identical b ↔ a.same b ∧ a.SameLayout b := by
  induction keyed generalizing b with
  | scalar plain =>
    rw [identical_eq_same_of_plain (.inl plain)]
    exact (and_iff_left (.plain (.inl plain))).symm
  | @array s unique each ih =>
    cases b with
    | array t =>
      -- the induction hypothesis is about the entries on the left, found here by their keys
      have inner : ∀ key v w, s.get? key = some v → t.get? key = some w →
          (v.identical w ↔ v.same w ∧ v.SameLayout w) :=
        fun key v w here _ => ih (key, v) (Assoc.mem_of_get? here)
      rw [identical_array_iff unique, sameLayout_array_iff]
      constructor
      · rintro ⟨keys, identical⟩
        have both : ∀ key v w, s.get? key = some v → t.get? key = some w →
            v.same w ∧ v.SameLayout w := fun key v w here there =>
          (inner key v w here there).mp (identical key v w here there)
        have same : (array s).same (array t) := (same_array_iff_of_keys unique keys).mpr
          fun key v w here there => (both key v w here there).1
        exact ⟨same, keys, fun key v w here there => (both key v w here there).2⟩
      · rintro ⟨same, keys, layout⟩
        refine ⟨keys, ?_⟩
        intro key v w here there
        have same := (same_array_iff_of_keys unique keys).mp same key v w here there
        exact (inner key v w here there).mpr ⟨same, layout key v w here there⟩
    | _ =>
      rw [identical_eq_same_of_plain (.inr rfl)]
      exact (and_iff_left (.plain (.inr rfl))).symm

end Value

theorem Bytes.order_self (s : Bytes) : order s s = .eq := by
  have swap := order_swap s s
  cases found : order s s with
  | eq => rfl
  | _ => simp [found] at swap

namespace Value

variable {a b : Value} {s t : Table Value}

theorem equal_str_self (text : Bytes) : (str text).equal (str text) := by
  rw [equal, order?_of_plain (.inl rfl), beq_iff_eq, orderScalars?]
  -- the number that the string spells, if any, is not NaN
  cases read : (str text).wholeNumber? with
  | none => exact congrArg some (Bytes.order_self text)
  | some n => exact order?_wholeNumber_self read

theorem equal_of_same_of_plain (plain : a.table? = none) (same : a.same b) : a.equal b := by
  cases a with
  | null =>
    cases b with
    | null => rfl
    | _ => simp [Value.same] at same
  | bool p =>
    cases b with
    | bool q =>
      obtain rfl : p = q := by simpa [Value.same] using same
      simp [equal, order?, orderScalars?, orderTruth, truth]
    | _ => simp [Value.same] at same
  | int i =>
    cases b with
    | int j =>
      obtain rfl : i = j := by simpa [Value.same] using same
      simp [equal, order?, orderScalars?]
    | _ => simp [Value.same] at same
  | float x =>
    cases b with
    | float y => simpa [Value.same, equal, order?, orderScalars?, Binary64.same] using same
    | _ => simp [Value.same] at same
  | str text =>
    cases b with
    | str other =>
      obtain rfl : text = other := by simpa [Value.same] using same
      exact equal_str_self text
    | _ => simp [Value.same] at same
  | array t => cases plain

theorem equal_of_same (keyed : a.Keyed) (same : a.same b) : a.equal b := by
  induction keyed generalizing b with
  | scalar plain => exact equal_of_same_of_plain plain same
  | @array s unique each ih =>
    cases b with
    | array t =>
      obtain ⟨size, inside⟩ := same_array_iff.mp same
      refine equal_array_iff.mpr ⟨size, fun entry member => ?_⟩
      obtain ⟨found, there, same⟩ := inside entry member
      exact Table.matched_iff.mpr ⟨found, there, beq_iff_eq.mp (ih entry member same)⟩
    | _ => simp [Value.same] at same

/-- Each equality is finer than the next, and the layout is all that the first one adds. -/
theorem equalities_nested (keyed : a.Keyed) :
    (a.identical b = true ↔ a.same b = true ∧ a.SameLayout b) ∧
      (a.same b = true → a.equal b = true) :=
  ⟨identical_iff keyed, equal_of_same keyed⟩

theorem inner_reordered_nested :
    let inner : Value := .array ⟨[(.int 0, .str [48]), (.int 1, .null)], 2⟩
    let moved : Value := .array ⟨[(.int 1, .null), (.int 0, .str [48])], 2⟩
    let a : Value := .array ⟨[(.str [120], inner), (.int 7, .bool true)], 8⟩
    let b : Value := .array ⟨[(.str [120], moved), (.int 7, .bool true)], 8⟩
    a.Keyed ∧ a.same b = true ∧ ¬a.SameLayout b ∧ a.identical b = false ∧ a.equal b = true ∧
      a.identical a = true ∧ a.SameLayout a := by
  intro inner moved a b
  have keyed : a.Keyed := .array (by decide) (List.forall_mem_cons.mpr
    ⟨.flat (by decide) (by decide), List.forall_mem_singleton.mpr (.scalar rfl)⟩)
  have same : a.same b = true := by cbv
  have apart : a.identical b = false := by cbv
  have itself : a.identical a = true := by cbv
  refine ⟨keyed, same, ?_, apart, (equalities_nested keyed).2 same, itself, ?_⟩
  · intro layout
    rw [(equalities_nested keyed).1.mpr ⟨same, layout⟩] at apart
    cases apart
  · exact ((equalities_nested keyed).1.mp itself).2

end Value

end ConstExpr
