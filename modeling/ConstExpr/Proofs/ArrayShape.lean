import ConstExpr.Operator.Apply
import ConstExpr.Evaluation.Array
import ConstExpr.Proofs.DecimalText

/-!
The shape of arrays: each key occurs once, no string key is the text of a word, and the next free
index follows from the integer keys. Every operation builds its arrays by insertions under keys that
values stand for, and one insertion keeps the shape.
-/

namespace ConstExpr

theorem Word.toInt_next (i : Int64) :
    (Word.next i).toInt = min (i.toInt + 1) Int64.maxValue.toInt := by
  have greatest := Int64.toInt_le i
  have least := Int64.minValue_le_toInt i
  have top : Int64.maxValue.toInt = 2 ^ 63 - 1 := by decide
  have bottom : Int64.minValue.toInt = -2 ^ 63 := by decide
  unfold Word.next
  split
  next last => rw [last]; omega
  next inner =>
    have below : i.toInt ≠ Int64.maxValue.toInt := fun same => inner (Int64.toInt_inj.mp same)
    have sum : i + 1 = Int64.ofInt (i.toInt + 1) := by simp [Int64.ofInt_add]
    rw [sum, Int64.toInt_ofInt_of_le (by omega) (by omega)]
    omega

/-- A key that a value stands for: a string that is the text of a word is no such key. -/
def Key.Normal : Key → Prop
  | .int _ => True
  | .str s => ∀ i, s ≠ Word.text i

theorem Key.normal_ofValue? {v : Value} {key : Key} (found : Key.ofValue? v = some key) :
    key.Normal := by
  cases v with
  | null =>
    obtain rfl : Key.str [] = key := by simpa [Key.ofValue?] using found
    intro i empty
    have read := Word.ofText?_text i
    have unread : Word.ofText? [] = none := by decide
    rw [← empty, unread] at read
    cases read
  | bool b =>
    cases found
    trivial
  | int i =>
    cases found
    trivial
  | float x =>
    cases found
    trivial
  | str s =>
    simp only [Key.ofValue?] at found
    split at found
    next =>
      cases found
      trivial
    next unread =>
      cases found
      rintro i rfl
      rw [Word.ofText?_text] at unread
      cases unread
  | array t => simp [Key.ofValue?] at found

namespace Table

variable {α : Type}

def indices (entries : List (Key × α)) : List Int :=
  entries.filterMap fun
    | (.int i, _) => some i.toInt
    | (.str _, _) => none

/-- One more than the largest integer key where that is a word, and at least zero. -/
def freeIndex (entries : List (Key × α)) : Int :=
  match (indices entries).max? with
  | some largest => max 0 (min (largest + 1) Int64.maxValue.toInt)
  | none => 0

theorem mem_indices {entries : List (Key × α)} {n : Int} :
    n ∈ indices entries ↔ ∃ i : Int64, .int i ∈ Assoc.keys entries ∧ i.toInt = n := by
  constructor
  · intro member
    obtain ⟨⟨key, a⟩, inside, value⟩ := List.mem_filterMap.mp member
    cases key with
    | int i => exact ⟨i, List.mem_map.mpr ⟨_, inside, rfl⟩, Option.some.inj value⟩
    | str s => cases value
  · rintro ⟨i, member, rfl⟩
    obtain ⟨⟨key, a⟩, inside, rfl⟩ := List.mem_map.mp member
    exact List.mem_filterMap.mpr ⟨_, inside, rfl⟩

theorem freeIndex_eq_iff {entries : List (Key × α)} {n : Int} :
    freeIndex entries = n ↔ 0 ≤ n ∧
      (∀ i ∈ indices entries, min (i + 1) Int64.maxValue.toInt ≤ n) ∧
      (n = 0 ∨ ∃ i ∈ indices entries, min (i + 1) Int64.maxValue.toInt = n) := by
  unfold freeIndex
  cases largest : (indices entries).max? with
  | none =>
    have none : indices entries = [] := List.max?_eq_none_iff.mp largest
    simp only [none, List.not_mem_nil, false_and, exists_false, or_false, IsEmpty.forall_iff,
      implies_true, true_and]
    omega
  | some top =>
    obtain ⟨member, bound⟩ := List.max?_eq_some_iff.mp largest
    dsimp only
    constructor
    · rintro rfl
      refine ⟨le_max_left _ _, fun i inside => ?_, ?_⟩
      · have := bound i inside
        omega
      · by_cases low : min (top + 1) Int64.maxValue.toInt ≤ 0
        · exact .inl (by omega)
        · exact .inr ⟨top, member, by omega⟩
    · rintro ⟨positive, above, zero | ⟨i, inside, same⟩⟩
      · have := above top member
        omega
      · have := above top member
        have := bound i inside
        omega

structure Orderly (t : Table α) : Prop where
  unique : (Assoc.keys t.entries).Nodup
  normal : ∀ key ∈ Assoc.keys t.entries, key.Normal
  next : t.nextFree.toInt = freeIndex t.entries

theorem Orderly.empty : (empty : Table α).Orderly where
  unique := List.nodup_nil
  normal := by simp [Table.empty, Assoc.keys]
  next := rfl

theorem freeIndex_insert {t : Table α} (next : t.nextFree.toInt = freeIndex t.entries) (key : Key)
    (a : α) : (t.insert key a).nextFree.toInt = freeIndex (t.insert key a).entries := by
  obtain ⟨positive, above, reached⟩ := freeIndex_eq_iff.mp next.symm
  symm
  rw [freeIndex_eq_iff]
  simp only [Table.insert, mem_indices, Assoc.mem_keys_put] at above reached ⊢
  cases key with
  | str s => simpa only [freeAfter, reduceCtorEq, or_false] using ⟨positive, above, reached⟩
  | int i =>
    have step := Word.toInt_next i
    have order : t.nextFree ≤ i ↔ t.nextFree.toInt ≤ i.toInt := Int64.le_iff_toInt_le
    have top := Int64.toInt_le i
    unfold freeAfter
    -- a new index either moves the next free one or is below it already
    by_cases more : t.nextFree ≤ i
    · simp only [if_pos more]
      rw [order] at more
      refine ⟨by omega, ?_, .inr ⟨i.toInt, ⟨i, .inr rfl, rfl⟩, step.symm⟩⟩
      rintro _ ⟨j, old | new, rfl⟩
      · have := above j.toInt ⟨j, old, rfl⟩
        omega
      · cases new
        omega
    · simp only [if_neg more]
      rw [order] at more
      refine ⟨positive, ?_, reached.imp_right fun ⟨n, ⟨j, old, value⟩, same⟩ =>
        ⟨n, ⟨j, .inl old, value⟩, same⟩⟩
      rintro _ ⟨j, old | new, rfl⟩
      · exact above j.toInt ⟨j, old, rfl⟩
      · cases new
        omega

theorem Orderly.insert {t : Table α} (orderly : t.Orderly) {key : Key} (normal : key.Normal)
    (a : α) : (t.insert key a).Orderly where
  unique := Assoc.nodup_keys_put orderly.unique key a
  normal := by
    intro k member
    rcases Assoc.mem_keys_put.mp member with old | rfl
    · exact orderly.normal k old
    · exact normal
  next := freeIndex_insert orderly.next key a

theorem push?_eq_insert {t longer : Table α} {a : α} (pushed : t.push? a = some longer) :
    longer = t.insert (.int t.nextFree) a := by
  unfold push? at pushed
  split at pushed
  next => cases pushed
  next free =>
    cases pushed
    have new : Key.int t.nextFree ∉ Assoc.keys t.entries := by
      simpa [Assoc.has, ← Assoc.get?_eq_none_iff] using free
    simp [Table.insert, freeAfter, Assoc.put_of_not_mem a new]

end Table

/-- A value all of whose arrays, at every depth, are in order. -/
inductive Value.WellFormed : Value → Prop
  | scalar {v : Value} (plain : v.table? = none) : WellFormed v
  | array {t : Table Value} (orderly : t.Orderly) (each : ∀ entry ∈ t.entries, WellFormed entry.2) :
      WellFormed (.array t)

namespace Value

theorem wellFormed_array {t : Table Value} :
    (array t).WellFormed ↔ t.Orderly ∧ ∀ entry ∈ t.entries, entry.2.WellFormed := by
  constructor
  · intro formed
    cases formed with
    | scalar plain => cases plain
    | array orderly each => exact ⟨orderly, each⟩
  · exact fun ⟨orderly, each⟩ => .array orderly each

end Value

section Building

variable {t : Table Value} {v w : Value}

theorem Value.WellFormed.insert (formed : (Value.array t).WellFormed) {key : Key}
    (normal : key.Normal) (inner : v.WellFormed) : (Value.array (t.insert key v)).WellFormed := by
  obtain ⟨orderly, each⟩ := Value.wellFormed_array.mp formed
  refine .array (orderly.insert normal v) fun entry member => ?_
  rcases Assoc.mem_put member with old | rfl
  · exact each entry old
  · exact inner

theorem Value.WellFormed.append (formed : (Value.array t).WellFormed) (inner : v.WellFormed) :
    (Value.array (t.append v).value).WellFormed := by
  unfold Table.append
  split
  next longer pushed =>
    have normal : (Key.int t.nextFree).Normal := trivial
    rw [Table.push?_eq_insert pushed]
    exact formed.insert normal inner
  next => exact formed

theorem Value.WellFormed.store (formed : (Value.array t).WellFormed) (key : Value)
    (inner : v.WellFormed) : (Value.array (t.store key v).value).WellFormed := by
  unfold Table.store
  split
  next k found => exact formed.insert (Key.normal_ofValue? found) inner
  next => exact formed

theorem Value.WellFormed.spread {entries : List (Key × Value)}
    (normal : ∀ entry ∈ entries, entry.1.Normal) (each : ∀ entry ∈ entries, entry.2.WellFormed)
    (formed : (Value.array t).WellFormed) :
    (Value.array (t.spread entries).value).WellFormed := by
  induction entries generalizing t with
  | nil => exact formed
  | cons entry rest ih =>
    obtain ⟨key, v⟩ := entry
    have inner := each _ List.mem_cons_self
    have later := fun {t} => ih (t := t) (fun e member => normal e (List.mem_cons_of_mem _ member))
      fun e member => each e (List.mem_cons_of_mem _ member)
    cases key with
    | int i => exact later (formed.append inner)
    | str s => exact later (formed.insert (normal _ List.mem_cons_self) inner)

theorem Value.WellFormed.unpack (formed : (Value.array t).WellFormed) (inner : v.WellFormed) :
    (Value.array (t.unpack v).value).WellFormed := by
  unfold Table.unpack
  split
  next s =>
    obtain ⟨orderly, each⟩ := Value.wellFormed_array.mp inner
    exact formed.spread (fun entry member => orderly.normal _ (List.mem_map_of_mem member)) each
  next => exact formed

theorem Value.WellFormed.union {s : Table Value} (formed : (Value.array t).WellFormed)
    (other : (Value.array s).WellFormed) : (Value.array (t.union s)).WellFormed := by
  obtain ⟨orderly, each⟩ := Value.wellFormed_array.mp other
  have normal : ∀ entry ∈ s.entries, entry.1.Normal :=
    fun entry member => orderly.normal _ (List.mem_map_of_mem member)
  unfold Table.union
  generalize s.entries = entries at normal each
  induction entries generalizing t with
  | nil => exact formed
  | cons entry rest ih =>
    refine ih ?_ (fun e member => normal e (List.mem_cons_of_mem _ member))
      fun e member => each e (List.mem_cons_of_mem _ member)
    dsimp only
    split
    · exact formed
    · exact formed.insert (normal _ List.mem_cons_self) (each _ List.mem_cons_self)

theorem Value.WellFormed.empty : (Value.array .empty).WellFormed :=
  .array .empty (by simp [Table.empty])

theorem Value.WellFormed.element (formed : v.WellFormed) : (v.element w).value.WellFormed := by
  unfold Value.element
  split
  next t =>
    split
    next found here =>
      obtain ⟨key, -, here⟩ := Option.bind_eq_some_iff.mp here
      exact (Value.wellFormed_array.mp formed).2 _ (Assoc.mem_of_get? here)
    next => exact .scalar rfl
  next s =>
    split
    next => exact .scalar rfl
    next => exact .scalar rfl
  next => exact .scalar rfl

end Building

section Operators

theorem Value.WellFormed.reject (w : Warning) : (Logged.reject w).value.WellFormed := .scalar rfl

theorem wellFormed_onScalars (op : ArithOp) (l r : Value) :
    (op.onScalars l r).value.WellFormed := by
  unfold ArithOp.onScalars
  split
  · split
    · exact .reject _
    · unfold ArithOp.onNumbers
      split
      · split
        · exact .scalar rfl
        · exact .scalar rfl
      · exact .scalar rfl
  · exact .reject _

variable {l r v : Value}

theorem Value.WellFormed.arith (op : ArithOp) (left : l.WellFormed) (right : r.WellFormed) :
    (op.apply l r).value.WellFormed := by
  unfold ArithOp.apply
  split
  · exact left.union right
  · exact wellFormed_onScalars op l r

theorem Value.WellFormed.binary (op : BinaryOp) (left : l.WellFormed) (right : r.WellFormed) :
    (op.apply l r).value.WellFormed := by
  cases op with
  | arith op => exact left.arith op right
  | modulo =>
    show (modulo l r).value.WellFormed
    unfold modulo
    split
    · exact .reject _
    · split
      · exact .reject _
      · exact .scalar rfl
  | mask op =>
    show (op.apply l r).value.WellFormed
    unfold MaskOp.apply
    split
    · exact .scalar rfl
    · split
      · exact .reject _
      · exact .scalar rfl
  | shiftLeft => exact shifted _ _
  | shiftRight => exact shifted _ _
  | coalesce =>
    show (if l.isNull then r else l).WellFormed
    split
    · exact right
    · exact left
  | concat => exact .scalar rfl
  | relation _ => exact .scalar rfl
  | spaceship => exact .scalar rfl
  | logic _ => exact .scalar rfl
  | instanceOf => exact .scalar rfl
where
  shifted (symbol : String) (move : Int64 → Nat → Int64) :
      (shift symbol move l r).value.WellFormed := by
    unfold shift
    split
    · exact .reject _
    · split
      · exact .reject _
      · exact .scalar rfl

theorem Value.WellFormed.unary (op : UnaryOp) (formed : v.WellFormed) :
    (op.apply v).value.WellFormed := by
  have times : ∀ i, (ArithOp.mul.apply v (.int i)).value.WellFormed := fun i =>
    formed.arith .mul (.scalar rfl)
  cases op with
  | plus =>
    show (affirm v).value.WellFormed
    unfold affirm
    split
    · exact .scalar rfl
    · exact .scalar rfl
    · exact times 1
  | minus =>
    show (negate v).value.WellFormed
    unfold negate
    split
    · split
      · exact .scalar rfl
      · exact .scalar rfl
    · exact .scalar rfl
    · exact times (-1)
  | bitNot =>
    show (complement v).value.WellFormed
    unfold complement
    split
    · exact .scalar rfl
    · exact .scalar rfl
    · exact .scalar rfl
    · exact .reject _
  | silence => exact formed
  | not => exact .scalar rfl
  | increment => exact .scalar rfl
  | decrement => exact .scalar rfl

theorem Value.WellFormed.cast (kind : CastKind) (formed : v.WellFormed) :
    (kind.apply v).value.WellFormed := by
  cases kind with
  | array =>
    show (CastKind.array.apply v).value.WellFormed
    unfold CastKind.apply
    dsimp only
    split
    · exact formed
    · exact .empty
    · have one : Table.ofList [v] = Table.empty.insert (.int 0) v := rfl
      have normal : (Key.int 0).Normal := trivial
      show (Value.array (Table.ofList [v])).WellFormed
      rw [one]
      exact Value.WellFormed.empty.insert normal formed
  | string =>
    show (CastKind.string.apply v).value.WellFormed
    unfold CastKind.apply
    dsimp only
    split
    · exact .scalar rfl
    · exact .scalar rfl
  | int => exact .scalar rfl
  | bool => exact .scalar rfl
  | float => exact .scalar rfl
  | object => exact .scalar rfl
  | unset => exact .scalar rfl

end Operators

end ConstExpr
