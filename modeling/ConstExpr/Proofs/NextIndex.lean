import ConstExpr.Proofs.ArrayShape
import Mathlib.Data.List.Induction

/-!
The next free index of an array. Insertions and pushes keep it up to date one by one, and yet it is
always the one that the entries alone would give. Nothing can be pushed once the largest word is a
key; until then a pushed value comes last, under an index above all others.
-/

namespace ConstExpr

namespace Assoc

variable {κ α : Type} [DecidableEq κ] {m : Assoc κ α} {key : κ} {old : α}

theorem exchange_eq (m : Assoc κ α) (key : κ) (a : α) :
    exchange m key a = (get? m key, put m key a) := by
  induction m with
  | nil => rfl
  | cons entry rest ih =>
    by_cases same : entry.1 = key
    · simp [exchange, get?, put, same]
    · simp [exchange, get?, put, same, ih]

theorem exists_put_eq (found : get? m key = some old) (a : α) :
    ∃ before after, m = before ++ (key, old) :: after ∧
      put m key a = before ++ (key, a) :: after := by
  induction m with
  | nil => cases found
  | cons entry rest ih =>
    by_cases same : entry.1 = key
    · obtain rfl : entry.2 = old := by simpa [get?, same] using found
      exact ⟨[], rest, by simp [← same], by simp [put, same]⟩
    · obtain ⟨before, after, split, changed⟩ := ih (by simpa [get?, same] using found)
      exact ⟨entry :: before, after, by simp [← split], by simp [put, same, changed]⟩

end Assoc

namespace Table

variable {α : Type} {t longer : Table α} {key : Key} {a : α}

theorem exchange_eq (t : Table α) (key : Key) (a : α) :
    t.exchange key a = (t.get? key, t.insert key a) := by
  rw [exchange, Assoc.exchange_eq]
  rfl

/-- The arrays that come about from an empty one, from a map or from a list of values, by storing
and pushing. -/
inductive Built : Table α → Prop
  | empty : Built empty
  | ofEntries {entries : Assoc Key α} (unique : (Assoc.keys entries).Nodup) :
      Built (ofEntries entries)
  | ofList (values : List α) : Built (ofList values)
  | insert {t : Table α} (built : Built t) (key : Key) (a : α) : Built (t.insert key a)
  | push {t : Table α} (built : Built t) (a : α) : Built (t.push a)

theorem push?_eq_none : t.push? a = none ↔ .int t.nextFree ∈ Assoc.keys t.entries := by
  simp [push?, Assoc.has, Option.isSome_iff_ne_none, Assoc.get?_eq_none_iff]

/-- Keys occur once, and the next free index is that of the keys. -/
structure Tracked (t : Table α) : Prop where
  unique : (Assoc.keys t.entries).Nodup
  next : t.nextFree.toInt = freeIndex t.entries

namespace Tracked

theorem empty : (empty : Table α).Tracked := ⟨List.nodup_nil, rfl⟩

theorem insert (tracked : t.Tracked) (key : Key) (a : α) : (t.insert key a).Tracked :=
  ⟨Assoc.nodup_keys_put tracked.unique key a, freeIndex_insert tracked.next key a⟩

theorem push (tracked : t.Tracked) (a : α) : (t.push a).Tracked := by
  unfold Table.push
  cases pushed : t.push? a with
  | none => exact tracked
  | some longer =>
    rw [Option.getD_some, push?_eq_insert pushed]
    exact tracked.insert _ a

theorem pushAll (tracked : t.Tracked) (values : List α) : (values.foldl Table.push t).Tracked :=
  List.foldlRecOn values Table.push tracked fun _ tracked a _ => tracked.push a

theorem ofEntries {entries : Assoc Key α} (unique : (Assoc.keys entries).Nodup) :
    (ofEntries entries).Tracked := by
  induction entries using List.reverseRecOn with
  | nil => exact .empty
  | append_singleton front entry ih =>
    obtain ⟨key, a⟩ := entry
    obtain ⟨earlier, -, apart⟩ : (Assoc.keys front).Nodup ∧ [key].Nodup ∧
        ∀ k ∈ Assoc.keys front, ∀ other ∈ [key], k ≠ other := by
      simpa [Assoc.keys, List.nodup_append] using unique
    have new : key ∉ Assoc.keys front := fun known => apart key known key (by simp) rfl
    -- the last key is new, so storing it appends
    have stored : Table.ofEntries (front ++ [(key, a)]) = (Table.ofEntries front).insert key a := by
      simp [Table.ofEntries, Table.insert, Assoc.put_of_not_mem a new, Assoc.keys]
    rw [stored]
    exact (ih earlier).insert key a

theorem nextFree_eq (tracked : t.Tracked) : t.nextFree = (Table.ofEntries t.entries).nextFree :=
  Int64.toInt_inj.mp (tracked.next.trans (ofEntries tracked.unique).next.symm)

theorem bounds (tracked : t.Tracked) : 0 ≤ t.nextFree.toInt ∧
    ∀ i, .int i ∈ Assoc.keys t.entries →
      i < t.nextFree ∨ i = Int64.maxValue ∧ t.nextFree = Int64.maxValue := by
  obtain ⟨positive, above, -⟩ := freeIndex_eq_iff.mp tracked.next.symm
  refine ⟨positive, fun i known => ?_⟩
  have reach := above i.toInt (mem_indices.mpr ⟨i, known, rfl⟩)
  have top := Int64.toInt_le i
  have top' := Int64.toInt_le t.nextFree
  rw [Int64.lt_iff_toInt_lt, ← Int64.toInt_inj, ← Int64.toInt_inj]
  omega

theorem push?_eq_none_iff (tracked : t.Tracked) :
    t.push? a = none ↔ .int Int64.maxValue ∈ Assoc.keys t.entries := by
  rw [push?_eq_none]
  obtain ⟨-, below⟩ := tracked.bounds
  constructor
  · intro known
    rcases below _ known with less | ⟨last, -⟩
    · exact absurd less (Int64.lt_irrefl)
    · rwa [last] at known
  · intro known
    rcases below _ known with less | ⟨-, last⟩
    · exact absurd (Int64.lt_iff_toInt_lt.mp less) (not_lt.mpr (Int64.toInt_le _))
    · rwa [last]

theorem of_push? (tracked : t.Tracked) (pushed : t.push? a = some longer) :
    ∃ i : Int64, longer.entries = t.entries ++ [(.int i, a)] ∧ 0 ≤ i ∧
      .int i ∉ Assoc.keys t.entries ∧ ∀ j, .int j ∈ Assoc.keys t.entries → j < i := by
  have new : Key.int t.nextFree ∉ Assoc.keys t.entries := by
    intro known
    rw [push?_eq_none.mpr known] at pushed
    cases pushed
  obtain ⟨positive, below⟩ := tracked.bounds
  refine ⟨t.nextFree, ?_, Int64.le_iff_toInt_le.mpr positive, new, fun j known => ?_⟩
  · rw [push?_eq_insert pushed, Table.insert, Assoc.put_of_not_mem a new]
  · rcases below j known with less | ⟨last, last'⟩
    · exact less
    · exact absurd (last.trans last'.symm ▸ known) new

end Tracked

theorem Built.tracked (built : t.Built) : t.Tracked := by
  induction built with
  | empty => exact .empty
  | ofEntries unique => exact .ofEntries unique
  | ofList values => exact Tracked.empty.pushAll values
  | insert _ key a ih => exact ih.insert key a
  | push _ a ih => exact ih.push a

end Table

section Arrays

variable {α : Type}

/-- However an array came about, its next free index is the one its entries give. A push is refused
exactly if the largest word is a key, and then changes nothing; otherwise the value comes last,
under an index that was not there, is not negative and exceeds every other. Storing under a known
key returns the old value and keeps its place. -/
theorem next_index_exact {t : Table α} (built : t.Built) :
    (t.nextFree = (Table.ofEntries t.entries).nextFree ∧
        t.nextFree.toInt = Table.freeIndex t.entries) ∧
      (∀ a, t.push? a = none ↔ .int Int64.maxValue ∈ Assoc.keys t.entries) ∧
      (∀ a, t.push? a = none → t.push a = t) ∧
      (∀ a longer, t.push? a = some longer → t.push a = longer ∧
        ∃ i : Int64, longer.entries = t.entries ++ [(.int i, a)] ∧ 0 ≤ i ∧
          .int i ∉ Assoc.keys t.entries ∧ ∀ j, .int j ∈ Assoc.keys t.entries → j < i) ∧
      ∀ key old a, t.get? key = some old → t.exchange key a = (some old, t.insert key a) ∧
        ∃ before after, t.entries = before ++ (key, old) :: after ∧
          (t.insert key a).entries = before ++ (key, a) :: after := by
  have tracked := built.tracked
  refine ⟨⟨tracked.nextFree_eq, tracked.next⟩, fun a => tracked.push?_eq_none_iff, ?_, ?_, ?_⟩
  · intro a refused
    rw [Table.push, refused, Option.getD_none]
  · intro a longer pushed
    exact ⟨by rw [Table.push, pushed, Option.getD_some], tracked.of_push? pushed⟩
  · intro key old a found
    exact ⟨by rw [Table.exchange_eq, found], Assoc.exists_put_eq found a⟩

theorem last_index_pushed :
    let map : Table Nat := .ofEntries [(.int (-5), 1), (.str [107], 2)]
    let spare := (map.push 3).insert (.int (Int64.maxValue - 1)) 4
    let full := spare.push 5
    (spare.Built ∧ full.Built) ∧
      (Assoc.keys full.entries = [.int (-5), .str [107], .int 0, .int (Int64.maxValue - 1),
        .int Int64.maxValue]) ∧
      spare.push? 5 ≠ none ∧ full.push? 6 = none ∧ full.push 6 = full ∧
      full.exchange (.int 0) 7 = (some 3, full.insert (.int 0) 7) := by
  intro map spare full
  have built : spare.Built := (Table.Built.push (.ofEntries (by decide)) 3).insert _ 4
  have built' : full.Built := built.push 5
  obtain ⟨-, room, -⟩ := next_index_exact built
  obtain ⟨-, room', refused, -, stored⟩ := next_index_exact built'
  have none : full.push? 6 = none := (room' 6).mpr (by decide)
  refine ⟨⟨built, built'⟩, by decide, ?_, none, refused 6 none, (stored _ 3 7 (by decide)).1⟩
  rw [ne_eq, room]
  decide

end Arrays

end ConstExpr
