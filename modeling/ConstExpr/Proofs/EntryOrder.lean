import ConstExpr.Data.Assoc
import Mathlib.Data.List.Induction
import Mathlib.Tactic.Common

/-!
The order of entries in ordered maps. Pairs put in one after the other leave each key where it first
came in, with its last value. The union of two maps is the first one followed by what the second one
has under other keys.
-/

namespace ConstExpr

namespace Assoc

variable {κ α : Type} [DecidableEq κ]

section Put

theorem putAll_concat (m : Assoc κ α) (pairs : List (κ × α)) (key : κ) (a : α) :
    putAll m (pairs ++ [(key, a)]) = put (putAll m pairs) key a := by
  simp [putAll]

theorem keys_ofPairs (pairs : List (κ × α)) :
    keys (ofPairs pairs) = (pairs.map Prod.fst).eraseDups := by
  induction pairs using List.reverseRecOn with
  | nil => rfl
  | append_singleton pairs entry ih =>
    rw [ofPairs, putAll_concat, keys_put, ← ofPairs, ih, List.map_append, List.eraseDups_append]
    have once : ([entry].map Prod.fst).removeAll (pairs.map Prod.fst) =
        if entry.1 ∈ pairs.map Prod.fst then [] else [entry.1] := by
      by_cases known : entry.1 ∈ pairs.map Prod.fst <;> simp [List.removeAll, known]
    rw [once]
    simp only [List.mem_eraseDups]
    split
    · simp
    · simp [List.eraseDups_cons]

theorem get?_ofPairs (pairs : List (κ × α)) (key : κ) :
    get? (ofPairs pairs) key = get? pairs.reverse key := by
  induction pairs using List.reverseRecOn with
  | nil => rfl
  | append_singleton pairs entry ih =>
    rw [ofPairs, putAll_concat, List.reverse_append]
    by_cases same : key = entry.1
    · rw [same, get?_put_self]
      simp [get?]
    · rw [get?_put_of_ne _ _ same]
      simpa [get?, Ne.symm same, ofPairs] using ih

theorem put_put_self (m : Assoc κ α) (key : κ) (a b : α) :
    put (put m key a) key b = put m key b := by
  induction m with
  | nil => simp [put]
  | cons entry rest ih => by_cases same : entry.1 = key <;> simp [put, same, ih]

theorem put_put_comm {m : Assoc κ α} {key other : κ} (known : key ∈ keys m) (apart : other ≠ key)
    (a b : α) : put (put m key a) other b = put (put m other b) key a := by
  induction m with
  | nil => cases known
  | cons entry rest ih =>
    by_cases here : entry.1 = key
    · simp [put, here, Ne.symm apart]
    · have later : key ∈ keys rest := by simpa [keys, Ne.symm here] using known
      by_cases there : entry.1 = other
      · simp [put, there, apart]
      · simp [put, here, there, ih later]

end Put

section Union

/-- The union is the first map followed by the entries of the second under other keys. -/
theorem union_eq_append (m : Assoc κ α) {other : Assoc κ α} (unique : (keys other).Nodup) :
    union m other = m ++ other.filter fun entry => entry.1 ∉ keys m := by
  induction other generalizing m with
  | nil => simp [union]
  | cons entry rest ih =>
    obtain ⟨new, later⟩ : entry.1 ∉ keys rest ∧ (keys rest).Nodup := by simpa [keys] using unique
    have step : union m (entry :: rest) = union (putNew m entry.1 entry.2) rest := rfl
    rw [step, ih _ later]
    -- the first entry is dropped or comes next, and no later one has its key
    by_cases known : entry.1 ∈ keys m
    · have kept : putNew m entry.1 entry.2 = m := by
        refine if_pos (Option.isSome_iff_ne_none.mpr fun none => ?_)
        exact get?_eq_none_iff.mp none known
      simp [kept, known]
    · have added : putNew m entry.1 entry.2 = m ++ [entry] := by
        refine if_neg fun some => ?_
        rw [has, get?_eq_none_iff.mpr known] at some
        cases some
      have same : (rest.filter fun e => e.1 ∉ keys (m ++ [entry])) =
          rest.filter fun e => e.1 ∉ keys m := by
        apply List.filter_congr
        intro e member
        have apart : e.1 ≠ entry.1 := fun same => new (same ▸ List.mem_map_of_mem member)
        have grown : keys (m ++ [entry]) = keys m ++ [entry.1] := List.map_append
        simp [grown, apart]
      rw [added, same]
      simp [known]

variable {a b c : Assoc κ α}

theorem get?_union (unique : (keys b).Nodup) (key : κ) :
    get? (union a b) key = (get? a key).or (get? b key) := by
  rw [union_eq_append a unique, get?_append, get?_filter b (fun k => k ∉ keys a)]
  cases found : get? a key with
  | some v => rfl
  | none => simp [get?_eq_none_iff.mp found]

theorem keys_union (unique : (keys b).Nodup) :
    keys (union a b) = keys a ++ (keys b).filter (· ∉ keys a) := by
  rw [union_eq_append a unique]
  simp only [keys, List.map_append, List.filter_map]
  rfl

theorem nodup_keys_union (unique : (keys a).Nodup) (unique' : (keys b).Nodup) :
    (keys (union a b)).Nodup := by
  rw [keys_union unique']
  refine List.nodup_append.mpr ⟨unique, unique'.filter _, ?_⟩
  intro key first other second same
  have new : other ∉ keys a := by simpa using (List.mem_filter.mp second).2
  exact new (same ▸ first)

theorem union_assoc (unique : (keys b).Nodup) (unique' : (keys c).Nodup) :
    union (union a b) c = union a (union b c) := by
  -- what `c` adds to both is what it adds to `b` and `a` does not have
  have rest : (c.filter fun e => e.1 ∉ keys (union a b)) =
      (c.filter fun e => e.1 ∉ keys b).filter fun e => e.1 ∉ keys a := by
    rw [List.filter_filter]
    apply List.filter_congr
    intro e _
    by_cases inA : e.1 ∈ keys a <;> by_cases inB : e.1 ∈ keys b <;>
      simp [keys_union unique, inA, inB]
  rw [union_eq_append _ unique', rest, union_eq_append a (nodup_keys_union unique unique'),
    union_eq_append a unique, union_eq_append b unique', List.filter_append, List.append_assoc]

theorem union_self (unique : (keys a).Nodup) : union a a = a := by
  rw [union_eq_append a unique, List.filter_eq_nil_iff.mpr, List.append_nil]
  intro entry member
  have known : entry.1 ∈ keys a := List.mem_map_of_mem member
  simpa using known

theorem nil_union (unique : (keys a).Nodup) : union [] a = a := by
  rw [union_eq_append [] unique]
  simp [keys]

end Union

end Assoc

end ConstExpr
