/-!
Ordered maps as lists of pairs: an entry keeps the place where its key first came in, whatever is
stored there later.
-/

namespace ConstExpr

/-- A map whose entries stand in the order their keys came in. -/
abbrev Assoc (κ α : Type) := List (κ × α)

namespace Assoc

variable {κ α : Type} [DecidableEq κ]

def get? (m : Assoc κ α) (key : κ) : Option α :=
  match m with
  | [] => none
  | (k, a) :: rest => if k = key then some a else get? rest key

def has (m : Assoc κ α) (key : κ) : Bool := (get? m key).isSome

/-- Replaces the value of the key in place, or adds an entry at the end. -/
def put (m : Assoc κ α) (key : κ) (a : α) : Assoc κ α :=
  match m with
  | [] => [(key, a)]
  | (k, b) :: rest => if k = key then (k, a) :: rest else (k, b) :: put rest key a

def exchange (m : Assoc κ α) (key : κ) (a : α) : Option α × Assoc κ α :=
  match m with
  | [] => (none, [(key, a)])
  | (k, b) :: rest =>
    if k = key then (some b, (k, a) :: rest)
    else
      let (old, later) := exchange rest key a
      (old, (k, b) :: later)

def putNew (m : Assoc κ α) (key : κ) (a : α) : Assoc κ α :=
  if has m key then m else m ++ [(key, a)]

def putAll (m : Assoc κ α) (pairs : List (κ × α)) : Assoc κ α :=
  pairs.foldl (fun m (k, a) => put m k a) m

def ofPairs (pairs : List (κ × α)) : Assoc κ α := putAll [] pairs

/-- The first map followed by what the second one has under other keys. -/
def union (m other : Assoc κ α) : Assoc κ α :=
  other.foldl (fun m (k, a) => putNew m k a) m

def keys (m : Assoc κ α) : List κ := m.map Prod.fst

theorem get?_put_self (m : Assoc κ α) (key : κ) (a : α) : get? (put m key a) key = some a := by
  induction m with
  | nil => simp [put, get?]
  | cons entry rest ih => by_cases same : entry.1 = key <;> simp [put, get?, same, ih]

theorem get?_put_of_ne (m : Assoc κ α) {key other : κ} (a : α) (apart : other ≠ key) :
    get? (put m key a) other = get? m other := by
  induction m with
  | nil => simp [put, get?, apart.symm]
  | cons entry rest ih =>
    by_cases same : entry.1 = key
    · simp [put, get?, same, apart.symm]
    · simp [put, get?, same, ih]

theorem mem_of_get? {m : Assoc κ α} {key : κ} {a : α} (found : get? m key = some a) :
    (key, a) ∈ m := by
  induction m with
  | nil => simp [get?] at found
  | cons entry rest ih =>
    by_cases same : entry.1 = key
    · obtain rfl : entry.2 = a := by simpa [get?, same] using found
      simp [← same]
    · exact List.mem_cons_of_mem _ (ih (by simpa [get?, same] using found))

theorem get?_eq_none_iff {m : Assoc κ α} {key : κ} : get? m key = none ↔ key ∉ keys m := by
  induction m with
  | nil => simp [get?, keys]
  | cons entry rest ih =>
    by_cases same : entry.1 = key
    · simp [get?, keys, same]
    · simpa [get?, keys, same, Ne.symm same] using ih

theorem get?_filter (m : Assoc κ α) (p : κ → Bool) (key : κ) :
    get? (m.filter fun entry => p entry.1) key = if p key then get? m key else none := by
  induction m with
  | nil => simp [get?]
  | cons entry rest ih =>
    by_cases same : entry.1 = key
    · cases stays : p key <;> simp [get?, same, stays, ih]
    · cases stays : p entry.1 <;> simp [get?, same, stays, ih]

theorem mem_put {m : Assoc κ α} {key : κ} {a : α} {entry : κ × α} (held : entry ∈ put m key a) :
    entry ∈ m ∨ entry = (key, a) := by
  induction m with
  | nil => exact .inr (by simpa [put] using held)
  | cons first rest ih =>
    by_cases same : first.1 = key
    · rcases List.mem_cons.mp (by simpa [put, same] using held) with new | old
      · exact .inr new
      · exact .inl (List.mem_cons_of_mem _ old)
    · rcases List.mem_cons.mp (by simpa [put, same] using held) with old | later
      · exact .inl (old ▸ List.mem_cons_self)
      · exact (ih later).imp_left (List.mem_cons_of_mem _)

theorem mem_putAll {pairs : List (κ × α)} {m : Assoc κ α} {entry : κ × α}
    (held : entry ∈ putAll m pairs) : entry ∈ m ∨ entry ∈ pairs := by
  induction pairs generalizing m with
  | nil => exact .inl held
  | cons first rest ih =>
    have step : entry ∈ put m first.1 first.2 ∨ entry ∈ rest := ih held
    rcases step with early | late
    · rcases mem_put early with old | new
      · exact .inl old
      · exact .inr (new ▸ List.mem_cons_self)
    · exact .inr (List.mem_cons_of_mem _ late)

theorem put_of_not_mem {m : Assoc κ α} {key : κ} (a : α) (new : key ∉ keys m) :
    put m key a = m ++ [(key, a)] := by
  induction m with
  | nil => rfl
  | cons entry rest ih =>
    obtain ⟨apart, later⟩ : key ≠ entry.1 ∧ key ∉ keys rest := by simpa [keys] using new
    simp [put, Ne.symm apart, ih later]

theorem keys_put (m : Assoc κ α) (key : κ) (a : α) :
    keys (put m key a) = if key ∈ keys m then keys m else keys m ++ [key] := by
  induction m with
  | nil => simp [put, keys]
  | cons entry rest ih =>
    simp only [keys] at ih
    by_cases same : entry.1 = key
    · simp [put, keys, same]
    · by_cases known : key ∈ rest.map Prod.fst
      · simp [put, keys, same, ih, known]
      · simp [put, keys, same, Ne.symm same, ih, known]

theorem mem_keys_put {m : Assoc κ α} {key other : κ} {a : α} :
    other ∈ keys (put m key a) ↔ other ∈ keys m ∨ other = key := by
  rw [keys_put]
  split
  next known => exact ⟨.inl, fun either => either.elim id fun same => same ▸ known⟩
  next => simp

theorem nodup_keys_put {m : Assoc κ α} (unique : (keys m).Nodup) (key : κ) (a : α) :
    (keys (put m key a)).Nodup := by
  rw [keys_put]
  split
  next => exact unique
  next new =>
    refine List.nodup_append.mpr ⟨unique, by simp, ?_⟩
    intro k old other last same
    exact new (List.mem_singleton.mp last ▸ same ▸ old)

theorem get?_eq_some_iff {m : Assoc κ α} (unique : (keys m).Nodup) {key : κ} {a : α} :
    get? m key = some a ↔ (key, a) ∈ m := by
  refine ⟨mem_of_get?, fun member => ?_⟩
  induction m with
  | nil => cases member
  | cons entry rest ih =>
    obtain ⟨new, later⟩ : entry.1 ∉ keys rest ∧ (keys rest).Nodup := by simpa [keys] using unique
    rcases List.mem_cons.mp member with rfl | inside
    · simp [get?]
    · have apart : entry.1 ≠ key := fun same => new (same ▸ List.mem_map_of_mem inside)
      simpa [get?, apart] using ih later inside

theorem get?_perm {m other : Assoc κ α} (moved : m.Perm other) (unique : (keys m).Nodup)
    (key : κ) : get? m key = get? other key := by
  have unique' : (keys other).Nodup := (moved.map Prod.fst).nodup_iff.mp unique
  apply Option.ext
  intro a
  rw [get?_eq_some_iff unique, get?_eq_some_iff unique', moved.mem_iff]

theorem get?_append (m other : Assoc κ α) (key : κ) :
    get? (m ++ other) key = (get? m key).or (get? other key) := by
  induction m with
  | nil => rfl
  | cons entry rest ih =>
    by_cases same : entry.1 = key
    · simp [get?, same]
    · simp [get?, same, ih]

theorem put_append_of_not_mem {m : Assoc κ α} {key : κ} (new : key ∉ keys m)
    (other : Assoc κ α) (a : α) : put (m ++ other) key a = m ++ put other key a := by
  induction m with
  | nil => rfl
  | cons entry rest ih =>
    obtain ⟨apart, later⟩ : key ≠ entry.1 ∧ key ∉ keys rest := by simpa [keys] using new
    simpa [put, Ne.symm apart] using ih later

end Assoc

end ConstExpr
