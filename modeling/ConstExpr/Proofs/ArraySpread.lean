import ConstExpr.Proofs.Derivation
import ConstExpr.Proofs.EntryOrder
import ConstExpr.Proofs.NextIndex
import ConstExpr.Proofs.Run
import ConstExpr.Syntax.Build

/-!
Spreading arrays into a literal. Values under integers get the indices from zero on in the order in
which they come, whatever indices they had; a string keeps its first place and takes the last value.
So it does not matter whether some of the arrays are spread into a literal of their own first.
-/

namespace ConstExpr

namespace Logged

variable {α β γ : Type}

theorem bind_assoc (x : Logged α) (f : α → Logged β) (g : β → Logged γ) :
    (x >>= f) >>= g = x >>= fun a => f a >>= g := by
  simp only [bind, List.append_assoc]

theorem bind_pure (x : Logged α) : (x >>= pure) = x := by
  simp [bind, pure]

theorem bind_congr {x : Logged α} {f g : α → Logged β} (same : f x.value = g x.value) :
    x >>= f = x >>= g := by
  simp only [bind, same]

end Logged

namespace Table

variable {t : Table Value} {v w : Value} {s : Bytes}

section Steps

theorem spread_append (t : Table Value) (front back : List (Key × Value)) :
    t.spread (front ++ back) = t.spread front >>= (·.spread back) := by
  induction front generalizing t with
  | nil => rfl
  | cons entry rest ih =>
    obtain ⟨key, v⟩ := entry
    cases key with
    | int i => simp only [List.cons_append, spread, ih, Logged.bind_assoc]
    | str s => simp only [List.cons_append, spread, ih]

theorem spread_concat_int (t : Table Value) (entries : List (Key × Value)) (i : Int64) (v : Value) :
    t.spread (entries ++ [(.int i, v)]) = t.spread entries >>= (·.append v) := by
  rw [spread_append]
  exact Logged.bind_congr (Logged.bind_pure _)

theorem spread_concat_str (t : Table Value) (entries : List (Key × Value)) (s : Bytes)
    (v : Value) : t.spread (entries ++ [(.str s, v)]) =
      t.spread entries >>= fun longer => pure (longer.insert (.str s) v) := by
  rw [spread_append]
  rfl

theorem mem_keys_append {key : Key} (known : key ∈ Assoc.keys t.entries) (v : Value) :
    key ∈ Assoc.keys (t.append v).value.entries := by
  unfold append
  split
  next longer pushed =>
    rw [push?_eq_insert pushed]
    exact Assoc.mem_keys_put.mpr (.inl known)
  next => exact known

theorem append_of_free (free : .int t.nextFree ∉ Assoc.keys t.entries) (v : Value) :
    t.append v = pure (t.insert (.int t.nextFree) v) := by
  cases pushed : t.push? v with
  | none => exact absurd (push?_eq_none.mp pushed) free
  | some longer => rw [append, pushed, push?_eq_insert pushed]

theorem append_of_taken (taken : .int t.nextFree ∈ Assoc.keys t.entries) (v : Value) :
    t.append v = ⟨t, [.indexOccupied]⟩ := by
  rw [append, push?_eq_none.mpr taken]
  rfl

theorem insert_comm {other : Key} (known : .str s ∈ Assoc.keys t.entries) (apart : other ≠ .str s)
    (v w : Value) :
    (t.insert (.str s) v).insert other w = (t.insert other w).insert (.str s) v := by
  simp only [insert, Assoc.put_put_comm known apart]
  rfl

theorem insert_append (known : .str s ∈ Assoc.keys t.entries) (v w : Value) :
    (t.insert (.str s) v).append w =
      t.append w >>= fun longer => pure (longer.insert (.str s) v) := by
  have same : .int t.nextFree ∈ Assoc.keys (t.insert (.str s) v).entries ↔
      .int t.nextFree ∈ Assoc.keys t.entries := by
    simp [insert, Assoc.mem_keys_put]
  by_cases taken : .int t.nextFree ∈ Assoc.keys t.entries
  · have taken' := append_of_taken (t := t.insert (.str s) v) (same.mpr taken) w
    rw [taken', append_of_taken taken]
    rfl
  · have free' := append_of_free (t := t.insert (.str s) v) (mt same.mp taken) w
    have apart : Key.int t.nextFree ≠ .str s := by simp
    rw [free', append_of_free taken]
    exact congrArg pure (insert_comm known apart v w)

theorem insert_spread {entries : List (Key × Value)} (known : .str s ∈ Assoc.keys t.entries)
    (apart : .str s ∉ Assoc.keys entries) (v : Value) :
    (t.insert (.str s) v).spread entries =
      t.spread entries >>= fun longer => pure (longer.insert (.str s) v) := by
  induction entries generalizing t with
  | nil => rfl
  | cons entry rest ih =>
    obtain ⟨key, w⟩ := entry
    obtain ⟨other, later⟩ : .str s ≠ key ∧ .str s ∉ Assoc.keys rest := by
      simpa [Assoc.keys] using apart
    cases key with
    | int i =>
      simp only [spread]
      rw [insert_append known, Logged.bind_assoc, Logged.bind_assoc]
      exact Logged.bind_congr (ih (mem_keys_append known w) later)
    | str q =>
      simp only [spread]
      rw [insert_comm known (Ne.symm other)]
      exact ih (Assoc.mem_keys_put.mpr (.inl known)) later

/-- A value put under a string among entries may as well be inserted after all of them. -/
theorem spread_put {entries : Assoc Key Value} (unique : (Assoc.keys entries).Nodup) (s : Bytes)
    (v : Value) (t : Table Value) :
    t.spread (Assoc.put entries (.str s) v) =
      t.spread entries >>= fun longer => pure (longer.insert (.str s) v) := by
  cases found : Assoc.get? entries (.str s) with
  | none => rw [Assoc.put_of_not_mem v (Assoc.get?_eq_none_iff.mp found), spread_concat_str]
  | some old =>
    -- the key has its place already, so its value can wait for the entries after it
    obtain ⟨before, after, split, changed⟩ := Assoc.exists_put_eq found v
    have apart : .str s ∉ Assoc.keys after := by
      rw [split, Assoc.keys, List.map_append] at unique
      exact (List.nodup_cons.mp (List.nodup_append.mp unique).2.1).1
    rw [changed, split, spread_append, spread_append, Logged.bind_assoc]
    refine Logged.bind_congr ?_
    generalize (t.spread before).value = u
    have known : .str s ∈ Assoc.keys (u.insert (.str s) old).entries :=
      Assoc.mem_keys_put.mpr (.inr rfl)
    have twice : (u.insert (.str s) old).insert (.str s) v = u.insert (.str s) v := by
      simp only [insert, Assoc.put_put_self]
      rfl
    rw [spread, spread, ← twice]
    exact insert_spread known apart v

end Steps

section Numbering

variable {α : Type}

/-- The entries under integers, in order. -/
def numbered : List (Key × α) → List (Int × α)
  | [] => []
  | (.int i, a) :: rest => (i.toInt, a) :: numbered rest
  | (.str _, _) :: rest => numbered rest

/-- The entries with the indices from `i` on in place of the integers. -/
def renumber (i : Int64) : List (Key × α) → List (Key × α)
  | [] => []
  | (.int _, a) :: rest => (.int i, a) :: renumber (i + 1) rest
  | (.str s, a) :: rest => (.str s, a) :: renumber i rest

theorem length_numbered_le (entries : List (Key × α)) :
    (numbered entries).length ≤ entries.length := by
  induction entries with
  | nil => exact Nat.le_refl 0
  | cons entry rest ih =>
    obtain ⟨key, a⟩ := entry
    cases key with
    | int i => exact Nat.succ_le_succ ih
    | str s => exact Nat.le_succ_of_le ih

theorem numbered_append (front back : List (Key × α)) :
    numbered (front ++ back) = numbered front ++ numbered back := by
  induction front with
  | nil => rfl
  | cons entry rest ih =>
    obtain ⟨key, a⟩ := entry
    cases key <;> simp [numbered, ih]

theorem get?_renumber (i : Int64) (entries : List (Key × α)) (s : Bytes) :
    Assoc.get? (renumber i entries).reverse (.str s) = Assoc.get? entries.reverse (.str s) := by
  induction entries generalizing i with
  | nil => rfl
  | cons entry rest ih =>
    obtain ⟨key, a⟩ := entry
    cases key <;> simp [renumber, Assoc.get?_append, ih, Assoc.get?]

theorem numbered_put_str (m : Assoc Key α) (s : Bytes) (a : α) :
    numbered (Assoc.put m (.str s) a) = numbered m := by
  induction m with
  | nil => rfl
  | cons entry rest ih =>
    obtain ⟨key, b⟩ := entry
    by_cases same : key = .str s
    · simp [Assoc.put, same, numbered]
    · cases key <;> simp [Assoc.put, same, numbered, ih]

/-- What spreading entries into an array gives while there are indices left. -/
structure Spreads (t : Table α) (added : List (Key × α)) (longer : Table α) : Prop where
  tracked : longer.Tracked
  next : longer.nextFree.toInt = t.nextFree.toInt + (numbered added).length
  entries : longer.entries = Assoc.putAll t.entries (renumber t.nextFree added)
  indices : numbered longer.entries = numbered t.entries ++
    (numbered added).mapIdx fun i entry => (t.nextFree.toInt + i, entry.2)

theorem Tracked.free {t : Table α} (tracked : t.Tracked)
    (room : t.nextFree.toInt < Int64.maxValue.toInt) :
    .int t.nextFree ∉ Assoc.keys t.entries := by
  intro taken
  rcases tracked.bounds.2 _ taken with less | ⟨last, -⟩
  · exact Int64.lt_irrefl less
  · rw [last] at room
    exact lt_irrefl _ room

theorem nextFree_insert {t : Table α} (room : t.nextFree.toInt < Int64.maxValue.toInt) (a : α) :
    (t.insert (.int t.nextFree) a).nextFree = t.nextFree + 1 := by
  have inner : t.nextFree ≠ Int64.maxValue := by
    intro last
    rw [last] at room
    exact lt_irrefl _ room
  simp [insert, freeAfter, Word.next, inner]

end Numbering

section Room

theorem exists_spread (added : List (Key × Value)) (tracked : t.Tracked)
    (room : t.nextFree.toInt + (numbered added).length ≤ Int64.maxValue.toInt) :
    ∃ longer, t.spread added = pure longer ∧ Spreads t added longer := by
  induction added generalizing t with
  | nil => exact ⟨t, rfl, tracked, by simp [numbered], rfl, by simp [numbered]⟩
  | cons entry rest ih =>
    obtain ⟨key, v⟩ := entry
    cases key with
    | str s =>
      obtain ⟨longer, spread, kept, next, entries, indices⟩ := ih (tracked.insert (.str s) v) room
      refine ⟨longer, spread, kept, next, entries, indices.trans ?_⟩
      rw [insert, numbered_put_str]
      rfl
    | int i =>
      have count : numbered ((.int i, v) :: rest) = (i.toInt, v) :: numbered rest := rfl
      rw [count, List.length_cons] at room
      have left : t.nextFree.toInt < Int64.maxValue.toInt := by omega
      have free := tracked.free left
      have step := nextFree_insert left v
      have up : (t.insert (.int t.nextFree) v).nextFree.toInt = t.nextFree.toInt + 1 := by
        rw [insert, freeAfter, if_pos (Int64.le_refl _), Word.toInt_next]
        omega
      obtain ⟨longer, spread, kept, next, entries, indices⟩ :=
        ih (tracked.insert (.int t.nextFree) v) (by omega)
      refine ⟨longer, ?_, kept, ?_, ?_, ?_⟩
      · rw [Table.spread, append_of_free free]
        exact spread
      · rw [next, up, count, List.length_cons]
        omega
      · rw [entries, step]
        rfl
      · rw [indices, up, insert, Assoc.put_of_not_mem v free, numbered_append, count,
          List.mapIdx_cons]
        simp [numbered, Int.add_assoc, Int.add_comm 1]

theorem spread_spread_empty {entries : List (Key × Value)}
    (room : (numbered entries).length ≤ Int64.maxValue.toInt) (t : Table Value) :
    t.spread (empty.spread entries).value.entries = t.spread entries := by
  have start : (empty : Table Value).nextFree.toInt = 0 := rfl
  -- the last entry either comes last in the inner array or changes the place of its string
  induction entries using List.reverseRecOn with
  | nil => rfl
  | append_singleton front entry ih =>
    obtain ⟨key, v⟩ := entry
    rw [numbered_append, List.length_append] at room
    obtain ⟨inner, spread, within, next, -, -⟩ := exists_spread front Tracked.empty (by omega)
    have earlier : t.spread inner.entries = t.spread front := by
      rw [← ih (by omega), spread]
      rfl
    cases key with
    | int i =>
      have one : (numbered [(Key.int i, v)]).length = 1 := rfl
      have free := within.free (by omega)
      have last : (empty.spread (front ++ [(.int i, v)])).value.entries =
          inner.entries ++ [(.int inner.nextFree, v)] := by
        rw [spread_concat_int, spread, ← Assoc.put_of_not_mem v free]
        exact congrArg (·.value.entries) (append_of_free free v)
      rw [last, spread_concat_int, spread_concat_int, earlier]
    | str s =>
      have last : (empty.spread (front ++ [(.str s, v)])).value.entries =
          Assoc.put inner.entries (.str s) v := by
        rw [spread_concat_str, spread]
        rfl
      rw [last, spread_put within.unique, spread_concat_str, earlier]

theorem exists_spread_empty (entries : List (Key × Value)) (room : entries.length < 2 ^ 63 - 1) :
    ∃ w, empty.spread entries = pure w ∧ Spreads empty entries w ∧
      ∀ t : Table Value, t.spread w.entries = t.spread entries := by
  have few : (numbered entries).length ≤ Int64.maxValue.toInt := by
    have top : Int64.maxValue.toInt = 2 ^ 63 - 1 := by decide
    have := length_numbered_le entries
    omega
  obtain ⟨w, spread, kept⟩ := exists_spread entries Tracked.empty (by simpa [empty])
  refine ⟨w, spread, kept, fun t => ?_⟩
  rw [← spread_spread_empty few, spread]
  rfl

end Room

end Table

section Literals

variable {scope : Scope}

/-- The literal that spreads the values of expressions, one after the other. -/
def Expr.spreading (parts : List Expr) (span : Span) : Expr :=
  .array (parts.map fun e => .of none e false true none) span

/-- Expressions with arrays for values, which have the given entries taken together. -/
inductive Scope.Parts (scope : Scope) : List Expr → List (Key × Value) → Memory → Memory → Prop
  | nil {m : Memory} : Parts scope [] [] m m
  | cons {e : Expr} {rest : List Expr} {a : Table Value} {entries : List (Key × Value)}
      {m m' after : Memory} (first : (e.value scope).run m = (.ok (.array a), m'))
      (later : Parts scope rest entries m' after) :
      Parts scope (e :: rest) (a.entries ++ entries) m after

theorem Scope.Parts.one {e : Expr} {a : Table Value} {m after : Memory}
    (value : (e.value scope).run m = (.ok (.array a), after)) :
    scope.Parts [e] a.entries m after := by
  simpa only [List.append_nil] using Scope.Parts.cons value .nil

theorem Scope.Parts.append {front back : List Expr} {entries entries' : List (Key × Value)}
    {m m' after : Memory} (first : scope.Parts front entries m m')
    (second : scope.Parts back entries' m' after) :
    scope.Parts (front ++ back) (entries ++ entries') m after := by
  induction first with
  | nil => exact second
  | @cons _ _ a _ _ _ _ here _ ih =>
    rw [List.append_assoc]
    exact .cons here (ih second)

theorem Scope.Parts.run_tableOf {parts : List Expr} {entries : List (Key × Value)}
    {t : Table Value} {m after : Memory} (evaluated : scope.Parts parts entries m after)
    (quiet : (t.spread entries).warnings = []) :
    (Expr.tableOf scope (parts.map fun e => .of none e false true none) t).run m =
      (.ok (t.spread entries).value, after) := by
  induction evaluated generalizing t with
  | nil => rfl
  | @cons e rest a entries m m' after first later ih =>
    rw [Table.spread_append] at quiet ⊢
    obtain ⟨here, there⟩ : (t.spread a.entries).warnings = [] ∧
        ((t.spread a.entries).value.spread entries).warnings = [] :=
      List.append_eq_nil_iff.mp quiet
    have done : ((e.value scope).run m).1 = .ok (.array a) := by rw [first]
    -- memory stays as it is because there is nothing to warn of
    have added : (Eval.logged (t.unpack (.array a))).run m' =
        (.ok (t.spread a.entries).value, m') := by
      rw [Eval.run_logged, Table.unpack, here]
      rfl
    have added' := congrArg Prod.fst added
    simp only [List.map_cons, ArrayItem.of, Expr.tableOf]
    rw [Eval.run_bind_ok done, first, Eval.run_bind_ok added', added]
    exact ih there

theorem Scope.Parts.run_spreading {parts : List Expr} {entries : List (Key × Value)}
    {t : Table Value} {m after : Memory} (evaluated : scope.Parts parts entries m after)
    (spread : Table.empty.spread entries = pure t) (span : Span) :
    ((Expr.spreading parts span).value scope).run m = (.ok (.array t), after) := by
  have built := evaluated.run_tableOf (t := .empty) (by rw [spread]; rfl)
  rw [spread] at built
  have built' := congrArg Prod.fst built
  rw [Expr.spreading, Expr.value, Eval.run_bind_ok built', built]
  rfl

end Literals

namespace Registry

theorem run_evaluate_spreading (r : Registry) (evaluator : Evaluator) {s : Subject}
    {parts : List Expr} {entries : List (Key × Value)} {t : Table Value} {m after : Memory}
    (evaluated : (r.scope evaluator s).Parts parts entries m after)
    (spread : Table.empty.spread entries = pure t) (span : Span) :
    (r.evaluate evaluator s (.spreading parts span)).run m =
      (.ok { value := .array t }, after) := by
  have value := evaluated.run_spreading spread span
  have value' := congrArg Prod.fst value
  rw [evaluate, Expr.spreading, Expr.resolve, ← Expr.spreading, Eval.run_bind_ok value', value]
  · rfl
  · nofun
  · nofun

/-- However the spreads of three arrays are bracketed, the literal has the same value, with the same
next free index. The values under integers have the indices from zero on, in the order in which they
come in the arrays; each key stands where it came first; and a string has its last value. -/
theorem spread_associative (r : Registry) (evaluator : Evaluator) (s : Subject) {x y z : Expr}
    {a b c : Table Value} {m m₁ m₂ m₃ : Memory}
    (first : (r.valueOf evaluator s x).run m = (.ok (.array a), m₁))
    (second : (r.valueOf evaluator s y).run m₁ = (.ok (.array b), m₂))
    (third : (r.valueOf evaluator s z).run m₂ = (.ok (.array c), m₃))
    (room : a.size + b.size + c.size < 2 ^ 63 - 1) (inner outer : Span) :
    let entries := a.entries ++ b.entries ++ c.entries
    ∃ t : Table Value,
      (∀ literal ∈ [Expr.spreading [.spreading [x, y] inner, z] outer,
          .spreading [x, .spreading [y, z] inner] outer, .spreading [x, y, z] outer],
        (r.evaluate evaluator s literal).run m = (.ok { value := .array t }, m₃)) ∧
      t.nextFree.toInt = (Table.numbered entries).length ∧
      Table.numbered t.entries =
        (Table.numbered entries).mapIdx (fun i entry => ((i : Int), entry.2)) ∧
      Assoc.keys t.entries = (Assoc.keys (Table.renumber 0 entries)).eraseDups ∧
      ∀ s, t.get? (.str s) = Assoc.get? entries.reverse (.str s) := by
  intro entries
  rw [valueOf_eq] at first second third
  have sizes : entries.length = a.entries.length + b.entries.length + c.entries.length := by
    rw [List.length_append, List.length_append]
  simp only [Table.size] at room
  have one := Scope.Parts.one first
  have two := Scope.Parts.one second
  have three := Scope.Parts.one third
  obtain ⟨ab, front, -, same⟩ := Table.exists_spread_empty (a.entries ++ b.entries)
    (by rw [List.length_append]; omega)
  obtain ⟨bc, back, -, same'⟩ := Table.exists_spread_empty (b.entries ++ c.entries)
    (by rw [List.length_append]; omega)
  -- spreading what was spread before is spreading its parts, on either side
  obtain ⟨t, all, spreads, -⟩ := Table.exists_spread_empty entries (by omega)
  have left : Table.empty.spread (ab.entries ++ c.entries) = pure t := by
    rw [Table.spread_append, same, ← Table.spread_append]
    exact all
  have right : Table.empty.spread (a.entries ++ bc.entries) = pure t := by
    have split : entries = a.entries ++ (b.entries ++ c.entries) := List.append_assoc _ _ _
    rw [← all, split, Table.spread_append, Table.spread_append]
    exact Logged.bind_congr (same' _)
  have built : t.entries = Assoc.ofPairs (Table.renumber 0 entries) := spreads.entries
  refine ⟨t, ?_, ?_, ?_, ?_, fun s => ?_⟩
  · have early := (Scope.Parts.one ((one.append two).run_spreading front inner)).append three
    have late := one.append (.one ((two.append three).run_spreading back inner))
    simp only [List.forall_mem_cons, List.not_mem_nil, IsEmpty.forall_iff, implies_true, and_true]
    exact ⟨r.run_evaluate_spreading evaluator early left outer,
      r.run_evaluate_spreading evaluator late right outer,
      r.run_evaluate_spreading evaluator ((one.append two).append three) all outer⟩
  · simpa [Table.empty] using spreads.next
  · simpa [Table.empty, Table.numbered] using spreads.indices
  · rw [built, Assoc.keys_ofPairs]
    rfl
  · rw [Table.get?, built, Assoc.get?_ofPairs, Table.get?_renumber]

theorem mixed_keys_spread :
    let pairs (items : List (Expr × Int64)) : Expr :=
      .array (items.map fun item => .of (some item.1) (.int item.2 {}) false false none) {}
    let x := pairs [(.int 7 {}, 1), (.string [107] {}, 2)]
    let y := pairs [(.string [107] {}, 3), (.int 7 {}, 4)]
    let z := pairs [(.string [108] {}, 5), (.string [107] {}, 6), (.int (-1) {}, 8)]
    let read (e : Expr) := (({} : Registry).evaluate (fun _ => throw .outOfFuel)
      (.file ⟨"/a.php", []⟩) e).run {}
    ∃ t : Table Value,
      (∀ literal ∈ [Expr.spreading [.spreading [x, y] {}, z] {},
          .spreading [x, .spreading [y, z] {}] {}, .spreading [x, y, z] {}],
        read literal = (.ok { value := .array t }, {})) ∧
      t.nextFree.toInt = 3 ∧
      Table.numbered t.entries = [(0, .int 1), (1, .int 4), (2, .int 8)] ∧
      Assoc.keys t.entries = [.int 0, .str [107], .int 1, .str [108], .int 2] ∧
      t.get? (.str [107]) = some (.int 6) := by
  intro pairs x y z read
  obtain ⟨t, same, next, indices, keys, strings⟩ :=
    spread_associative {} (fun _ => throw .outOfFuel) (.file ⟨"/a.php", []⟩)
      (x := x) (y := y) (z := z) (m := {})
      (a := { entries := [(.int 7, .int 1), (.str [107], .int 2)], nextFree := 8 })
      (b := { entries := [(.str [107], .int 3), (.int 7, .int 4)], nextFree := 8 })
      (c := { entries := [(.str [108], .int 5), (.str [107], .int 6), (.int (-1), .int 8)] })
      rfl rfl rfl (by decide) {} {}
  exact ⟨t, same, next, indices, keys.trans (by decide), (strings [107]).trans rfl⟩

end Registry

end ConstExpr
