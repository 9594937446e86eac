import ConstExpr.Registry.Index

/-!
What building a registry guarantees. A property that no declaration of the files breaks holds of the
registry; in particular every class is kept under its own name.
-/

namespace ConstExpr

theorem trimLeft_trimLeft (c : Char) (s : String) : trimLeft c (trimLeft c s) = trimLeft c s := by
  simp only [trimLeft, String.toList_ofList]
  congr 1
  induction s.toList with
  | nil => rfl
  | cons x rest ih => by_cases drop : x == c <;> simp [drop, ih]

theorem mem_flattenAll {s : Stmt} {statements : List Stmt} :
    s ∈ flattenAll statements ↔ ∃ outer ∈ statements, s ∈ outer.flatten := by
  induction statements with
  | nil => simp [flattenAll]
  | cons first rest ih => simp [flattenAll, ih]

/-- The statements of a file that can declare something: those at the top of a namespace or outside
of all, with blocks and branches opened up. -/
def declarations (statements : List Stmt) : List Stmt :=
  statements.flatMap fun
    | .namespaceBlock _ body _ => flattenAll body
    | s => s.flatten

namespace Registry

section Invariant

variable {P : Registry → Prop} (renamed : ∀ r files, P r → P { r with files := files })

include renamed

theorem enterNamespace_invariant {file space : String} {body : List Stmt}
    (entered : ∀ r, ∀ s ∈ flattenAll body, P r → P (r.enter file space s)) {r : Registry}
    (held : P r) : P (r.enterNamespace file space body) := by
  have opened : P (r.openNamespace file space) := by
    dsimp only [openNamespace]
    split
    · exact held
    · exact renamed r _ held
  unfold enterNamespace
  generalize flattenAll body = statements at entered
  generalize r.openNamespace file space = start at opened
  induction statements generalizing start with
  | nil => exact opened
  | cons s rest ih =>
    exact ih (fun r t member => entered r t (List.mem_cons_of_mem _ member)) _
      (entered start s List.mem_cons_self opened)

theorem enterFile_invariant {file : String} {statements : List Stmt}
    (entered : ∀ r space, ∀ s ∈ declarations statements, P r → P (r.enter file space s))
    {r : Registry} (held : P r) : P (r.enterFile file statements) := by
  have spaced : ∀ (part : List Stmt) (start : Registry), part ⊆ statements → P start →
      P (part.foldl (fun r s =>
        match s with
        | .namespaceBlock name body _ =>
          r.enterNamespace file ((name.map Name.text).getD "") body
        | _ => r) start) := by
    intro part
    induction part with
    | nil => exact fun _ _ held => held
    | cons s rest ih =>
      intro start included held
      refine ih _ (fun t member => included (List.mem_cons_of_mem _ member)) ?_
      dsimp only
      split
      next name body span =>
        refine enterNamespace_invariant renamed (fun r t inside => entered r _ t ?_) held
        exact List.mem_flatMap.mpr ⟨_, included List.mem_cons_self, inside⟩
      next => exact held
  -- what stands outside of all namespaces is entered last, as one namespace more
  have inner := spaced statements _ (fun _ member => member)
    (renamed r (Assoc.putNew r.files file []) held)
  dsimp only [enterFile]
  split
  · exact inner
  · refine enterNamespace_invariant renamed (fun r t inside => entered r _ t ?_) inner
    obtain ⟨outer, member, within⟩ := mem_flattenAll.mp inside
    obtain ⟨member, outside⟩ := List.mem_filter.mp member
    refine List.mem_flatMap.mpr ⟨outer, member, ?_⟩
    split
    next => simp at outside
    next => exact within

theorem build_invariant {predefined builtin : Bool} {constants : List (String × Value)}
    {files : List (String × List Stmt)} (start : P (build predefined builtin constants []))
    (entered : ∀ r space, ∀ file ∈ files, ∀ s ∈ declarations file.2, P r →
      P (r.enter file.1 space s)) :
    P (build predefined builtin constants files) := by
  have step : ∀ (part : List (String × List Stmt)) (r : Registry), part ⊆ files → P r →
      P (part.foldl (fun r file => r.enterFile file.1 file.2) r) := by
    intro part
    induction part with
    | nil => exact fun _ _ held => held
    | cons file rest ih =>
      intro r included held
      refine ih _ (fun other member => included (List.mem_cons_of_mem _ member)) ?_
      exact enterFile_invariant renamed
        (fun r space s member => entered r space file (included List.mem_cons_self) s member) held
  exact step files _ (fun _ member => member) start

end Invariant

/-- Classes are kept under their own names, and built-in ones have no declaration. -/
structure Coherent (r : Registry) : Prop where
  classKey : ∀ key entry, (key, entry) ∈ r.classes → symbolKey entry.name = key
  internalKey : ∀ key c, (key, c) ∈ r.internals → foldCase c.name = key
  internalOrigin : ∀ key c, (key, c) ∈ r.internals → c.decl? = none

theorem Coherent.enter {r : Registry} (coherent : r.Coherent) (file space : String) (s : Stmt) :
    (r.enter file space s).Coherent := by
  unfold Registry.enter
  split
  next decl =>
    refine ⟨?_, coherent.internalKey, coherent.internalOrigin⟩
    intro key entry member
    rcases Assoc.mem_put member with old | new
    · exact coherent.classKey key entry old
    · cases new
      rfl
  next => exact ⟨coherent.classKey, coherent.internalKey, coherent.internalOrigin⟩
  next => exact ⟨coherent.classKey, coherent.internalKey, coherent.internalOrigin⟩
  next => exact coherent

theorem Coherent.start (predefined builtin : Bool) (constants : List (String × Value)) :
    (build predefined builtin constants []).Coherent := by
  have given : ∀ key c, (key, c) ∈ (build predefined builtin constants []).internals →
      ∃ b ∈ Builtin.classes, key = symbolKey b.name ∧ c = b := by
    intro key c member
    cases builtin with
    | false => simp [build] at member
    | true =>
      have member : (key, c) ∈ Assoc.ofPairs (Builtin.classes.map fun c => (symbolKey c.name, c)) :=
        member
      rcases Assoc.mem_putAll member with none | some
      · simp at none
      · obtain ⟨b, inside, same⟩ := List.mem_map.mp some
        exact ⟨b, inside, (Prod.ext_iff.mp same).1.symm, (Prod.ext_iff.mp same).2.symm⟩
  have plain : ∀ b ∈ Builtin.classes, b.decl? = none ∧ trimLeft '\\' b.name = b.name := by
    simp [Builtin.classes, Class.internal, Class.decl?, trimLeft_trimLeft]
  refine ⟨fun key entry member => ?_, fun key c member => ?_, fun key c member => ?_⟩
  · simp [build] at member
  · obtain ⟨b, inside, rfl, rfl⟩ := given key c member
    rw [symbolKey, (plain c inside).2]
  · obtain ⟨b, inside, -, rfl⟩ := given key c member
    exact (plain c inside).1

theorem build_coherent (predefined builtin : Bool) (constants : List (String × Value))
    (files : List (String × List Stmt)) :
    (build predefined builtin constants files).Coherent :=
  build_invariant (fun _ _ held => ⟨held.classKey, held.internalKey, held.internalOrigin⟩)
    (Coherent.start predefined builtin constants)
    (fun _ space file _ s _ held => held.enter file.1 space s)

end Registry

end ConstExpr
