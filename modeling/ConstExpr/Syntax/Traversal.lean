import ConstExpr.Syntax.Node

/-!
Preorder: a node, then the preorders of its children from left to right. Below a node at which the
traversal does not descend nothing is listed.
-/

namespace ConstExpr.Node

private theorem size_ofExprs {c : Node} {es : List Expr} (h : c ∈ ofExprs es) :
    sizeOf c ≤ sizeOf es := by
  obtain ⟨e, member, rfl⟩ := List.mem_map.1 h
  have := List.sizeOf_lt_of_mem member
  simp only [expr.sizeOf_spec]; omega

private theorem size_ofNames {c : Node} {ns : List Name} (h : c ∈ ofNames ns) :
    sizeOf c ≤ sizeOf ns := by
  obtain ⟨n, member, rfl⟩ := List.mem_map.1 h
  have := List.sizeOf_lt_of_mem member
  simp only [name.sizeOf_spec]; omega

private theorem size_ofOption {c : Node} {e : Option Expr} (h : c ∈ ofOption e) :
    sizeOf c ≤ sizeOf e := by
  cases e <;> simp_all [ofOption]

private theorem size_ofBlock {c : Node} {body : Option (List Stmt)} (h : c ∈ ofBlock body) :
    sizeOf c ≤ sizeOf body := by
  cases body <;> simp_all [ofBlock]

private theorem size_ofClassRef {c : Node} {r : ClassRef} (h : c ∈ ofClassRef r) :
    sizeOf c ≤ sizeOf r := by
  cases r <;> simp_all [ofClassRef]

private theorem size_ofNameOption {c : Node} {n : Option Name} (h : c ∈ ofNameOption n) :
    sizeOf c ≤ sizeOf n := by
  cases n <;> simp_all [ofNameOption]

private theorem size_importName (i : Import) : sizeOf i.name < sizeOf i := by
  cases i; simp only [Import.mk.sizeOf_spec]; omega

private theorem size_traitName (m : TraitMethod) : sizeOf m.trait < sizeOf m := by
  cases m; simp only [TraitMethod.mk.sizeOf_spec]; omega

private theorem size_conditions (cs : Option (List Expr)) : sizeOf (cs.getD []) ≤ sizeOf cs := by
  cases cs <;> simp

private theorem size_ofStmt {c : Node} {s : Stmt} (h : c ∈ ofStmt s) : sizeOf c < 1 + sizeOf s := by
  cases s <;>
    simp only [ofStmt, List.mem_cons, List.mem_append, List.not_mem_nil, or_false] at h <;>
    grind [→ size_ofExprs, → size_ofOption, → size_ofBlock, → size_ofNameOption,
      → size_ofClassRef, → List.sizeOf_lt_of_mem, size_importName]

private theorem size_ofExpr {c : Node} {e : Expr} (h : c ∈ ofExpr e) : sizeOf c < 1 + sizeOf e := by
  cases e <;>
    simp only [ofExpr, List.mem_cons, List.mem_append, List.not_mem_nil, or_false] at h <;>
    grind [→ size_ofExprs, → size_ofOption, → size_ofClassRef, → List.sizeOf_lt_of_mem]

private theorem size_ofMember {c : Node} {m : Member} (h : c ∈ ofMember m) :
    sizeOf c < 1 + sizeOf m := by
  cases m <;>
    simp only [ofMember, List.mem_cons, List.mem_append, List.not_mem_nil, or_false] at h <;>
    grind [→ size_ofOption, → size_ofNames, → List.sizeOf_lt_of_mem]

private theorem size_ofAdaptation {c : Node} {a : Adaptation} (h : c ∈ ofAdaptation a) :
    sizeOf c < 1 + sizeOf a := by
  cases a <;> simp only [ofAdaptation, List.mem_append] at h <;>
    grind [→ size_ofNames, → size_ofNameOption, size_traitName]

theorem sizeOf_lt_of_mem_children {c n : Node} (h : c ∈ n.children) : sizeOf c < sizeOf n := by
  cases n with
  | stmt s => simpa using size_ofStmt h
  | expr e => simpa using size_ofExpr h
  | member m => simpa using size_ofMember h
  | adaptation a => simpa using size_ofAdaptation h
  | name n => simp [children] at h
  | _ v =>
    cases v <;>
      simp only [children, List.mem_cons, List.mem_append, List.not_mem_nil, or_false] at h <;>
      grind [→ size_ofExprs, → size_ofOption, → size_ofNames, → List.sizeOf_lt_of_mem,
        size_conditions]

theorem children_induction {holds : Node → Prop}
    (step : ∀ n, (∀ c ∈ n.children, holds c) → holds n) (n : Node) : holds n :=
  step n fun _ child =>
    -- each child is smaller, so the recursion ends
    have := sizeOf_lt_of_mem_children child
    children_induction step _
termination_by sizeOf n

/-- The nodes that a traversal stops at, in order. -/
def preorder (descend : Node → Bool) (n : Node) : List Node :=
  n :: if descend n then
    n.children.attach.flatMap fun ⟨c, h⟩ =>
      have := sizeOf_lt_of_mem_children h
      c.preorder descend
  else []
termination_by sizeOf n

theorem preorder_eq (descend : Node → Bool) (n : Node) :
    n.preorder descend =
      n :: if descend n then n.children.flatMap (preorder descend) else [] := by
  rw [preorder]
  simp only [List.flatMap_subtype, List.unattach_attach]

/-- A recursion that goes through a list puts together what it finds at each member. -/
theorem eq_flatMap_of_next {α β : Type} {listed : List α → List β} {found : α → List β}
    (none : listed [] = []) (next : ∀ a rest, listed (a :: rest) = found a ++ listed rest)
    (members : List α) : listed members = members.flatMap found := by
  induction members with
  | nil => exact none
  | cons a rest ih => rw [next, ih, List.flatMap_cons]

end ConstExpr.Node
