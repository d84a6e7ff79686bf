import Yang.Statement.Traversal

/-! What a walk through a tree meets: the statement itself and, below it, what a walk through its
substatements meets. -/
namespace Yang.Statement

theorem descendants_eq (s : Statement) : s.descendants = preorderAll s.children :=
  Descendants.toList_eq _

theorem preorderAll_eq_flatMap (ss : List Statement) : preorderAll ss = ss.flatMap preorder := by
  induction ss with
  | nil => rfl
  | cons s ss ih => simp [preorderAll, ih]

theorem postorderAll_eq_flatMap (ss : List Statement) : postorderAll ss = ss.flatMap postorder := by
  induction ss with
  | nil => rfl
  | cons s ss ih => simp [postorderAll, ih]

theorem mem_preorder {s n : Statement} : n ∈ s.preorder ↔ n = s ∨ n ∈ s.descendants := by
  rw [preorder_eq, List.mem_cons, descendants_eq]

theorem mem_descendants {s n : Statement} :
    n ∈ s.descendants ↔ ∃ c ∈ s.children, n ∈ c.preorder := by
  rw [descendants_eq, preorderAll_eq_flatMap, List.mem_flatMap]

theorem self_mem_preorder (s : Statement) : s ∈ s.preorder := mem_preorder.mpr (.inl rfl)

theorem mem_descendants_of_child {s c n : Statement} (child : c ∈ s.children)
    (inside : n ∈ c.preorder) :
    n ∈ s.descendants := mem_descendants.mpr ⟨c, child, inside⟩

theorem mem_preorder_of_child {s c n : Statement} (child : c ∈ s.children)
    (inside : n ∈ c.preorder) :
    n ∈ s.preorder := mem_preorder.mpr (.inr (mem_descendants_of_child child inside))

theorem preorder_trans {s n m : Statement} (inside : n ∈ s.preorder) (deeper : m ∈ n.preorder) :
    m ∈ s.preorder := by
  induction s with
  | node s ih =>
    rcases mem_preorder.mp inside with rfl | below
    · exact deeper
    · obtain ⟨c, child, inside⟩ := mem_descendants.mp below
      exact mem_preorder_of_child child (ih c child inside)

theorem exists_parent {s n : Statement} (below : n ∈ s.descendants) :
    ∃ p ∈ s.preorder, n ∈ p.children := by
  induction s with
  | node s ih =>
    obtain ⟨c, child, inside⟩ := mem_descendants.mp below
    rcases mem_preorder.mp inside with rfl | deeper
    · exact ⟨s, s.self_mem_preorder, child⟩
    · obtain ⟨p, found, parent⟩ := ih c child deeper
      exact ⟨p, mem_preorder_of_child child found, parent⟩

end Yang.Statement
