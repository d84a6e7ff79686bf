import Mathlib.Data.List.Pairwise
import Yang.Proofs.Source.Position
import Yang.Proofs.Statement.Preorder

/-! Trees whose spans are nested as the statements are. In such a tree spans tell statements apart,
and they tell which of two statements stands inside the other. -/
namespace Yang

/-- A span lies inside another, or is the same. -/
def Span.Within (inner outer : Span) : Prop := outer.start ≤ inner.start ∧ inner.stop ≤ outer.stop

namespace Statement

variable {s n m c d : Statement}

/-- A statement has some width, and its substatements lie inside it one behind another. -/
structure Nested (s : Statement) : Prop where
  forward : s.span.start < s.span.stop
  inside : ∀ c ∈ s.children, s.span.start < c.span.start ∧ c.span.stop < s.span.stop
  apart : s.children.Pairwise (·.span.stop ≤ ·.span.start)

/-- Of two substatements one is behind the other. -/
theorem Nested.before_or_behind (nested : s.Nested) (child_c : c ∈ s.children)
    (child_d : d ∈ s.children) (other : c ≠ d) :
    c.span.stop ≤ d.span.start ∨ d.span.stop ≤ c.span.start := by
  have symm : Std.Symm fun c d : Statement => c.span.stop ≤ d.span.start ∨
    d.span.stop ≤ c.span.start :=
    ⟨fun _ _ => Or.symm⟩
  have apart : s.children.Pairwise fun c d => c.span.stop ≤ d.span.start ∨
    d.span.stop ≤ c.span.start :=
    nested.apart.imp Or.inl
  exact apart.forall child_c child_d other

theorem nested_child (nested : ∀ n ∈ s.preorder, n.Nested) (child : c ∈ s.children) :
    ∀ n ∈ c.preorder, n.Nested :=
  fun n inside => nested n (mem_preorder_of_child child inside)

/-- Descendants begin behind a statement's beginning and end before its end. -/
theorem inside_of_mem_descendants (nested : ∀ n ∈ s.preorder, n.Nested)
    (below : n ∈ s.descendants) :
    s.span.start < n.span.start ∧ n.span.stop < s.span.stop := by
  induction s with
  | node s ih =>
    obtain ⟨c, child, inside⟩ := mem_descendants.mp below
    obtain ⟨behind, before⟩ := (nested s s.self_mem_preorder).inside c child
    rcases mem_preorder.mp inside with rfl | deeper
    · exact ⟨behind, before⟩
    · obtain ⟨later, earlier⟩ := ih c child (nested_child nested child) deeper
      exact ⟨behind.trans later, earlier.trans before⟩

theorem within_of_mem_preorder (nested : ∀ n ∈ s.preorder, n.Nested) (inside : n ∈ s.preorder) :
    n.span.Within s.span := by
  rcases mem_preorder.mp inside with rfl | below
  · exact ⟨le_rfl, le_rfl⟩
  · obtain ⟨behind, before⟩ := inside_of_mem_descendants nested below
    exact ⟨behind.le, before.le⟩

/-- The trees of two statements, one behind the other, are one behind the other. -/
theorem stop_le_start (apart : c.span.stop ≤ d.span.start) (nested_c : ∀ n ∈ c.preorder, n.Nested)
    (nested_d : ∀ n ∈ d.preorder, n.Nested) (inside_c : m ∈ c.preorder)
    (inside_d : n ∈ d.preorder) :
    m.span.stop ≤ n.span.start :=
  ((within_of_mem_preorder nested_c inside_c).2.trans apart).trans
    (within_of_mem_preorder nested_d inside_d).1

/-- A walk through the tree meets statements in the order in which they begin. -/
theorem preorder_pairwise_start (nested : ∀ n ∈ s.preorder, n.Nested) :
    s.preorder.Pairwise (·.span.start < ·.span.start) := by
  induction s with
  | node s ih =>
    rw [preorder_eq, List.pairwise_cons, preorderAll_eq_flatMap]
    constructor
    · intro n inside
      obtain ⟨c, child, inside⟩ := List.mem_flatMap.mp inside
      exact (inside_of_mem_descendants nested (mem_descendants_of_child child inside)).1
    · rw [List.pairwise_flatMap]
      refine ⟨fun c child => ih c child (nested_child nested child), ?_⟩
      apply (nested s s.self_mem_preorder).apart.imp_of_mem
      intro c d child_c child_d apart m inside_m n inside_n
      have forward := (nested_child nested child_c m inside_m).forward
      exact forward.trans_le
        (stop_le_start apart (nested_child nested child_c) (nested_child nested child_d)
        inside_m inside_n)

theorem preorder_nodup_span (nested : ∀ n ∈ s.preorder, n.Nested) :
    (s.preorder.map (·.span)).Nodup := by
  rw [List.Nodup, List.pairwise_map]
  apply (preorder_pairwise_start nested).imp
  intro m n before same
  rw [same] at before
  exact lt_irrefl _ before

/-- Statements one behind the other are not one inside the other. -/
theorem apart_of_stop_le_start (nested : ∀ n ∈ s.preorder, n.Nested) (inside_m : m ∈ s.preorder)
    (inside_n : n ∈ s.preorder) (apart : m.span.stop ≤ n.span.start) :
    ¬ m.span.Within n.span ∧ m ∉ n.descendants ∧ ¬ n.span.Within m.span ∧ n ∉ m.descendants := by
  have forward_m := (nested m inside_m).forward
  have forward_n := (nested n inside_n).forward
  have outside_n : ¬ m.span.Within n.span :=
    fun within => lt_irrefl _ ((forward_m.trans_le apart).trans_le within.1)
  have outside_m : ¬ n.span.Within m.span :=
    fun within => lt_irrefl _ ((forward_n.trans_le within.2).trans_le apart)
  refine ⟨outside_n, fun below => outside_n ?_, outside_m, fun below => outside_m ?_⟩
  · exact within_of_mem_preorder (fun l inside => nested l (preorder_trans inside_n inside))
      (mem_preorder.mpr (.inr below))
  · exact within_of_mem_preorder (fun l inside => nested l (preorder_trans inside_m inside))
      (mem_preorder.mpr (.inr below))

/-- Of two statements in a tree, one lies inside the other just when it is a descendant of it. -/
theorem within_iff_mem_descendants (nested : ∀ n ∈ s.preorder, n.Nested) (inside_m : m ∈ s.preorder)
    (inside_n : n ∈ s.preorder) (other : m ≠ n) : m.span.Within n.span ↔ m ∈ n.descendants := by
  induction s with
  | node s ih =>
    rcases mem_preorder.mp inside_n with rfl | below_n
    · have below := (mem_preorder.mp inside_m).resolve_left other
      exact iff_of_true (within_of_mem_preorder nested inside_m) below
    · rcases mem_preorder.mp inside_m with rfl | below_m
      · -- The root is in none of its descendants.
        have behind := (inside_of_mem_descendants nested below_n).1
        refine iff_of_false (fun within => not_lt_of_ge within.1 behind) (fun below => ?_)
        have nested_n : ∀ l ∈ n.preorder, l.Nested :=
          fun l inside => nested l (preorder_trans inside_n inside)
        exact lt_asymm behind (inside_of_mem_descendants nested_n below).1
      · obtain ⟨c, child_c, inside_c⟩ := mem_descendants.mp below_m
        obtain ⟨d, child_d, inside_d⟩ := mem_descendants.mp below_n
        by_cases same : c = d
        · subst same
          exact ih c child_c (nested_child nested child_c) inside_c inside_d
        · have nested_c := nested_child nested child_c
          have nested_d := nested_child nested child_d
          rcases (nested s s.self_mem_preorder).before_or_behind child_c child_d
            same with before | behind
          · obtain ⟨outside, unrelated, _⟩ := apart_of_stop_le_start nested inside_m inside_n
              (stop_le_start before nested_c nested_d inside_c inside_d)
            exact iff_of_false outside unrelated
          · obtain ⟨_, _, outside, unrelated⟩ := apart_of_stop_le_start nested inside_n inside_m
              (stop_le_start behind nested_d nested_c inside_d inside_c)
            exact iff_of_false outside unrelated

end Statement

end Yang
