import Yang.Proofs.Diagnostic.Violation

/-! Trees up to spans. -/
namespace Yang

open Grammar

namespace Statement

mutual

/-- A tree without its spans. -/
def bare : Statement → Statement
  | ⟨kind, keyword, argument, children, _⟩ =>
    ⟨kind, keyword, argument, bareAll children, .empty .origin⟩

def bareAll : List Statement → List Statement
  | [] => []
  | s :: rest => bare s :: bareAll rest

end

theorem bareAll_eq_map (ss : List Statement) : bareAll ss = ss.map bare := by
  induction ss with
  | nil => rfl
  | cons s ss ih => simp [bareAll, ih]

theorem bare_eq (s : Statement) :
    s.bare = ⟨s.kind, s.keyword, s.argument, s.children.map bare, .empty .origin⟩ := by
  obtain ⟨kind, keyword, argument, children, span⟩ := s
  rw [bare, bareAll_eq_map]

theorem kind_bare (s : Statement) : s.bare.kind = s.kind := by rw [bare_eq]

theorem kinds_bare (s : Statement) : s.bare.kinds = s.kinds := by
  rw [bare_eq]
  simp [kinds, kind_bare]

/-- The counts of a statement do not look at spans. -/
theorem breaches_bare (s : Statement) : s.bare.breaches = s.breaches := by
  have rules : s.bare.bodyRules = s.bodyRules := by
    by_cases type : s.kind = .core .type
    · have same : typeShape? s.bare = typeShape? s := by
        rw [typeShape?_eq type, typeShape?_eq ((kind_bare s).trans type), kinds_bare]
      simp only [bodyRules, kind_bare, type, same]
    · simp only [bodyRules, kind_bare, type, if_false]
  have empty : s.bare.children = [] ↔ s.children = [] := by
    rw [bare_eq]
    exact List.map_eq_nil_iff
  simp only [breaches, rules, kind_bare, kinds_bare, empty]

theorem violations_bare (s : Statement) : s.bare.violations = [] ↔ s.violations = [] := by
  induction s with
  | node s ih =>
    have children : violationsOfAll s.bare.children = [] ↔ violationsOfAll s.children = [] := by
      rw [bare_eq]
      simp only [violationsOfAll_eq_flatMap, List.flatMap_eq_nil_iff, List.forall_mem_map]
      constructor
      · intro clean c child
        exact (ih c child).mp (clean c child)
      · intro clean c child
        exact (ih c child).mpr (clean c child)
    rw [violations_eq, violations_eq, ownViolations_eq, ownViolations_eq, breaches_bare]
    simp only [List.append_eq_nil_iff, List.map_eq_nil_iff, children]

end Statement

end Yang
