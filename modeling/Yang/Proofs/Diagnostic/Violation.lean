import Yang.Diagnostic.Structural
import Yang.Proofs.Grammar.Conformance
import Yang.Proofs.Grammar.Shape

/-! What the counts of substatements report: nothing just when every rule admits its count, and
otherwise one error for each rule that does not. -/
namespace Yang

open Grammar

namespace Violation

variable {rules : List Substatement} {nonEmpty : Bool} {kinds : List Statement.Kind}

def ofCount? (r : Substatement) (count : Nat) : Option Violation :=
  if count = 0 ∧ r.cardinality.isRequired then some (missing r.kind)
  else if 1 < count ∧ r.cardinality.isSingle then some (tooMany r.kind count)
  else none

theorem ofBlock_eq (rules : List Substatement) (nonEmpty : Bool) (kinds : List Statement.Kind) :
    ofBlock rules nonEmpty kinds = (if nonEmpty ∧ kinds = [] then [emptyBlock] else []) ++
      rules.filterMap fun r => ofCount? r (kinds.count r.kind) := rfl

theorem ofCount?_eq (r : Substatement) (count : Nat) : ofCount? r count =
    if r.cardinality.admits count then none
    else some (if count = 0 then missing r.kind else tooMany r.kind count) := by
  obtain ⟨k, c⟩ := r
  cases c <;> rcases count with _ | _ | count <;>
    simp [ofCount?, Cardinality.admits, Cardinality.isRequired, Cardinality.isSingle]

theorem ofCount?_eq_none {r : Substatement} {count : Nat} :
    ofCount? r count = none ↔ r.cardinality.admits count := by
  rw [ofCount?_eq]
  split <;> simp_all

theorem ofBlock_eq_nil : ofBlock rules nonEmpty kinds = [] ↔
    (nonEmpty → kinds ≠ []) ∧ ∀ r ∈ rules, r.cardinality.admits (kinds.count r.kind) := by
  simp only [ofBlock_eq, List.append_eq_nil_iff, List.filterMap_eq_nil_iff, ofCount?_eq_none]
  cases nonEmpty <;> simp

/-- The order of substatements breaks no count. -/
theorem ofBlock_perm {others : List Statement.Kind} (perm : kinds.Perm others) :
    ofBlock rules nonEmpty kinds = ofBlock rules nonEmpty others := by
  have empty : kinds = [] ↔ others = [] := by
    rw [← List.length_eq_zero_iff, perm.length_eq, List.length_eq_zero_iff]
  simp only [ofBlock_eq, empty, perm.count_eq]

theorem ofCount?_eq_missing {r : Substatement} {count : Nat} {k : Statement.Kind} :
    ofCount? r count = some (missing k) ↔ r.kind = k ∧ r.cardinality.isRequired ∧ count = 0 := by
  by_cases lacks : count = 0 ∧ r.cardinality.isRequired
  · simp [ofCount?, lacks]
  · have enough : ¬ (r.kind = k ∧ r.cardinality.isRequired ∧ count = 0) :=
      fun ⟨_, required, zero⟩ => lacks ⟨zero, required⟩
    simp only [ofCount?, if_neg lacks, enough, iff_false]
    split <;> simp

/-- What is missing is what some rule asks for and the block does not hold. -/
theorem missing_mem_ofBlock {k : Statement.Kind} : missing k ∈ ofBlock rules nonEmpty kinds ↔
    ∃ r ∈ rules, r.kind = k ∧ r.cardinality.isRequired ∧ r.kind ∉ kinds := by
  have block : missing k ∉ (if nonEmpty ∧ kinds = [] then [emptyBlock] else []) := by split <;> simp
  simp only [ofBlock_eq, List.mem_append, block, false_or, List.mem_filterMap, ofCount?_eq_missing,
    List.count_eq_zero]

end Violation

namespace Statement

theorem violations_eq (s : Statement) :
    s.violations = violationsOfAll s.children ++ s.ownViolations := by
  cases s
  rfl

theorem violationsOfAll_append (ss ts : List Statement) :
    violationsOfAll (ss ++ ts) = violationsOfAll ss ++ violationsOfAll ts := by
  induction ss with
  | nil => rfl
  | cons s ss ih => simp [violationsOfAll, ih]

theorem violationsOfAll_eq_flatMap (ss : List Statement) :
    violationsOfAll ss = ss.flatMap violations := by
  induction ss with
  | nil => rfl
  | cons s ss ih => simp [violationsOfAll, ih]

theorem violations_eq_nil (s : Statement) :
    s.violations = [] ↔ ∀ n ∈ s.preorder, n.ownViolations = [] := by
  induction s with
  | node s ih =>
    have children : violationsOfAll s.children = [] ↔
        ∀ n ∈ preorderAll s.children, n.ownViolations = [] := by
      simp only [violationsOfAll_eq_flatMap, preorderAll_eq_flatMap, List.flatMap_eq_nil_iff,
        List.mem_flatMap]
      constructor
      · rintro clean n ⟨c, member, inside⟩
        exact (ih c member).mp (clean c member) n inside
      · intro clean c member
        exact (ih c member).mpr fun n inside => clean n ⟨c, member, inside⟩
    rw [violations_eq, List.append_eq_nil_iff, children, preorder_eq,
      List.forall_mem_cons, and_comm]

theorem ownViolations_eq_nil {s : Statement} : s.ownViolations = [] ↔
    ((rule s.kind).ending = .nonEmptyBlock → s.children ≠ []) ∧
      ∀ r ∈ s.countingRules, r.cardinality.admits (s.kinds.count r.kind) := by
  simp [ownViolations, Violation.ofBlock_eq_nil, kinds]

theorem typeShape?_eq {s : Statement} (type : s.kind = .core .type) :
    typeShape? s = TypeShape.ofRestrictions? (TypeShape.restrictionsAmong s.kinds) := by
  have same : (s.children.filter (!·.isExtension)).map (·.kind) =
      TypeShape.restrictionsAmong s.kinds := by
    simp only [TypeShape.restrictionsAmong, kinds, List.filter_map]
    congr 1
    apply List.filter_congr
    simp [isExtension]
  rw [typeShape?, if_pos type, same]

theorem countingRules_of_perm {s : Statement} {others : List Statement}
    (perm : s.children.Perm others) :
    { s with children := others }.countingRules = s.countingRules := by
  by_cases type : s.kind = .core .type
  · have same : typeShape? { s with children := others } = typeShape? s := by
      rw [typeShape?_eq type, typeShape?_eq (s := { s with children := others }) type]
      exact (TypeShape.ofRestrictions?_restrictionsAmong_perm (perm.map (·.kind))).symm
    simp only [countingRules, same]
  · simp only [countingRules, type, if_false]

theorem ownViolations_of_perm {s : Statement} {others : List Statement}
    (perm : s.children.Perm others) :
    { s with children := others }.ownViolations = s.ownViolations := by
  rw [ownViolations, countingRules_of_perm perm, Violation.ofBlock_perm (perm.map (·.kind)).symm]
  rfl

/-- The rules that a statement's body is counted by; a type that holds no restrictions has none. -/
def bodyRules (s : Statement) : List Substatement :=
  if s.kind = .core .type then (typeShape? s).elim [] TypeShape.rules else
    (rule s.kind).substatements

/-- What is wrong with the counts of a statement's substatements: each rule that does not admit the
count of its kind says so, in the order of the rules. -/
def breaches (s : Statement) : List Violation :=
  (if (rule s.kind).ending = .nonEmptyBlock ∧ s.children = [] then [.emptyBlock] else []) ++
    s.bodyRules.filterMap fun r =>
      let count := s.kinds.count r.kind
      if r.cardinality.admits count then none
      else some (if count = 0 then .missing r.kind else .tooMany r.kind count)

theorem ownViolations_eq (s : Statement) :
    s.ownViolations = s.breaches.map (⟨s.kind, s.argument, ·, s.span⟩) := by
  have counted : s.countingRules.filterMap (fun r => Violation.ofCount? r (s.kinds.count r.kind)) =
      s.bodyRules.filterMap fun r => Violation.ofCount? r (s.kinds.count r.kind) := by
    unfold countingRules bodyRules
    split
    · cases typeShape? s with
      | none => simp [TypeShape.bodyRules, extensions, Violation.ofCount?_eq, Cardinality.admits]
      | some shape => rfl
    · rfl
  have empty : (rule s.kind).ending = .nonEmptyBlock ∧ s.children = [] ↔
      decide ((rule s.kind).ending = .nonEmptyBlock) ∧ s.kinds = [] := by
    simp [kinds]
  have reported : s.breaches = Violation.ofBlock s.bodyRules
    ((rule s.kind).ending = .nonEmptyBlock) s.kinds := by
    simp only [breaches, Violation.ofBlock_eq, Violation.ofCount?_eq, empty]
  rw [ownViolations, reported, Violation.ofBlock_eq, Violation.ofBlock_eq, ← counted]
  rfl

/-- A statement that can end with a semicolon breaks no count without substatements. -/
theorem ownViolations_of_ended {s : Statement} (allowed : (rule s.kind).ending.allowsSemicolon)
    (childless : s.children = []) : s.ownViolations = [] := by
  have dispensable : ∀ r ∈ s.countingRules, r.cardinality.isRequired = false := by
    unfold countingRules
    split
    · rename_i type
      have shapeless : typeShape? s = .none := by
        simp [typeShape?, childless, TypeShape.ofRestrictions?]
      rw [shapeless]
      decide
    · exact not_isRequired_of_allowsSemicolon allowed
  rw [ownViolations_eq_nil]
  refine ⟨?_, ?_⟩
  · intro nonEmpty
    simp [nonEmpty, Ending.allowsSemicolon] at allowed
  · intro r member
    rw [Cardinality.admits_iff, dispensable r member, kinds, childless]
    simp

theorem violations_of_ended {s : Statement} (allowed : (rule s.kind).ending.allowsSemicolon)
    (childless : s.children = []) : s.violations = [] := by
  rw [violations_eq, childless, ownViolations_of_ended allowed childless]
  rfl

end Statement

end Yang
