import Yang.Proofs.Statement.Tour

/-! The descendants of a statement, one call of the cursor at a time. The cursor shows the recursive
order, and this is the order in which a walk enters statements if its visitor always descends. -/
namespace Yang.Statement

namespace Descendants

/-- The cursor behind some calls. At the end a call leaves it as it is. -/
def after (d : Descendants) : Nat → Descendants
  | 0 => d
  | n + 1 =>
    match d.next? with
    | none => d
    | some (_, rest) => rest.after n

/-- What the cursor shows behind some calls. -/
def shown? (d : Descendants) (n : Nat) : Option Statement := (d.after n).next?.map (·.1)

theorem shown?_eq (d : Descendants) (n : Nat) : d.shown? n = d.toList[n]? := by
  induction n generalizing d with
  | zero =>
    obtain ⟨_ | ⟨s, rest⟩⟩ := d
    · rw [toList_eq]
      rfl
    · simp [toList_eq, shown?, after, next?, preorderAll, preorder_eq]
  | succ n ih =>
    obtain ⟨_ | ⟨s, rest⟩⟩ := d
    · rw [toList_eq]
      rfl
    · have later : shown? ⟨s :: rest⟩ (n + 1) = shown? ⟨s.children ++ rest⟩ n := rfl
      rw [later, ih, toList_eq, toList_eq, preorderAll_append, preorderAll, preorder_eq,
        List.cons_append, List.getElem?_cons_succ]

end Descendants

/-- The cursor shows the descendants of a statement in the recursive order, which has those that the
paths into the tree lead to, each once and in the order of the text, and it ends when it has shown
them all. A walk whose visitor always descends enters the statement and then the same descendants in
the same order, and it leaves all of them in the other recursive order. -/
theorem descendants_eq_entered {σ : Type} (s : Statement) (v : Visitor σ) (state : σ)
    (descends : ∀ n state, (v.enter n state).1 = .descend) :
    (∀ n, (Descendants.below s).shown? n = s.descendants[n]?) ∧
    (∀ n, (Descendants.below s).shown? n = none ↔ s.pathsBelow.length ≤ n) ∧
    s.descendants = preorderAll s.children ∧
    s.descendants.map some = s.pathsBelow.map s.at? ∧
    (∀ p, p ∈ s.pathsBelow ↔ p ≠ [] ∧ (s.at? p).isSome) ∧
    s.pathsBelow.Pairwise (· < ·) ∧
    (calls v s state).filterMap Call.entered? = s :: s.descendants ∧
    (calls v s state).filterMap Call.left? = s.postorder := by
  have shown (n : Nat) : (Descendants.below s).shown? n = s.descendants[n]? :=
    Descendants.shown?_eq _ n
  have many : s.pathsBelow.length = s.descendants.length := by
    simpa using congrArg List.length (map_pathsBelow s)
  have ordered := s.paths_pairwise
  rw [paths_eq, List.pairwise_cons] at ordered
  obtain ⟨cs, tour, logged⟩ := exists_tour v s state
  obtain ⟨entered, left⟩ := tour.orders descends
  refine ⟨shown, ?_, s.descendants_eq, (map_pathsBelow s).symm, fun p => mem_pathsBelow,
    ordered.2, ?_, ?_⟩
  · intro n
    rw [shown, many, List.getElem?_eq_none_iff]
  · rw [← logged, entered, s.descendants_eq]
    simp [preorderAll, preorder_eq]
  · rw [← logged, left]
    simp [postorderAll]

namespace Sample

/-- Two leaves that are the same but for where they stand. -/
def twins : Statement :=
  let type : Statement := ⟨.core .type, "type", some "string", [], .empty .origin⟩
  let leaf : Statement := ⟨.core .leaf, "leaf", some "l", [type], .empty .origin⟩
  ⟨.core .container, "container", some "c", [leaf, leaf], .empty .origin⟩

/-- Counts the statements entered and the statements left. -/
def tally : Visitor (Nat × Nat) where
  enter _ counts := (.descend, counts.1 + 1, counts.2)
  leave _ counts := (counts.1, counts.2 + 1)

end Sample

theorem descendants_eq_entered_sample : (∀ n counts, (Sample.tally.enter n counts).1 = .descend) ∧
    Sample.twins.descendants.map (·.keyword) = ["leaf", "type", "leaf", "type"] ∧
    Sample.twins.pathsBelow = [[0], [0, 0], [1], [1, 0]] ∧
    ((Descendants.below Sample.twins).shown? 3).isSome ∧
      (Descendants.below Sample.twins).shown? 4 = none ∧
    (calls Sample.tally Sample.twins (0, 0)).filterMap Call.entered? =
      Sample.twins :: Sample.twins.descendants ∧
    ((calls Sample.tally Sample.twins (0, 0)).filterMap Call.left?).map (·.keyword) =
      ["type", "leaf", "type", "leaf", "container"] := by
  have descends : ∀ n counts, (Sample.tally.enter n counts).1 = .descend := fun _ _ => rfl
  obtain ⟨shown, ends, recursive, _, _, _, entered, left⟩ :=
    descendants_eq_entered Sample.twins Sample.tally (0, 0) descends
  refine ⟨descends, ?_, rfl, ?_, ?_, entered, ?_⟩
  · rw [recursive]
    rfl
  · rw [shown, recursive]
    rfl
  · rw [ends]
    decide
  · rw [left]
    rfl

end Yang.Statement
