import Yang.Proofs.Parse.Counting

/-! The statements that are complete while a unit is read, in the order in which they were
completed. The one that a token completes is behind all the others, and the structural errors that
come to light with it are those of its own counts. -/
namespace Yang.Parse

variable {strict : Bool} {root : Statement.Kind → Prop} {enclosing : List Block} {phase : Phase}
  {k : Statement.Kind} {keyword t : Token} {argument : Option String} {s : Statement} {σ τ : State}
  {ts : List Token} {es : List StructuralError}

def Block.completed (b : Block) : List Statement := Statement.postorderAll b.children.toList

/-- The complete statements inside open blocks. -/
def completedInAll (enclosing : List Block) : List Statement :=
  enclosing.reverse.flatMap Block.completed

theorem completedInAll_cons (b : Block) (outer : List Block) :
    completedInAll (b :: outer) = completedInAll outer ++ b.completed := by
  simp [completedInAll]

namespace State

def completed (σ : State) : List Statement :=
  completedInAll σ.enclosing ++
    match σ.phase with
    | .content b => b.completed
    | .complete s => s.postorder
    | _ => []

theorem completed_complete (enclosing : List Block) (s : Statement) :
    (complete enclosing s).completed = completedInAll enclosing ++ s.postorder := by
  cases enclosing with
  | nil => rfl
  | cons b outer =>
    rw [completedInAll_cons, List.append_assoc]
    simp [complete, completed, Block.completed, Block.push, Statement.postorderAll_eq_flatMap]

theorem completed_of_named (named : Named phase k keyword argument) :
    (⟨enclosing, phase⟩ : State).completed = completedInAll enclosing := by
  cases named <;> exact List.append_nil _

theorem completed_ended (named : Named phase k keyword argument) (childless : s.children = []) :
    (complete enclosing s).completed = (⟨enclosing, phase⟩ : State).completed ++ [s] := by
  rw [completed_complete, completed_of_named named, Statement.postorder_eq, childless]
  rfl

/-- The statement of a block is completed behind its substatements, which are complete before. -/
theorem completed_closed (enclosing : List Block) (b : Block) (t : Token) :
    (complete enclosing (b.statement t)).completed =
      (⟨enclosing, .content b⟩ : State).completed ++ [b.statement t] := by
  rw [completed_complete, Statement.postorder_eq, ← List.append_assoc]
  rfl

/-- A token completes one statement or none, and brings to light what is wrong with the counts of
that one. -/
theorem Sound.completed_move (sound : σ.Sound strict root) (move : Move strict σ t τ es) :
    τ.completed = σ.completed ∧ es = [] ∨ ∃ s, τ.completed = σ.completed ++ [s] ∧
      es = s.ownViolations := by
  cases move with
  | unit word accepted => exact .inl ⟨rfl, rfl⟩
  | argument takes begins => exact .inl ⟨rfl, rfl⟩
  | plus join => exact .inl ⟨rfl, rfl⟩
  | piece joined => exact .inl ⟨rfl, rfl⟩
  | ended named semicolon allowed =>
    exact .inr ⟨_, completed_ended named rfl, (Statement.ownViolations_of_ended allowed rfl).symm⟩
  | opened named brace =>
    refine .inl ⟨?_, rfl⟩
    rw [completed_of_named named]
    exact List.append_nil _
  | closed brace => exact .inr ⟨_, completed_closed _ _ _, sound.2.1.violations_eq _⟩
  | begun inside received =>
    refine .inl ⟨?_, rfl⟩
    simp only [completed, completedInAll_cons, List.append_nil]
    rfl

/-- Reading completes statements one after another, and finds what is wrong with the counts of each.
-/
theorem Sound.completed_reads (sound : σ.Sound strict root) (reads : σ.Reads strict ts τ es) :
    ∃ new, τ.completed = σ.completed ++ new ∧ es = new.flatMap Statement.ownViolations := by
  induction reads with
  | none => exact ⟨[], (List.append_nil _).symm, rfl⟩
  | next stepped later ih =>
    have move := step_eq_ok_iff.mp stepped
    obtain ⟨new, behind, rfl⟩ := ih (sound.move move)
    rcases sound.completed_move move with ⟨same, rfl⟩ | ⟨s, first, rfl⟩
    · exact ⟨new, same ▸ behind, rfl⟩
    · exact ⟨s :: new, by rw [behind, first, List.append_assoc]; rfl, rfl⟩

/-- What has been found wrong since the start is what is wrong with the statements that are
complete. -/
theorem Reads.errors_eq {entry : Entry} (reads : (initial entry).Reads strict ts τ es) :
    es = τ.completed.flatMap Statement.ownViolations := by
  have sound : (initial entry).Sound strict _ := sound_initial entry
  obtain ⟨new, rfl, errors⟩ := sound.completed_reads reads
  exact errors

end State
end Yang.Parse
