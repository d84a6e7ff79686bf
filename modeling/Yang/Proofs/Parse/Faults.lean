import Yang.Parse.State

/-! Which faults the steps of the parser come to: that the input ends is no fault of a token, and
that an argument names no form of `deviate` is one only where that argument is complete. -/
namespace Yang.Parse

open Grammar

variable {strict : Bool} {enclosing : List Block} {h : Head} {k : Statement.Kind}
  {keyword t : Token} {argument : Option String} {b : Block} {fault : Fault} {σ : State}
  {first : Span} {value : String}

/-- What a block refuses is not permitted in it, or out of order, or in conflict with a restriction.
-/
theorem Block.code_of_receive (refused : b.receive strict t = .error fault) :
    fault.code = .notPermitted ∨ fault.code = .outOfOrder ∨ fault.code = .restrictionsConflict := by
  unfold receive at refused
  split at refused
  · split at refused
    · contradiction
    · cases refused
      exact .inl rfl
  · unfold receiveRestriction at refused
    repeat' split at refused
    all_goals cases refused
    all_goals simp [Fault.code]
  · unfold receiveInUnit receiveHeader at refused
    repeat' split at refused
    all_goals cases refused
    all_goals simp [Fault.code]

namespace State

theorem code_of_terminate (faulty : terminate enclosing k keyword argument t = .error fault) :
    fault.code = .blockMissing ∨ fault.code = .terminatorMissing := by
  unfold terminate at faulty
  repeat' split at faulty
  all_goals cases faulty
  all_goals simp [Fault.code]

theorem code_of_readHead (faulty : readHead enclosing h t = .error fault) :
    fault.code = .argumentMissing ∨ fault.code = .blockMissing ∨
      fault.code = .terminatorMissing := by
  unfold readHead at faulty
  repeat' split at faulty
  all_goals first
    | exact .inr (code_of_terminate faulty)
    | cases faulty
  all_goals exact .inl rfl

/-- The argument that has been read selects no form of `deviate`, and that is the fault. -/
def NamesNoForm (σ : State) (fault : Fault) : Prop :=
  ∃ h first value, σ.phase = .piece h first value ∧ h.starter.resolve? value = none ∧
    fault = .deviateArgument value first

theorem namesNoForm_of_resolve (phase : σ.phase = .piece h first value)
    (unresolved : resolve h first value = .error fault) : σ.NamesNoForm fault := by
  unfold resolve at unresolved
  split at unresolved
  · contradiction
  · exact ⟨h, first, value, phase, ‹_›, (Except.error.inj unresolved).symm⟩

/-- A token is at fault because an open block does not take it, because the argument in front of it
names no form of `deviate`, or because something else is missing. -/
theorem fault_of_step (faulty : σ.step strict t = .error fault) :
    (∃ enclosing b, σ = ⟨enclosing, .content b⟩ ∧ b.receive strict t = .error fault) ∨
      σ.NamesNoForm fault ∧ t.kind ≠ .plus ∨
      fault.code ∈ [.unitMissing, .inputContinues, .argumentMissing, .pieceMissing, .blockMissing,
        .terminatorMissing] := by
  obtain ⟨enclosing, phase⟩ := σ
  cases phase with
  | start entry =>
    simp only [step] at faulty
    repeat' split at faulty
    all_goals cases faulty
    all_goals simp [Fault.code]
  | head h =>
    simp only [step] at faulty
    cases read : readHead enclosing h t with
    | error fault =>
      rw [read] at faulty
      cases faulty
      rcases code_of_readHead read with code | code | code <;> simp [code]
    | ok next =>
      rw [read] at faulty
      contradiction
  | piece h first value =>
    simp only [step] at faulty
    split at faulty
    · contradiction
    · rename_i last
      cases resolved : resolve h first value with
      | error fault =>
        rw [resolved] at faulty
        cases faulty
        exact .inr (.inl
          ⟨namesNoForm_of_resolve (σ := ⟨enclosing, .piece h first value⟩) rfl resolved,
            last⟩)
      | ok k =>
        cases ended : terminate enclosing k h.keyword (some value) t with
        | error fault =>
          rw [resolved] at faulty
          simp only [ended] at faulty
          cases faulty
          rcases code_of_terminate ended with code | code <;> simp [code]
        | ok next =>
          rw [resolved] at faulty
          simp only [ended] at faulty
          contradiction
  | joining h first value =>
    simp only [step] at faulty
    split at faulty
    · contradiction
    · cases faulty
      simp [Fault.code]
  | content b =>
    simp only [step] at faulty
    split at faulty
    · contradiction
    · cases received : b.receive strict t with
      | error fault =>
        rw [received] at faulty
        cases faulty
        exact .inl ⟨enclosing, b, rfl, received⟩
      | ok begun =>
        rw [received] at faulty
        contradiction
  | complete s =>
    cases faulty
    simp [Fault.code]

theorem NamesNoForm.code (noForm : σ.NamesNoForm fault) : fault.code = .deviateArgument := by
  obtain ⟨_, _, _, _, _, rfl⟩ := noForm
  rfl

/-- No token makes the input end, and only one behind an argument can make that argument a fault. -/
theorem code_of_step (faulty : σ.step strict t = .error fault) :
    fault.code ≠ .inputEnds ∧
      (fault.code = .deviateArgument → σ.NamesNoForm fault ∧ t.kind ≠ .plus) := by
  rcases fault_of_step faulty with ⟨_, _, _, refused⟩ | ⟨noForm, last⟩ | missing
  · rcases Block.code_of_receive refused with code | code | code <;> simp [code]
  · exact ⟨by simp [noForm.code], fun _ => ⟨noForm, last⟩⟩
  · simp only [List.mem_cons, List.not_mem_nil, or_false] at missing
    rcases missing with code | code | code | code | code | code <;> simp [code]

theorem namesNoForm_of_ending (faulty : σ.ending = .error fault)
    (code : fault.code = .deviateArgument) :
    σ.NamesNoForm fault := by
  obtain ⟨enclosing, phase⟩ := σ
  cases phase with
  | piece h first value =>
    simp only [ending] at faulty
    cases resolved : resolve h first value with
    | error fault =>
      rw [resolved] at faulty
      cases faulty
      exact namesNoForm_of_resolve rfl resolved
    | ok k =>
      rw [resolved] at faulty
      cases faulty
      contradiction
  | _ =>
    simp only [ending] at faulty
    repeat' split at faulty
    all_goals cases faulty
    all_goals contradiction

end State

end Yang.Parse
