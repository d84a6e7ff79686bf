import Yang.Proofs.Parse.Completed
import Yang.Proofs.Parse.Halt

/-! A parse that the first wrong count is to end, compared with one that collects structural errors.
They are the same up to the first block with wrong counts; there the one ends, with what the other
finds first. -/
namespace Yang

open Parse

/-- The statements that are complete when the tokens end or one of them is at fault, in the order of
their completion. -/
def completedIn (entry : Entry) (strict : Bool) (tokens : TokenStream) : List Statement :=
  ((State.initial entry).readOn strict tokens.pending).completed

/-- The first statement to be completed of those whose own counts are wrong. -/
def firstBreach? (entry : Entry) (strict : Bool) (tokens : TokenStream) : Option Statement :=
  (completedIn entry strict tokens).find? (·.ownViolations ≠ [])

variable {entry : Entry} {strict : Bool} {tokens : TokenStream} {s : Statement}

namespace Parse

variable {σ : State} {found : Array StructuralError} {read : Nat} {p : Parse}

/-- A parse that collects structural errors stops at a fault or at the end, and has not read the
token there. -/
theorem Halt.collecting (halt : Halt ⟨strict, false⟩ found read σ tokens p) :
    p.advances = read ∧ σ.readOn strict tokens.pending = σ ∧
      Halt ⟨strict, true⟩ found read σ tokens p := by
  cases halt with
  | ended last =>
    rw [TokenStream.pending_of_isEnd last]
    exact ⟨rfl, rfl, .ended last⟩
  | failed more faulty =>
    rw [TokenStream.pending_eq_cons more]
    exact ⟨rfl, by simp only [State.readOn, faulty], .failed more faulty⟩
  | stopped fast closed wrong => contradiction

/-- A tree is returned if nothing has been found, and what is returned else is what has been found.
-/
theorem Halt.found_eq (halt : Halt ⟨strict, false⟩ found read σ tokens p) :
    (∀ s, p.result = .ok s → found = #[]) ∧
      ∀ es, p.result = .error (.structural es) → found.toList = es ∧ found ≠ #[] := by
  cases halt with
  | ended last =>
    unfold conclude
    split
    · simp
    · split <;> simp_all
  | failed more faulty => simp
  | stopped fast closed wrong => contradiction

/-- What a parse collects are the errors of the statements that have been completed. -/
theorem exists_collected (entry : Entry) (strict : Bool) (tokens : TokenStream) :
    ∃ τ es, (State.initial entry).Reads strict
        (tokens.taken (parseTokens entry ⟨strict, false⟩ tokens).advances) τ es ∧
      Halt ⟨strict, false⟩ es.toArray (parseTokens entry ⟨strict, false⟩ tokens).advances τ
        (tokens.skip (parseTokens entry ⟨strict, false⟩ tokens).advances)
        (parseTokens entry ⟨strict, false⟩ tokens) ∧
      (State.initial entry).readOn strict tokens.pending = τ ∧
      es = (completedIn entry strict tokens).flatMap Statement.ownViolations := by
  obtain ⟨n, τ, es, reads, _, halt⟩ := exists_halt_parseTokens entry ⟨strict, false⟩ tokens
  obtain ⟨advances, stays, _⟩ := halt.collecting
  have reached : (State.initial entry).readOn strict tokens.pending = τ := by
    rw [← TokenStream.taken_append_pending reads.isEnd, reads.readOn_append]
    exact stays
  rw [advances, completedIn, reached]
  exact ⟨τ, es, reads, halt, rfl, reads.errors_eq⟩

theorem firstBreach?_eq_none : firstBreach? entry strict tokens = none ↔
    (completedIn entry strict tokens).flatMap Statement.ownViolations = [] := by
  simp [firstBreach?, List.find?_eq_none]

/-- As long as no count is wrong, it makes no difference what the first wrong count would do. -/
theorem parseTokens_failFast_of_clean (clean : firstBreach? entry strict tokens = none) :
    parseTokens entry ⟨strict, true⟩ tokens = parseTokens entry ⟨strict, false⟩ tokens := by
  obtain ⟨τ, es, reads, halt, _, errors⟩ := exists_collected entry strict tokens
  have empty : es = [] := errors.trans (firstBreach?_eq_none.mp clean)
  exact parseTokens_of_halt reads (fun _ => empty) halt.collecting.2.2

theorem parseTokens_failFast_of_breach (breach : firstBreach? entry strict tokens = some s) :
    (parseTokens entry ⟨strict, true⟩ tokens).result = .error (.structural s.ownViolations) ∧
      (parseTokens entry ⟨strict, true⟩ tokens).advances ≤
        (parseTokens entry ⟨strict, false⟩ tokens).advances := by
  obtain ⟨τ, es, reads, _, reached, errors⟩ := exists_collected entry strict tokens
  have wrong : es ≠ [] := by
    rw [errors, ne_eq, ← firstBreach?_eq_none, breach]
    simp
  obtain ⟨before, t, later, υ, υ', fs, gs, split, first, closing, breaches, last⟩ :=
    reads.exists_first wrong
  have initial : (State.initial entry).Sound strict _ := State.sound_initial entry
  have sound := initial.reads first
  have closed := State.step_eq_ok_iff.mp closing
  obtain ⟨c, behind, rfl⟩ := (sound.completed_move closed).resolve_left fun same => breaches same.2
  obtain ⟨rest, whole, _⟩ := (sound.move closed).completed_reads last
  -- What was completed before breaks no count, so the search comes to the block that is closed
  -- here.
  have skipped : υ.completed.find? (·.ownViolations ≠ []) = none := by
    have earlier := List.flatMap_eq_nil_iff.mp first.errors_eq.symm
    exact List.find?_eq_none.mpr (by simpa using earlier)
  obtain rfl : c = s := by
    rw [firstBreach?, completedIn, reached, whole, behind, List.append_assoc, List.find?_append,
      skipped] at breach
    simpa [breaches] using breach
  obtain ⟨taken, next⟩ := TokenStream.taken_of_append_cons split
  have stopped : parseTokens entry ⟨strict, true⟩ tokens = _ :=
    parseTokens_of_halt (taken.symm ▸ first) (fun _ => rfl)
      (.stopped rfl (next.symm ▸ closing) breaches)
  rw [stopped]
  refine ⟨rfl, ?_⟩
  have length := congrArg List.length split
  rw [TokenStream.length_taken, List.length_append, List.length_cons] at length
  change before.length + 1 ≤ _
  omega

/-- A unit that is read to its end leaves its statements completed, in the order of a walk through
it. -/
theorem phase_readOn_of_runSyntax (parsed : runSyntax strict σ tokens = .ok s) :
    (σ.readOn strict tokens.pending).phase = .complete s := by
  fun_induction runSyntax strict σ tokens with
  | case1 σ tokens last fault ended => contradiction
  | case2 σ tokens last s' ended =>
    cases parsed
    rw [TokenStream.pending_of_isEnd last]
    exact State.ending_eq_ok.mp ended
  | case3 σ tokens more fault faulty => contradiction
  | case4 σ tokens more τ es stepped ih =>
    rw [TokenStream.pending_eq_cons (eq_false_of_ne_true more), State.readOn, stepped]
    exact ih parsed

theorem completedIn_of_parseSyntax (parsed : parseSyntax entry strict tokens = .ok s) :
    completedIn entry strict tokens = s.postorder := by
  obtain ⟨⟨enclosing, phase⟩, es, reads, _, reached, _⟩ := exists_collected entry strict tokens
  have complete := phase_readOn_of_runSyntax parsed
  have initial : (State.initial entry).Sound strict _ := State.sound_initial entry
  have sound := initial.reads reads
  rw [reached] at complete
  obtain rfl : phase = .complete s := complete
  obtain rfl : enclosing = [] := sound.1
  rw [completedIn, reached]
  rfl

theorem prefix_of_firstBreach? (breach : firstBreach? entry strict tokens = some s) :
    s.ownViolations ≠ [] ∧
      s.ownViolations <+: (completedIn entry strict tokens).flatMap Statement.ownViolations := by
  obtain ⟨wrong, before, later, split, clean⟩ := List.find?_eq_some_iff_append.mp breach
  have earlier : before.flatMap Statement.ownViolations = [] := by
    rw [List.flatMap_eq_nil_iff]
    simpa using clean
  rw [split, List.flatMap_append, earlier, List.flatMap_cons]
  exact ⟨by simpa using wrong, List.prefix_append _ _⟩

end Parse

/-- A parse that the first wrong count is to end returns what one that collects structural errors
returns, unless that one completes a statement whose own counts are wrong; then it returns the
errors of the first such statement, which are those that the other one found first. It never reads
more tokens. -/
theorem parseTokens_failFast (entry : Entry) (strict : Bool) (tokens : TokenStream) :
    (match (parseTokens entry ⟨strict, false⟩ tokens).result with
      | .ok s => (parseTokens entry ⟨strict, true⟩ tokens).result = .ok s
      | .error (.structural es) => ∃ b, firstBreach? entry strict tokens = some b ∧
          (parseTokens entry ⟨strict, true⟩ tokens).result = .error (.structural b.ownViolations) ∧
          b.ownViolations ≠ [] ∧ b.ownViolations <+: es ∧
          ∀ v ∈ b.ownViolations, v.parent = b.kind ∧ v.parentArgument = b.argument ∧ v.span = b.span
      | .error (.syntactic e) => (parseTokens entry ⟨strict, true⟩ tokens).result =
          match firstBreach? entry strict tokens with
          | none => .error (.syntactic e)
          | some b => .error (.structural b.ownViolations)) ∧
      (parseTokens entry ⟨strict, true⟩ tokens).advances ≤
        (parseTokens entry ⟨strict, false⟩ tokens).advances ∧
      ∀ s, parseSyntax entry strict tokens = .ok s → completedIn entry strict tokens =
        s.postorder := by
  obtain ⟨τ, es, _, halt, _, errors⟩ := exists_collected entry strict tokens
  obtain ⟨ok, structural⟩ := halt.found_eq
  refine ⟨?_, ?_, fun s => completedIn_of_parseSyntax⟩
  · cases result : (parseTokens entry ⟨strict, false⟩ tokens).result with
    | ok s =>
      have clean : firstBreach? entry strict tokens = none := by
        rw [firstBreach?_eq_none, ← errors]
        simpa using ok s result
      rw [parseTokens_failFast_of_clean clean]
      exact result
    | error e =>
      cases e with
      | syntactic e =>
        cases breach : firstBreach? entry strict tokens with
        | none =>
          rw [parseTokens_failFast_of_clean breach]
          exact result
        | some b => exact (parseTokens_failFast_of_breach breach).1
      | structural fs =>
        obtain ⟨same, wrong⟩ := structural fs result
        obtain ⟨b, breach⟩ : ∃ b, firstBreach? entry strict tokens = some b := by
          rw [← Option.ne_none_iff_exists', ne_eq, firstBreach?_eq_none, ← errors]
          simpa using wrong
        obtain ⟨own, begins⟩ := prefix_of_firstBreach? breach
        have collected : (completedIn entry strict tokens).flatMap Statement.ownViolations = fs :=
          errors.symm.trans same
        refine ⟨b, breach, (parseTokens_failFast_of_breach breach).1, own, collected ▸ begins, ?_⟩
        intro v member
        obtain ⟨_, _, rfl⟩ := List.mem_map.mp member
        exact ⟨rfl, rfl, rfl⟩
  · cases breach : firstBreach? entry strict tokens with
    | none => exact Nat.le_of_eq (congrArg Parse.advances (parseTokens_failFast_of_clean breach))
    | some b => exact (parseTokens_failFast_of_breach breach).2

end Yang
