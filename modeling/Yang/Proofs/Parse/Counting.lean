import Yang.Proofs.Parse.Invariant

/-! Counting while reading and counting afterwards. The structural errors that a parse has found at
any time are those of the statements it has completed, in the order of a walk that leaves each
statement behind its substatements. So a parse that collects them reports what a parse without
counts and a check of its tree would. -/
namespace Yang.Parse

open Grammar

variable {strict : Bool} {root : Statement.Kind → Prop} {enclosing : List Block} {phase : Phase}
  {b : Block} {s : Statement} {t : Token} {σ τ : State} {ts : List Token}
  {es : List StructuralError}

namespace Block

def inner (b : Block) : List StructuralError := Statement.violationsOfAll b.children.toList

/-- The rules a block is counted by are those of the statement it becomes. -/
theorem Ready.countingRules_statement (ready : b.Ready strict) (close : Token) :
    (b.statement close).countingRules = b.countingRules := by
  have suits := ready.suits
  cases progress : b.progress with
  | restrictions shape =>
    rw [progress] at suits
    have type : b.kind = .core .type := suits
    rw [Ready, type, Progress.afterAll?_type, progress, Progress.restrictions.injEq] at ready
    rw [Statement.countingRules, if_pos (show (b.statement close).kind = _ from type),
      Statement.typeShape?_eq (s := b.statement close) type, countingRules, progress]
    exact congrArg TypeShape.bodyRules ready.2
  | plain =>
    rw [progress] at suits
    rw [Statement.countingRules, if_neg (show (b.statement close).kind ≠ _ from suits.2),
      countingRules, progress]
    rfl
  | unit present highest =>
    rw [progress] at suits
    have other : (b.statement close).kind ≠ .core .type := (Statement.Kind.ne_of_isUnit suits).1
    rw [Statement.countingRules, if_neg other, countingRules, progress]
    rfl

theorem Ready.violations_eq (ready : b.Ready strict) (close : Token) :
    b.violations close = (b.statement close).ownViolations := by
  rw [Statement.ownViolations, ready.countingRules_statement close]
  rfl

end Block

/-- What breaks the counts inside open blocks, the outermost first. -/
def innerOfAll (enclosing : List Block) : List StructuralError :=
  enclosing.reverse.flatMap Block.inner

theorem innerOfAll_cons (b : Block) (outer : List Block) :
    innerOfAll (b :: outer) = innerOfAll outer ++ b.inner := by
  simp [innerOfAll]

namespace State

/-- What breaks the counts of the statements that are complete. -/
def violations (σ : State) : List StructuralError :=
  innerOfAll σ.enclosing ++
    match σ.phase with
    | .content b => b.inner
    | .complete s => s.violations
    | _ => []

theorem violations_complete (enclosing : List Block) (s : Statement) :
    (complete enclosing s).violations = innerOfAll enclosing ++ s.violations := by
  cases enclosing with
  | nil => rfl
  | cons b outer =>
    rw [innerOfAll_cons, List.append_assoc]
    simp [complete, violations, Block.inner, Block.push, Statement.violationsOfAll_append,
      Statement.violationsOfAll]

theorem violations_of_named {k : Statement.Kind} {keyword : Token} {argument : Option String}
    (named : Named phase k keyword argument) :
    (⟨enclosing, phase⟩ : State).violations = innerOfAll enclosing := by
  cases named <;> exact List.append_nil _

/-- A token adds what the block that it closes reports. -/
theorem Sound.violations_move (sound : σ.Sound strict root) (move : Move strict σ t τ es) :
    τ.violations = σ.violations ++ es := by
  cases move with
  | unit word accepted => simp [violations]
  | argument takes begins => simp [violations]
  | plus join => simp [violations]
  | piece joined => simp [violations]
  | ended named semicolon allowed =>
    rw [violations_complete, violations_of_named named, Statement.violations_of_ended allowed rfl]
  | opened named brace =>
    rw [violations_of_named named]
    simp [violations, Block.inner, Block.opened, Statement.violationsOfAll]
  | closed brace =>
    rw [violations_complete, Statement.violations_eq, sound.2.1.violations_eq, ← List.append_assoc]
    rfl
  | begun inside received =>
    simp only [violations, innerOfAll_cons, List.append_nil]
    rfl

theorem Sound.violations_reads (sound : σ.Sound strict root) (reads : σ.Reads strict ts τ es) :
    τ.violations = σ.violations ++ es := by
  induction reads with
  | none => simp
  | next stepped later ih =>
    have move := step_eq_ok_iff.mp stepped
    rw [ih (sound.move move), sound.violations_move move, List.append_assoc]

end State

/-- Reads on from a state and counts nothing: only a syntax error ends it early. -/
def runSyntax (strict : Bool) (σ : State) (tokens : TokenStream) : Except SyntaxError Statement :=
  if _ : tokens.next.isEnd then
    match σ.ending with
    | .error fault => .error (fault.toError tokens.next)
    | .ok s => .ok s
  else
    match σ.step strict tokens.next with
    | .error fault => .error (fault.toError tokens.next)
    | .ok (σ, _) => runSyntax strict σ tokens.advance
termination_by tokens.pending.length
decreasing_by simp_all [TokenStream.pending_eq_cons]

/-- The result of a parse whose tree is counted once it is complete. -/
def counted : Except SyntaxError Statement → Except ParseError Statement
  | .error e => .error (.syntactic e)
  | .ok s => if s.violations = [] then .ok s else .error (.structural s.violations)

section Run

variable {options : Options} {found : Array StructuralError} {read : Nat} {tokens : TokenStream}

theorem run_result_eq_counted (collecting : options.failFast = false)
    (sound : σ.Sound options.strictHeaderOrder root) (sofar : found.toList = σ.violations) :
    (run options σ found read tokens).result =
      counted (runSyntax options.strictHeaderOrder σ tokens) := by
  -- What has been found is what the complete statements break; every step adds to both alike.
  fun_induction run options σ found read tokens with
  | case1 σ found read tokens ended =>
    rw [runSyntax, dif_pos ended]
    cases ending : σ.ending with
    | error fault => simp [conclude, ending, counted]
    | ok s =>
      obtain ⟨enclosing, phase⟩ := σ
      obtain rfl : phase = .complete s := State.ending_eq_ok.mp ending
      obtain rfl : enclosing = [] := sound.1
      have same : found.toList = s.violations := sofar
      simp only [conclude, ending, counted, ← same, Array.toList_eq_nil_iff, Array.isEmpty_iff]
  | case2 σ found read tokens more fault failed =>
    rw [runSyntax, dif_neg more, failed]
    rfl
  | case3 σ found read tokens more τ violations stepped stopped =>
    simp [collecting] at stopped
  | case4 σ found read tokens more τ violations stepped continued ih =>
    have move := State.step_eq_ok_iff.mp stepped
    rw [runSyntax, dif_neg more, stepped]
    apply ih (sound.move move)
    rw [Array.toList_appendList, sofar, sound.violations_move move]

end Run

end Yang.Parse

namespace Yang

def parseSyntax (entry : Entry) (strict : Bool) (tokens : TokenStream) :
    Except SyntaxError Statement :=
  Parse.runSyntax strict (.initial entry) tokens

/-- A parse that collects structural errors reports a syntax error whatever it has collected before,
and otherwise what a walk through the tree finds: behind the errors of the substatements, those of
the statement itself. -/
theorem parseTokens_collecting (entry : Entry) (strict : Bool) (tokens : TokenStream) :
    (parseTokens entry ⟨strict, false⟩ tokens).result =
        (match parseSyntax entry strict tokens with
        | .error e => .error (.syntactic e)
        | .ok s => if s.violations = [] then .ok s else .error (.structural s.violations)) ∧
      ∀ s : Statement, s.violations =
        s.children.flatMap (·.violations) ++ s.breaches.map (⟨s.kind, s.argument, ·, s.span⟩) := by
  constructor
  · have collected : (Parse.run ⟨strict, false⟩ (.initial entry) #[] 0 tokens).result =
        Parse.counted (Parse.runSyntax strict (.initial entry) tokens) :=
      Parse.run_result_eq_counted rfl (Parse.State.sound_initial entry) rfl
    rw [parseTokens, collected]
    unfold Parse.counted parseSyntax
    rfl
  · intro s
    rw [Statement.violations_eq, Statement.violationsOfAll_eq_flatMap, Statement.ownViolations_eq]

end Yang
