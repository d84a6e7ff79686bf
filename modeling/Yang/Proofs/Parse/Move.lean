import Yang.Parse.State

/-! What a token can do to the parser. Each move is what one kind of token does in one phase, with
the conditions under which it does that; the parser's step is nothing but these moves. -/
namespace Yang.Parse

open Grammar

/-- A phase in which only the terminator or the block of a statement is to be read: its kind,
keyword and argument are known. -/
inductive Named : Phase → Statement.Kind → Token → Option String → Prop where
  | bare (dispensable : (rule k).argument ≠ .required) :
    Named (.head ⟨.kind k, keyword⟩) k keyword none
  | argued (resolved : h.starter.resolve? value = some k) :
    Named (.piece h first value) k h.keyword (some value)

/-- Whether an argument can stand behind the keyword. -/
def Head.TakesArgument (h : Head) : Prop := ∀ k, h.starter = .kind k → (rule k).argument ≠ .none

inductive Move (strict : Bool) : State → Token → State → List StructuralError → Prop where
  | unit (word : t.kind = .keyword k) (accepted : k ∈ entry.accepted) :
    Move strict ⟨enclosing, .start entry⟩ t ⟨enclosing, .head ⟨.kind (.core k), t⟩⟩ []
  | argument (takes : h.TakesArgument) (begins : t.kind.isArgument) :
    Move strict ⟨enclosing, .head h⟩ t ⟨enclosing, .piece h t.span t.text⟩ []
  | plus (join : t.kind = .plus) :
    Move strict ⟨enclosing, .piece h first value⟩ t ⟨enclosing, .joining h first value⟩ []
  | piece (joined : t.kind = .string) :
    Move strict ⟨enclosing, .joining h first value⟩ t
      ⟨enclosing, .piece h first (value ++ t.text)⟩ []
  | ended (named : Named phase k keyword argument) (semicolon : t.kind = .semicolon)
      (allowed : (rule k).ending.allowsSemicolon) :
    Move strict ⟨enclosing, phase⟩ t
      (State.complete enclosing ⟨k, keyword.text, argument, [], keyword.span.cover t.span⟩) []
  | opened (named : Named phase k keyword argument) (brace : t.kind = .leftBrace) :
    Move strict ⟨enclosing, phase⟩ t ⟨enclosing, .content (.opened k keyword argument)⟩ []
  | closed (brace : t.kind = .rightBrace) :
    Move strict ⟨enclosing, .content b⟩ t (State.complete enclosing (b.statement t))
      (b.violations t)
  | begun (inside : t.kind ≠ .rightBrace)
    (received : b.receive strict t = .ok (starter, progress)) :
    Move strict ⟨enclosing, .content b⟩ t ⟨{ b with progress } :: enclosing, .head ⟨starter, t⟩⟩ []

/-- Nothing but keywords and identifiers starts a statement in a block. -/
theorem Block.startsStatement_of_receive {strict : Bool} {b : Block} {t : Token}
    {begun : Starter × Progress} (received : b.receive strict t = .ok begun) :
    t.kind.startsStatement := by
  cases starts : t.kind.startsStatement with
  | true => rfl
  | false =>
    obtain ⟨alone, deviate⟩ : t.kind.statementKind? = none ∧ t.kind ≠ .deviate := by
      cases kind : t.kind <;>
        simp_all [Token.Kind.startsStatement, Token.Kind.isKeyword, Token.Kind.statementKind?]
    have inside : Starter.inside? b.kind t.kind = none := by
      simp [Starter.inside?, Starter.ofRules?, alone, deviate, starts]
    cases progress : b.progress <;>
      simp [receive, receiveRestriction, receiveInUnit, progress, alone, inside] at received

/-- Neither the end of the input nor what is no token moves the parser. -/
theorem Move.kind_ne {strict : Bool} {σ τ : State} {t : Token} {es : List StructuralError}
    (move : Move strict σ t τ es) : t.kind ≠ .endOfInput ∧ t.kind ≠ .invalid := by
  cases move with
  | unit word accepted => simp [word]
  | argument takes begins =>
    constructor <;> (intro same; simp [same, Token.Kind.isArgument] at begins)
  | plus join => simp [join]
  | piece joined => simp [joined]
  | ended named semicolon allowed => simp [semicolon]
  | opened named brace => simp [brace]
  | closed brace => simp [brace]
  | begun inside received =>
    have starts := Block.startsStatement_of_receive received
    constructor <;>
      (intro same; simp [same, Token.Kind.startsStatement, Token.Kind.isKeyword] at starts)

namespace State

variable {strict : Bool} {enclosing : List Block} {phase : Phase} {h : Head} {k : Statement.Kind}
  {keyword t : Token} {argument : Option String} {σ τ : State} {es : List StructuralError}

theorem terminate_eq_ok : terminate enclosing k keyword argument t = .ok τ ↔
    t.kind = .semicolon ∧ (rule k).ending.allowsSemicolon ∧
        complete enclosing ⟨k, keyword.text, argument, [], keyword.span.cover t.span⟩ = τ ∨
      t.kind = .leftBrace ∧ ⟨enclosing, .content (.opened k keyword argument)⟩ = τ := by
  unfold terminate
  split
  · rename_i semicolon
    split <;> simp_all
  · rename_i brace
    simp [brace]
  · simp_all

theorem move_of_terminate (named : Named phase k keyword argument)
    (ended : terminate enclosing k keyword argument t = .ok τ) :
    Move strict ⟨enclosing, phase⟩ t τ [] := by
  rcases terminate_eq_ok.mp ended with ⟨semicolon, allowed, rfl⟩ | ⟨brace, rfl⟩
  · exact .ended named semicolon allowed
  · exact .opened named brace

theorem move_of_readHead (read : readHead enclosing h t = .ok τ) :
    Move strict ⟨enclosing, .head h⟩ t τ [] := by
  obtain ⟨starter, keyword⟩ := h
  have taken (takes : Head.TakesArgument ⟨starter, keyword⟩) (fault : Fault)
      (read : (if t.kind.isArgument then .ok ⟨enclosing, .piece ⟨starter, keyword⟩ t.span t.text⟩
        else .error fault : Except Fault State) = .ok τ) :
      Move strict ⟨enclosing, .head ⟨starter, keyword⟩⟩ t τ [] := by
    split at read
    · rename_i begins
      cases read
      exact .argument takes begins
    · contradiction
  cases starter with
  | deviate =>
    have takes : Head.TakesArgument ⟨.deviate, keyword⟩ := by
      intro k same
      contradiction
    exact taken takes _ read
  | kind k =>
    have takes (needed : (rule k).argument ≠ .none) : Head.TakesArgument ⟨.kind k, keyword⟩ := by
      rintro _ ⟨⟩
      exact needed
    simp only [readHead] at read
    cases use : (rule k).argument with
    | required =>
      simp only [use] at read
      exact taken (takes (by simp [use])) _ read
    | optional =>
      simp only [use] at read
      split at read
      · rename_i begins
        cases read
        exact .argument (takes (by simp [use])) begins
      · exact move_of_terminate (.bare (by simp [use])) read
    | none =>
      simp only [use] at read
      exact move_of_terminate (.bare (by simp [use])) read

theorem move_of_step (stepped : σ.step strict t = .ok (τ, es)) : Move strict σ t τ es := by
  obtain ⟨enclosing, phase⟩ := σ
  cases phase with
  | start entry =>
    simp only [step] at stepped
    split at stepped
    · rename_i k word
      split at stepped
      · cases stepped
        exact .unit word ‹_›
      · contradiction
    · contradiction
  | head h =>
    simp only [step] at stepped
    cases read : readHead enclosing h t with
    | error fault => simp [read, Except.map] at stepped
    | ok next =>
      simp only [read, Except.map, Except.ok.injEq, Prod.mk.injEq] at stepped
      obtain ⟨rfl, rfl⟩ := stepped
      exact move_of_readHead read
  | piece h first value =>
    simp only [step] at stepped
    split at stepped
    · cases stepped
      exact .plus ‹_›
    · cases resolved : h.starter.resolve? value with
      | none => simp [resolve, resolved] at stepped
      | some k =>
        cases ended : terminate enclosing k h.keyword (some value) t with
        | error fault => simp [resolve, resolved, ended, Except.map] at stepped
        | ok next =>
          simp only [resolve, resolved, ended, Except.map, Except.ok.injEq,
            Prod.mk.injEq] at stepped
          obtain ⟨rfl, rfl⟩ := stepped
          exact move_of_terminate (.argued resolved) ended
  | joining h first value =>
    simp only [step] at stepped
    split at stepped
    · cases stepped
      exact .piece ‹_›
    · contradiction
  | content b =>
    simp only [step] at stepped
    split at stepped
    · cases stepped
      exact .closed ‹_›
    · cases received : b.receive strict t with
      | error fault => simp [received] at stepped
      | ok begun =>
        obtain ⟨starter, progress⟩ := begun
        simp only [received, Except.ok.injEq, Prod.mk.injEq] at stepped
        obtain ⟨rfl, rfl⟩ := stepped
        exact .begun ‹_› received
  | complete s => simp [step] at stepped

/-- A token that ends an argument, or a statement without one, begins no argument and joins no piece
to it. -/
theorem step_of_named (named : Named phase k keyword argument) (plain : t.kind.isArgument = false)
    (last : t.kind ≠ .plus) :
    step strict ⟨enclosing, phase⟩ t = (terminate enclosing k keyword argument t).map (·, []) := by
  cases named with
  | bare dispensable =>
    cases use : (rule k).argument with
    | required => contradiction
    | optional | none => simp [step, readHead, use, plain]
  | argued resolved => simp [step, resolve, resolved, last]

theorem readHead_of_argument (takes : h.TakesArgument) (begins : t.kind.isArgument) :
    readHead enclosing h t = .ok ⟨enclosing, .piece h t.span t.text⟩ := by
  obtain ⟨starter, keyword⟩ := h
  cases starter with
  | deviate => simp [readHead, begins]
  | kind k =>
    have needed := takes k rfl
    cases use : (rule k).argument with
    | none => contradiction
    | required | optional => simp [readHead, use, begins]

theorem step_eq_ok_iff : σ.step strict t = .ok (τ, es) ↔ Move strict σ t τ es := by
  refine ⟨move_of_step, ?_⟩
  intro move
  cases move with
  | unit word accepted => simp [step, word, accepted]
  | argument takes begins => simp [step, readHead_of_argument takes begins, Except.map]
  | plus join => simp [step, join]
  | piece joined => simp [step, joined]
  | ended named semicolon allowed =>
    rw [step_of_named named (by simp [semicolon, Token.Kind.isArgument]) (by simp [semicolon])]
    simp [terminate, semicolon, allowed, Except.map]
  | opened named brace =>
    rw [step_of_named named (by simp [brace, Token.Kind.isArgument]) (by simp [brace])]
    simp [terminate, brace, Except.map]
  | closed brace => simp [step, brace]
  | begun inside received => simp [step, inside, received]

end State
end Yang.Parse
