import Yang.Parse.Run
import Yang.Proofs.Parse.Faults
import Yang.Proofs.Statement.Bare
import Yang.Proofs.Token.Bare

/-! Places have no influence on a parse. Whether they are forgotten before it or after it makes no
difference, so tokens of the same kinds and texts are parsed alike wherever they stand. -/
namespace Yang

open Grammar Parse

def StructuralError.bare (e : StructuralError) : StructuralError :=
  { e with span := .empty .origin }

def SyntaxError.bare (e : SyntaxError) : SyntaxError := { e with span := .empty .origin }

def ParseError.bare : ParseError → ParseError
  | syntactic e => syntactic e.bare
  | structural es => structural (es.map StructuralError.bare)

namespace Parse

theorem mapError_map_error {α β ε δ : Type} (f : ε → δ) (g : α → β) (e : ε) :
    ((Except.error e : Except ε α).map g).mapError f = .error (f e) := rfl

theorem mapError_map_ok {α β ε δ : Type} (f : ε → δ) (g : α → β) (a : α) :
    ((Except.ok a : Except ε α).map g).mapError f = .ok (g a) := rfl

/-- What became of a parse, but for the places of statements and errors. -/
def bare (result : Except ParseError Statement) : Except ParseError Statement :=
  (result.map Statement.bare).mapError ParseError.bare

def Fault.bare : Fault → Fault
  | deviateArgument argument _ => deviateArgument argument (.empty .origin)
  | f => f

def Head.bare (h : Head) : Head := ⟨h.starter, h.keyword.bare⟩

def Block.bare (b : Block) : Block :=
  { b with keyword := b.keyword.bare, children := b.children.map Statement.bare }

def Phase.bare : Phase → Phase
  | start entry => start entry
  | head h => head h.bare
  | piece h _ value => piece h.bare (.empty .origin) value
  | joining h _ value => joining h.bare (.empty .origin) value
  | content b => content b.bare
  | complete s => complete s.bare

def State.bare (σ : State) : State := ⟨σ.enclosing.map Block.bare, σ.phase.bare⟩

variable {strict : Bool} {enclosing : List Block} {h : Head} {k : Statement.Kind}
  {keyword t : Token} {argument : Option String} {first : Span} {value : String} {b : Block}
  {s : Statement} {σ : State} {fault : Fault}

theorem Fault.toError_bare (f : Fault) (t : Token) :
    (f.toError t).bare = f.bare.toError t.bare := by
  obtain ⟨kind, text, span, range⟩ := t
  cases f <;> cases kind <;> rfl

theorem Fault.bare_eq_self (here : fault.code ≠ .deviateArgument) : fault.bare = fault := by
  cases fault with
  | deviateArgument argument first => exact absurd rfl here
  | _ => rfl

theorem Block.statement_bare (b : Block) (close : Token) :
    (b.statement close).bare = b.bare.statement close.bare := by
  simp only [Statement.bare_eq, Block.statement, Block.bare, Array.toList_map]
  rfl

theorem Block.violations_bare (b : Block) (close : Token) :
    b.bare.violations close.bare = (b.violations close).map StructuralError.bare := by
  have kinds : b.bare.children.toList.map (·.kind) = b.children.toList.map (·.kind) := by
    simp [Block.bare, Statement.kind_bare]
  have rules : b.bare.countingRules = b.countingRules := rfl
  simp only [violations, kinds, rules, List.map_map]
  rfl

theorem Block.opened_bare (kind : Statement.Kind) (keyword : Token) (argument : Option String) :
    (Block.opened kind keyword argument).bare = .opened kind keyword.bare argument := by
  simp [Block.opened, Block.bare]

namespace State

theorem complete_bare (enclosing : List Block) (s : Statement) :
    (complete enclosing s).bare = complete (enclosing.map Block.bare) s.bare := by
  cases enclosing with
  | nil => rfl
  | cons b outer => simp [complete, State.bare, Phase.bare, Block.bare, Block.push]

theorem terminate_bare (enclosing : List Block) (k : Statement.Kind) (keyword : Token)
    (argument : Option String) (t : Token) :
    terminate (enclosing.map Block.bare) k keyword.bare argument t.bare =
      ((terminate enclosing k keyword argument t).map State.bare).mapError Fault.bare := by
  have kind : t.bare.kind = t.kind := rfl
  unfold terminate
  rw [kind]
  split
  · split
    · have ended := complete_bare enclosing
        ⟨k, keyword.text, argument, [], keyword.span.cover t.span⟩
      exact congrArg Except.ok ended.symm
    · rfl
  · have opened := Block.opened_bare k keyword argument
    simp only [mapError_map_ok, State.bare, Phase.bare, opened]
  · rfl

theorem readHead_bare (enclosing : List Block) (h : Head) (t : Token) :
    readHead (enclosing.map Block.bare) h.bare t.bare =
      ((readHead enclosing h t).map State.bare).mapError Fault.bare := by
  have kind : t.bare.kind = t.kind := rfl
  have starter : h.bare.starter = h.starter := rfl
  unfold readHead
  rw [kind, starter]
  split
  · split <;> rfl
  · split
    · split <;> rfl
    · split
      · rfl
      · exact terminate_bare ..
    · exact terminate_bare ..

/-- What a token makes of a state, but for places. -/
def bareStep (stepped : Except Fault (State × List StructuralError)) :
    Except Fault (State × List StructuralError) :=
  (stepped.map fun (τ, es) => (τ.bare, es.map StructuralError.bare)).mapError Fault.bare

theorem bareStep_map (read : Except Fault State) :
    bareStep (read.map (·, [])) = ((read.map State.bare).mapError Fault.bare).map (·, []) := by
  cases read <;> rfl

theorem step_bare (strict : Bool) (σ : State) (t : Token) :
    σ.bare.step strict t.bare = bareStep (σ.step strict t) := by
  obtain ⟨enclosing, phase⟩ := σ
  have kind : t.bare.kind = t.kind := rfl
  cases phase with
  | start entry =>
    simp only [step, State.bare, Phase.bare, kind]
    split
    · split <;> rfl
    · rfl
  | head h =>
    simp only [step, State.bare, Phase.bare, bareStep_map, readHead_bare]
  | piece h first value =>
    simp only [step, State.bare, Phase.bare, kind]
    split
    · rfl
    · have starter : h.bare.starter = h.starter := rfl
      simp only [resolve, starter]
      cases h.starter.resolve? value with
      | none => rfl
      | some k =>
        have ended := terminate_bare enclosing k h.keyword (some value) t
        simp only [bareStep_map, ← ended]
        rfl
  | joining h first value =>
    simp only [step, State.bare, Phase.bare, kind]
    split <;> rfl
  | content b =>
    simp only [step, State.bare, Phase.bare, kind]
    split
    · simp only [← Block.statement_bare, ← complete_bare, Block.violations_bare]
      rfl
    · have received : b.bare.receive strict t.bare = b.receive strict t := rfl
      rw [received]
      cases received : b.receive strict t with
      | error fault =>
        have here : fault.code ≠ .deviateArgument := by
          rcases Block.code_of_receive received with code | code | code <;> simp [code]
        simp only [bareStep, mapError_map_error, Fault.bare_eq_self here]
      | ok begun => rfl
  | complete s =>
    simp only [step, State.bare, Phase.bare, Statement.bare_eq]
    rfl

theorem ending_bare (σ : State) :
    σ.bare.ending = (σ.ending.map Statement.bare).mapError Fault.bare := by
  obtain ⟨enclosing, phase⟩ := σ
  cases phase with
  | start entry => rfl
  | head h =>
    have starter : h.bare.starter = h.starter := rfl
    simp only [ending, State.bare, Phase.bare, starter]
    split
    · rfl
    · split <;> rfl
  | piece h first value =>
    have starter : h.bare.starter = h.starter := rfl
    simp only [ending, State.bare, Phase.bare, resolve, starter]
    cases h.starter.resolve? value <;> rfl
  | joining h first value => rfl
  | content b => rfl
  | complete s => rfl

end State

theorem conclude_bare (σ : State) (found : Array StructuralError) (last : Token) :
    conclude σ.bare (found.map StructuralError.bare) last.bare = bare (conclude σ found last) := by
  unfold conclude
  rw [State.ending_bare]
  cases σ.ending with
  | error fault =>
    have error := fault.toError_bare last
    simp only [mapError_map_error, ← error]
    rfl
  | ok s =>
    have empty : (found.map StructuralError.bare).isEmpty = found.isEmpty := by simp [Array.isEmpty]
    simp only [mapError_map_ok, empty, Array.toList_map]
    split <;> rfl

theorem run_bare (options : Options) (σ : State) (found : Array StructuralError) (read : Nat)
    (tokens : TokenStream) :
    (run options σ.bare (found.map StructuralError.bare) read tokens.bare).result =
      bare (run options σ found read tokens).result := by
  have isEnd (tokens : TokenStream) : tokens.bare.next.isEnd = tokens.next.isEnd := rfl
  have next (tokens : TokenStream) : tokens.bare.next = tokens.next.bare := rfl
  fun_induction run options σ found read tokens with
  | case1 σ found read tokens ended =>
    rw [run, dif_pos ((isEnd tokens).trans ended)]
    exact conclude_bare σ found tokens.next
  | case2 σ found read tokens more fault faulty =>
    have error := fault.toError_bare tokens.next
    rw [run, dif_neg (by rw [isEnd]; exact more), next, State.step_bare, faulty]
    simp only [State.bareStep, mapError_map_error, ← error]
    rfl
  | case3 σ found read tokens more τ violations stepped stopped =>
    rw [run, dif_neg (by rw [isEnd]; exact more), next, State.step_bare, stepped]
    simp only [State.bareStep, mapError_map_ok, List.isEmpty_map, stopped, if_true]
    rfl
  | case4 σ found read tokens more τ violations stepped continued ih =>
    have collected : (found ++ violations).map StructuralError.bare =
        found.map StructuralError.bare ++ violations.map StructuralError.bare := by
      simp [← Array.toList_inj]
    rw [run, dif_neg (by rw [isEnd]; exact more), next, State.step_bare, stepped]
    simp only [State.bareStep, mapError_map_ok, List.isEmpty_map, continued, ← collected,
      TokenStream.advance_bare]
    exact ih

end Parse

variable {entry : Entry} {options : Options} {tokens others : TokenStream}

/-- Token streams that differ in places only are parsed alike, but for places. -/
theorem parseTokens_bare (same : tokens.bare = others.bare) :
    bare (parseTokens entry options tokens).result =
      bare (parseTokens entry options others).result := by
  have forgotten (tokens : TokenStream) : bare (parseTokens entry options tokens).result =
      (parseTokens entry options tokens.bare).result := by
    have after := run_bare options (.initial entry) #[] 0 tokens
    rw [Array.map_empty] at after
    exact after.symm
  rw [forgotten, forgotten, same]

/-- Texts whose tokens differ in places only are parsed alike, but for places. -/
theorem parse_bare {text other : String}
    (same : (Token.ofText text).map Token.bare = (Token.ofText other).map Token.bare)
    (entry : Entry) (options : Options) :
    bare (parse entry options text) = bare (parse entry options other) :=
  parseTokens_bare (TokenStream.ofList_bare same)

end Yang
