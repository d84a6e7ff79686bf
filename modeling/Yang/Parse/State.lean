import Yang.Parse.Block

/-! The parser as a machine that reads one token at a time. Its state holds the blocks that enclose
what it is reading, innermost first. Each token either moves it on or is a fault, and nothing behind
the token counts. -/
namespace Yang.Parse

open Grammar

structure Head where
  starter : Starter
  keyword : Token

inductive Phase where
  | start (entry : Entry)
  | head (h : Head)
  /-- A piece of the argument has been read; `first` is the span of its first piece. -/
  | piece (h : Head) (first : Span) (value : String)
  /-- A `+` behind a piece has been read. -/
  | joining (h : Head) (first : Span) (value : String)
  /-- The block is open, and its last substatement is complete. -/
  | content (b : Block)
  | complete (s : Statement)

structure State where
  enclosing : List Block
  phase : Phase

namespace State

def initial (entry : Entry) : State := ⟨[], .start entry⟩

/-- A statement's keyword has been read, and nothing encloses it. -/
def ofHead (h : Head) : State := ⟨[], .head h⟩

/-- Puts a complete statement into the block around it. -/
def complete (enclosing : List Block) (s : Statement) : State :=
  match enclosing with
  | [] => ⟨[], .complete s⟩
  | b :: outer => ⟨outer, .content (b.push s)⟩

/-- Reads the token behind a statement's argument, or behind its keyword if it has none. -/
def terminate (enclosing : List Block) (k : Statement.Kind) (keyword : Token)
    (argument : Option String)
    (t : Token) : Except Fault State :=
  match t.kind with
  | .semicolon =>
    if (rule k).ending.allowsSemicolon then
      .ok (complete enclosing ⟨k, keyword.text, argument, [], keyword.span.cover t.span⟩)
    else .error (.blockMissing k)
  | .leftBrace => .ok ⟨enclosing, .content (.opened k keyword argument)⟩
  | _ => .error (.terminatorMissing k)

def readHead (enclosing : List Block) (h : Head) (t : Token) : Except Fault State :=
  match h.starter with
  | .deviate =>
    if t.kind.isArgument then .ok ⟨enclosing, .piece h t.span t.text⟩
    else .error (.argumentMissing h.starter)
  | .kind k =>
    match (rule k).argument with
    | .required =>
      if t.kind.isArgument then .ok ⟨enclosing, .piece h t.span t.text⟩
      else .error (.argumentMissing h.starter)
    | .optional =>
      if t.kind.isArgument then .ok ⟨enclosing, .piece h t.span t.text⟩
      else terminate enclosing k h.keyword none t
    | .none => terminate enclosing k h.keyword none t

def resolve (h : Head) (first : Span) (value : String) : Except Fault Statement.Kind :=
  match h.starter.resolve? value with
  | some k => .ok k
  | none => .error (.deviateArgument value first)

/-- Reads one token that is not the end of the input. Only a token that closes a block can bring
structural errors to light. -/
def step (strict : Bool) (σ : State) (t : Token) : Except Fault (State × List StructuralError) :=
  match σ.phase with
  | .start entry =>
    match t.kind with
    | .keyword k =>
      if k ∈ entry.accepted then .ok (⟨σ.enclosing, .head ⟨.kind (.core k), t⟩⟩, [])
      else .error (.unitMissing entry)
    | _ => .error (.unitMissing entry)
  | .head h => (readHead σ.enclosing h t).map (·, [])
  | .piece h first value =>
    if t.kind = .plus then .ok (⟨σ.enclosing, .joining h first value⟩, [])
    else
      match resolve h first value with
      | .error fault => .error fault
      | .ok k => (terminate σ.enclosing k h.keyword (some value) t).map (·, [])
  | .joining h first value =>
    if t.kind = .string then .ok (⟨σ.enclosing, .piece h first (value ++ t.text)⟩, [])
    else .error .pieceMissing
  | .content b =>
    if t.kind = .rightBrace then .ok (complete σ.enclosing (b.statement t), b.violations t)
    else
      match b.receive strict t with
      | .error fault => .error fault
      | .ok (starter, progress) =>
        .ok (⟨{ b with progress } :: σ.enclosing, .head ⟨starter, t⟩⟩, [])
  | .complete s => .error (.inputContinues s.kind s.argument)

/-- What the end of the input makes of a state: the statement, or what was missing. -/
def ending (σ : State) : Except Fault Statement :=
  match σ.phase with
  | .start entry => .error (.unitMissing entry)
  | .head h =>
    match h.starter with
    | .deviate => .error (.argumentMissing h.starter)
    | .kind k =>
      if (rule k).argument = .required then .error (.argumentMissing h.starter)
      else .error (.terminatorMissing k)
  | .piece h first value =>
    match resolve h first value with
    | .error fault => .error fault
    | .ok k => .error (.terminatorMissing k)
  | .joining _ _ _ => .error .pieceMissing
  | .content b => .error (.unclosed b.kind b.argument)
  | .complete s => .ok s

end State

end Yang.Parse
