import Yang.Proofs.Parse.Acceptance
import Yang.Proofs.Statement.Rendering

/-! What the parser has read is always a beginning of its tree written out. So the tokens that a
parse accepts are its tree written out, and nothing else. -/
namespace Yang

open Grammar Parse

namespace Parse

variable {inExtension : Bool} {s : Statement} {ts us : List Token} {strict : Bool}
  {root : Statement.Kind → Prop} {enclosing : List Block} {phase : Phase} {b : Block} {h : Head}
  {k : Statement.Kind} {keyword t : Token} {argument : Option String} {σ τ : State}
  {es : List StructuralError}

theorem Starter.opens_argued {value : String} {starter : Starter} {t : Token.Kind}
    (starts : ofToken? inExtension t = some starter) (resolved : starter.resolve? value = some k) :
    Opens inExtension t k (some value) := by
  cases inExtension with
  | true =>
    obtain rfl := eq_extension_of_ofToken? starts
    cases resolved
    simpa [Opens, ofToken?] using starts
  | false =>
    rcases ofToken?_eq_some.mp starts with ⟨rfl, rfl⟩ | ⟨l, alone, rfl⟩
    · obtain ⟨f, selected, rfl⟩ := Option.map_eq_some_iff.mp resolved
      exact .inr ⟨rfl, f, selected, rfl⟩
    · cases resolved
      exact .inl alone

theorem Starter.opens_bare {t : Token.Kind} (starts : ofToken? inExtension t = some (kind k)) :
    Opens inExtension t k none := by
  cases inExtension with
  | true =>
    cases eq_extension_of_ofToken? starts
    simpa [Opens, ofToken?] using starts
  | false =>
    rcases ofToken?_eq_some.mp starts with ⟨_, ⟨⟩⟩ | ⟨l, alone, ⟨⟩⟩
    exact .inl alone

def Block.Written (inExtension : Bool) (b : Block) (ts : List Token) : Prop :=
  ∃ arg left inner, ts = b.keyword :: arg ++ left :: inner ∧
    Opens inExtension b.keyword.kind b.kind b.argument ∧
    SpellsArgument b.argument arg ∧ left.kind = .leftBrace ∧
    RendersAll (b.kind = .extension) b.children.toList inner

/-- The tokens of the enclosing blocks so far, the outermost first. -/
def WrittenBlocks : List Block → List Token → Prop
  | [], ts => ts = []
  | b :: outer, ts => ∃ before here, ts = before ++ here ∧ WrittenBlocks outer before ∧
      b.Written (insideExtension outer) here

/-- The tokens of what is being read in the innermost block. -/
def Phase.Written (inExtension : Bool) (ts : List Token) : Phase → Prop
  | .start _ => ts = []
  | .head h => ts = [h.keyword]
  | .piece h _ value => ∃ arg, ts = h.keyword :: arg ∧ Spells value arg
  | .joining h _ value => ∃ arg p, ts = h.keyword :: arg ++ [p] ∧ Spells value arg ∧ p.kind = .plus
  | .content b => b.Written inExtension ts
  | .complete s => Renders inExtension s ts

namespace State

/-- The tokens that lead to a state write what the state holds. -/
def Written (σ : State) (ts : List Token) : Prop :=
  ∃ before here, ts = before ++ here ∧ WrittenBlocks σ.enclosing before ∧
    σ.phase.Written (insideExtension σ.enclosing) here

theorem written_initial (entry : Entry) : (initial entry).Written [] := ⟨[], [], rfl, rfl, rfl⟩

theorem written_complete {before here : List Token} (blocks : WrittenBlocks enclosing before)
    (renders : Renders (insideExtension enclosing) s here) :
    (complete enclosing s).Written (before ++ here) := by
  cases enclosing with
  | nil => exact ⟨before, here, rfl, blocks, renders⟩
  | cons b outer =>
    obtain ⟨earlier, _, rfl, blocks, arg, left, inner, rfl, opens, spells, brace, body⟩ := blocks
    refine ⟨earlier, b.keyword :: arg ++ left :: (inner ++ here), by simp, blocks, ?_⟩
    refine ⟨arg, left, inner ++ here, rfl, opens, spells, brace, ?_⟩
    rw [Block.push, Array.toList_push]
    exact body.snoc renders

/-- Before its terminator or its block, a statement is written as its keyword and its argument. -/
theorem Written.named (written : (⟨enclosing, phase⟩ : State).Written ts)
    (sound : (⟨enclosing, phase⟩ : State).Sound strict root)
    (named : Named phase k keyword argument) :
    ∃ before arg, ts = before ++ keyword :: arg ∧ WrittenBlocks enclosing before ∧
      Opens (insideExtension enclosing) keyword.kind k argument ∧ SpellsArgument argument arg := by
  obtain ⟨before, here, rfl, blocks, here⟩ := written
  cases named with
  | bare dispensable =>
    obtain rfl := here
    exact ⟨before, [], rfl, blocks, Starter.opens_bare sound.starts, rfl⟩
  | argued resolved =>
    obtain ⟨arg, rfl, spells⟩ := here
    exact ⟨before, arg, rfl, blocks, Starter.opens_argued sound.1.starts resolved, spells⟩

theorem Written.move (written : σ.Written ts) (sound : σ.Sound strict root)
    (move : Move strict σ t τ es) :
    τ.Written (ts ++ [t]) := by
  cases move with
  | unit word accepted =>
    obtain ⟨before, _, rfl, blocks, rfl⟩ := written
    exact ⟨before, [t], by simp, blocks, rfl⟩
  | argument takes begins =>
    obtain ⟨before, _, rfl, blocks, rfl⟩ := written
    exact ⟨before, _, by simp, blocks, [t], rfl, .piece begins⟩
  | plus join =>
    obtain ⟨before, _, rfl, blocks, arg, rfl, spells⟩ := written
    exact ⟨before, _, by simp, blocks, arg, t, rfl, spells, join⟩
  | piece joined =>
    obtain ⟨before, _, rfl, blocks, arg, p, rfl, spells, plus⟩ := written
    exact ⟨before, _, by simp, blocks, arg ++ [p, t], rfl, .join spells plus joined⟩
  | ended named semicolon allowed =>
    obtain ⟨before, arg, rfl, blocks, opens, spells⟩ := written.named sound named
    rw [List.append_assoc]
    exact written_complete blocks (.ended opens rfl spells rfl semicolon)
  | opened named brace =>
    obtain ⟨before, arg, rfl, blocks, opens, spells⟩ := written.named sound named
    exact ⟨before, _ :: arg ++ [t],
      by simp [Block.opened], blocks, arg, t, [], rfl, opens, spells, brace, .nil⟩
  | closed brace =>
    -- The block around the statement, if there is one, is written that much further.
    obtain ⟨before, _, rfl, blocks, arg, left, inner, rfl, opens, spells, open_, body⟩ := written
    rw [List.append_assoc]
    exact written_complete blocks (.block opens rfl spells open_ body brace)
  | begun inside received =>
    obtain ⟨before, here, rfl, blocks, here⟩ := written
    exact ⟨before ++ _, [t], rfl, ⟨before, _, rfl, blocks, here⟩, rfl⟩

theorem Written.reads (written : σ.Written ts) (sound : σ.Sound strict root)
    (reads : σ.Reads strict us τ es) :
    τ.Written (ts ++ us) := by
  induction reads generalizing ts with
  | none => simpa using written
  | next stepped later ih =>
    have move := step_eq_ok_iff.mp stepped
    simpa using ih (written.move sound move) (sound.move move)

end State

end Parse

variable {entry : Entry} {options : Options} {tokens : TokenStream} {s : Statement}

/-- A parse neither loses nor adds nor moves anything: the tokens that it accepts write the tree
that it returns. -/
theorem renders_of_parseTokens (accepted : (parseTokens entry options tokens).result = .ok s) :
    Renders false s tokens.pending := by
  have reads := parseTokens_result_eq_ok.mp accepted
  obtain ⟨_, _, split, rfl, renders⟩ := (State.written_initial entry).reads
    (State.sound_initial entry) reads
  rw [List.nil_append, List.nil_append] at split
  rw [split]
  exact renders

theorem renders_of_parseTokens_sample :
    (parseTokens .module {} Sample.supply).result = .ok Sample.tree ∧
    Renders false Sample.tree Sample.supply.pending :=
  ⟨Sample.accepted, renders_of_parseTokens Sample.accepted⟩

end Yang
