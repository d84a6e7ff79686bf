import Yang.Proofs.Parse.Completeness
import Yang.Proofs.Token.Spelling
import Yang.Proofs.Token.Stream

/-! How a statement's argument is written makes no difference to what is read. -/
namespace Yang

open Lexeme (IsWord Gap SpellsPiece SpellsText isBlank)
open Parse
open Text (byteLength)

theorem Spells.ahead {value : String} {arg : List Token} (spells : Spells value arg) :
    ∀ t ∈ arg, t.isEnd = false := by
  induction spells with
  | piece begins =>
    rw [List.forall_mem_singleton]
    refine decide_eq_false ?_
    intro ended
    rw [ended] at begins
    contradiction
  | join spells plus string ih =>
    refine List.forall_mem_append.mpr ⟨ih, ?_⟩
    simp [Token.isEnd, plus, string]

/-- Where no `+` is behind it, an argument is complete. -/
theorem Parse.State.step_piece {strict : Bool} {enclosing : List Block} {h : Head} {first : Span}
    {value : String} {t : Token} (complete : t.kind ≠ .plus) :
    step strict ⟨enclosing, .piece h first value⟩ t =
      (resolve h first value).bind fun k => (terminate enclosing k h.keyword (some value) t).map
        (·, []) := by
  simp only [step, if_neg complete]
  cases resolve h first value <;> rfl

/-- The value of an argument is that of its pieces put together, however these are cut and each of
them is spelled. Behind the word that starts its statement, the tokens of the argument lead to a
state that holds the value, and next is the semicolon or the brace behind it, which ends an argument
of this value. -/
theorem argument_of_spelled :
    (∀ k : Keyword, IsWord k.name.toList) ∧ IsWord "deviate".toList ∧
      (∀ value, ∃ written, SpellsText value written) ∧
    ∀ {word gap value written pad : List Char} {c : Char} (more : List Char),
      IsWord word → Gap gap →
      SpellsText value written → (∀ b ∈ pad, isBlank b) → c = ';' ∨ c = '\x7b' →
      let tokens := TokenStream.ofList
        (Token.ofText (String.ofList (word ++ gap ++ written ++ pad ++ c :: more)))
      tokens.next.kind = .ofWord (String.ofList word) ∧
      ∃ n, let last := (tokens.advance.skip n).next
        last.kind = (if c = ';' then .semicolon else .leftBrace) ∧
        last.slice.start = byteLength (word ++ gap ++ written ++ pad) ∧
        ∀ strict enclosing starter, Head.TakesArgument ⟨starter, tokens.next⟩ →
          ∃ first, let σ : State :=
            ⟨enclosing, .piece ⟨starter, tokens.next⟩ first (String.ofList value)⟩
            State.Reads strict ⟨enclosing, .head ⟨starter, tokens.next⟩⟩
              (tokens.advance.taken n) σ [] ∧
            σ.step strict last =
              (State.resolve ⟨starter, tokens.next⟩ first (String.ofList value)).bind fun k =>
              (State.terminate enclosing k tokens.next (some (String.ofList value)) last).map
                (·, []) := by
  refine ⟨Keyword.isWord_name, Lexeme.isWord_of_plain (by decide +kernel) (by decide +kernel) rfl,
    fun value =>
    ⟨_, .piece (.double (Lexeme.Quoted.writes_encode value))⟩, ?_⟩
  intro word gap value written pad c more isWord apart spells blank ends tokens
  obtain ⟨t, arg, last, later, read, kind, spelled, ended, start⟩ :=
    @Token.readFrom_statement _ _ _ _ _
      (.ofText (word ++ gap ++ written ++ pad ++ c :: more)) _ 0 isWord apart spells blank ends more
  have split : tokens = .ofList (t :: (arg ++ last :: later)) := by
    simp only [tokens, Token.ofText, String.toList_ofList]
    exact congrArg TokenStream.ofList read
  have ahead : ∀ u ∈ t :: arg, u.isEnd = false := by
    refine List.forall_mem_cons.mpr ⟨?_, spelled.ahead⟩
    refine decide_eq_false ?_
    rw [kind]
    exact Token.Kind.ofWord_ne rfl _
  obtain ⟨taken, left⟩ := TokenStream.taken_ofList ahead last later
  rw [List.cons_append, ← split] at taken left
  obtain ⟨next, taken⟩ := List.cons.inj taken
  refine ⟨next ▸ kind, arg.length, ?_⟩
  have behind : (tokens.advance.skip arg.length).next = last := congrArg TokenStream.next left
  rw [behind, taken, next]
  refine ⟨ended, start.trans (Nat.zero_add _), ?_⟩
  intro strict enclosing starter takes
  obtain ⟨first, reads⟩ : ∃ first, State.Reads strict ⟨enclosing, .head ⟨starter, t⟩⟩ arg _ [] :=
    State.reads_of_spells takes spelled
  refine ⟨first, reads, State.step_piece ?_⟩
  rw [ended]
  split <;> simp

namespace Sample

/-- An argument in three pieces, one of them empty. -/
def spelled : String := "\"a\\\"\\n\" +\t''\n+ [0-9]+"

/-- What it says. -/
def said : String := "a\"\n[0-9]+"

theorem gap_singleton (c : Char) (blank : isBlank c) : Gap [c] := ⟨by simp, by simpa using blank⟩

theorem spellsText_spelled : SpellsText said.toList spelled.toList := by
  have quoted : SpellsPiece "a\"\n".toList "\"a\\\"\\n\"".toList :=
    .double (.plain (by decide) (by decide) (.escape rfl (.escape rfl .nil)))
  have empty : SpellsPiece [] "''".toList := .single List.not_mem_nil
  have bare : SpellsPiece "[0-9]+".toList "[0-9]+".toList :=
    .bare (Lexeme.isWord_of_plain (by decide +kernel) (by decide +kernel) rfl)
  have first := (SpellsText.piece quoted).join (gap_singleton ' ' rfl)
    (gap_singleton '\t' rfl) empty
  exact first.join (gap_singleton '\n' rfl) (gap_singleton ' ' rfl) bare

end Sample

theorem argument_of_spelled_sample :
    let text := "pattern ".toList ++ Sample.spelled.toList ++ " \x7b".toList
    let tokens := TokenStream.ofList (Token.ofText (String.ofList text))
    IsWord "pattern".toList ∧ SpellsText Sample.said.toList Sample.spelled.toList ∧
    Head.TakesArgument ⟨.kind (.core .pattern), tokens.next⟩ ∧
    ∃ n first, (tokens.advance.skip n).next.kind = .leftBrace ∧
      State.Reads true ⟨[], .head ⟨.kind (.core .pattern), tokens.next⟩⟩ (tokens.advance.taken n)
        ⟨[], .piece ⟨.kind (.core .pattern), tokens.next⟩ first Sample.said⟩ [] := by
  intro text tokens
  have isWord : IsWord "pattern".toList :=
    Lexeme.isWord_of_plain (by decide +kernel) (by decide +kernel) rfl
  have takes : Head.TakesArgument ⟨.kind (.core .pattern), tokens.next⟩ := by
    rintro k ⟨⟩
    decide
  have gap := Sample.gap_singleton ' ' rfl
  obtain ⟨_, n, last, _, reads⟩ :=
    argument_of_spelled.2.2.2 [] isWord gap Sample.spellsText_spelled gap.2 (.inr rfl)
  obtain ⟨first, reads, _⟩ := reads true [] (.kind (.core .pattern)) takes
  exact ⟨isWord, Sample.spellsText_spelled, takes, n, first, last, reads⟩

end Yang
