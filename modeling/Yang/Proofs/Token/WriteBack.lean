import Yang.Proofs.Lexeme.Word
import Yang.Proofs.Parse.Places
import Yang.Proofs.Token.OfText

/-! Writing tokens back. Each is written so that it reads as itself wherever a space or nothing
follows it: a string in double quotes, whichever way it was written before, any other token as it
stood. -/
namespace Yang

open Lexeme (Quoted.encode Quoted.decode)

namespace Token

/-- A token as it can be written: a string in double quotes, any other by its text. -/
def written (t : Token) : String :=
  if t.kind = .string then String.ofList ('"' :: Quoted.encode t.text.toList ++ ['"']) else t.text

/-- Tokens written with a space between each two, but for the end of the input. -/
def render (ts : List Token) : String := " ".intercalate ((ts.filter (!·.isEnd)).map written)

variable {t : Token}

theorem render_endAt (position : Position) (offset : Nat) :
    render [.endAt position offset] = "" := by
  simp [render, isEnd, endAt]

/-- Behind a written token there is nothing, or a space and the tokens behind it. -/
theorem toList_render_cons (more : t.isEnd = false) (ts : List Token) :
    ∃ behind, (render (t :: ts)).toList = t.written.toList ++ behind ∧
      (behind = [] ∧ (render ts).toList = [] ∨ behind = ' ' :: (render ts).toList) := by
  cases others : ts.filter (!·.isEnd) with
  | nil => exact ⟨[], by simp [render, more, others], .inl ⟨rfl, by simp [render, others]⟩⟩
  | cons u us => exact ⟨' ' :: (render ts).toList, by simp [render, more, others], .inr rfl⟩

end Token

namespace Lexeme

variable {index : LineIndex} {atStatement : Bool} {offset : Nat} {l : Lexeme}
  {rest behind : List Char} {t : Token}

/-- How a lexeme is written anew where its token is wanted. -/
def rewritten (atStatement : Bool) : Lexeme → Lexeme
  | word chars => if atStatement then word chars else doubleQuoted (Quoted.encode chars)
  | doubleQuoted chars => doubleQuoted (Quoted.encode (Quoted.decode chars))
  | singleQuoted chars => doubleQuoted (Quoted.encode chars)
  | l => l

theorem token?_rewritten : (l.rewritten atStatement).token? atStatement = l.token? atStatement := by
  cases l <;> cases atStatement <;> simp [rewritten, token?, Quoted.decode_encode]

theorem statementBehind_rewritten :
    (l.rewritten atStatement).statementBehind atStatement = l.statementBehind atStatement := by
  cases l <;> cases atStatement <;> rfl

theorem source_rewritten (made : l.tokenAt? index atStatement offset = some t) :
    (l.rewritten atStatement).source = t.written.toList := by
  obtain ⟨⟨kind, text⟩, named, rfl⟩ := Option.map_eq_some_iff.mp made
  cases l with
  | blank | lineComment | blockComment => contradiction
  | word chars =>
    cases named
    cases atStatement with
    | true =>
      have statement : Token.Kind.ofWord (String.ofList chars) ≠ .string :=
        Token.Kind.ofWord_ne rfl _
      simp [rewritten, source, Token.written, statement]
    | false => simp [rewritten, source, Token.written]
  | _ =>
    cases named
    simp [rewritten, source, Token.written]

/-- Written anew, a lexeme needs no more than a blank or nothing behind it. -/
theorem leads_rewritten (atStatement : Bool) (leads : l.Leads rest)
    (valid : ∀ chars, l ≠ invalid chars) (solid : l.isTrivia = false) (apart : Apart behind) :
    (l.rewritten atStatement).Leads behind := by
  cases l with
  | blank | lineComment | blockComment => contradiction
  | semicolon | leftBrace | rightBrace => trivial
  | plus => exact apart.stopsWord
  | word chars =>
    cases atStatement with
    | true => exact (isWord_iff.mpr leads.alone).leads apart
    | false => exact Quoted.body_encode chars
  | doubleQuoted chars => exact Quoted.body_encode _
  | singleQuoted chars => exact Quoted.body_encode chars
  | invalid chars => exact absurd rfl (valid chars)

end Lexeme

namespace Token

variable {index : LineIndex} {atStatement : Bool} {offset : Nat} {l : Lexeme} {ls : List Lexeme}
  {rest : List Char} {t : Token} {ts : List Token}

/-- One token written in front of others is read in front of what these are read as. -/
theorem bareFrom_render_cons (made : l.tokenAt? index atStatement offset = some t)
    (leads : l.Leads rest) (valid : ∀ chars, l ≠ .invalid chars)
    (others : bareFrom (l.statementBehind atStatement) (render ts).toList = ts.map bare) :
    bareFrom atStatement (render (t :: ts)).toList = (t :: ts).map bare := by
  obtain ⟨behind, written, gap⟩ := toList_render_cons (Lexeme.isEnd_of_tokenAt? made) ts
  have apart : Lexeme.Apart behind := by
    rcases gap with ⟨rfl, _⟩ | rfl
    · exact nofun
    · exact Lexeme.apart_of_isBlank rfl _
  have read : bareFrom (l.statementBehind atStatement) behind = ts.map bare := by
    rcases gap with ⟨rfl, empty⟩ | rfl
    · rw [← others, empty]
    · rw [← others, bareFrom_blank rfl]
  have again := Lexeme.leads_rewritten atStatement leads valid
    (Lexeme.not_isTrivia_of_tokenAt? made) apart
  rw [written, ← Lexeme.source_rewritten made, bareFrom_append again, Lexeme.token?_rewritten,
    Lexeme.statementBehind_rewritten, Lexeme.token?_of_tokenAt? made, read]
  rfl

/-- Written tokens are read as the tokens they were. -/
theorem bareFrom_render (leads : ∀ l ∈ ls, ∃ rest, l.Leads rest)
    (valid : ∀ l ∈ ls, ∀ chars, l ≠ .invalid chars) :
    bareFrom atStatement (render (ofLexemes index atStatement offset ls)).toList =
      (ofLexemes index atStatement offset ls).map bare := by
  induction ls generalizing atStatement offset with
  | nil =>
    rw [ofLexemes, render_endAt, bareFrom, readFrom, String.toList_empty, Lexeme.ofText]
    rfl
  | cons l later ih =>
    rw [List.forall_mem_cons] at leads valid
    have others := @ih (l.statementBehind atStatement) (offset + Text.byteLength l.source)
      leads.2 valid.2
    rw [ofLexemes_cons]
    cases made : l.tokenAt? index atStatement offset with
    | none =>
      rw [Lexeme.statementBehind_of_isTrivia (Lexeme.tokenAt?_eq_none.mp made)] at others ⊢
      exact others
    | some t =>
      obtain ⟨rest, leads⟩ := leads.1
      exact bareFrom_render_cons made leads valid.1 others

/-- The tokens of a text without invalid ones, written back, are read as the same kinds and texts up
to the end of the input. So what is written is parsed as the text was, but for places; and every
value of a string can be written. -/
theorem ofText_render :
    (∀ text : String, (∀ t ∈ ofText text, t.kind ≠ .invalid) →
      (ofText (render (ofText text))).map bare = (ofText text).map bare ∧
        (∃ before last, ofText (render (ofText text)) = before ++ [last] ∧
          (∀ t ∈ before, t.isEnd = false) ∧ last.isEnd) ∧
        ∀ entry options,
          Parse.bare (parse entry options (render (ofText text))) =
            Parse.bare (parse entry options text)) ∧
      ∀ value : String, String.ofList (Quoted.decode (Quoted.encode value.toList)) = value := by
  refine ⟨?_, ?_⟩
  · intro text valid
    have leads := (Lexeme.leadAll_ofText text.toList).exists_leads
    have same : (ofText (render (ofText text))).map bare = (ofText text).map bare :=
      bareFrom_render leads (not_invalid_of_ofLexemes valid)
    obtain ⟨before, _, more, closed⟩ := ofText_eq_append (render (ofText text))
    exact ⟨same, ⟨before, _, closed, more, rfl⟩, parse_bare same⟩
  · intro value
    rw [Lexeme.Quoted.decode_encode, String.ofList_toList]

namespace Sample

/-- A text with a comment, quotes of both kinds and a word with a slash in it. -/
def mixed : String := "module m \x7b // c\n prefix 'a\"b' + \"c\\n\" + d/e; \x7d"

end Sample

theorem ofText_render_sample :
    (∀ t ∈ ofText Sample.mixed, t.kind ≠ .invalid) ∧
      render (ofText Sample.mixed) =
        "module \"m\" \x7b prefix \"a\\\"b\" + \"c\n\" + \"d/e\" ; \x7d" ∧
      (ofText (render (ofText Sample.mixed))).map bare = (ofText Sample.mixed).map bare := by
  have valid : ∀ t ∈ ofText Sample.mixed, t.kind ≠ .invalid := by decide +kernel
  exact ⟨valid, by decide +kernel, (ofText_render.1 Sample.mixed valid).1⟩

end Token

end Yang
