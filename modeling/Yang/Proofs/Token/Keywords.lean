import Mathlib.Data.List.DropRight
import Yang.Proofs.Lexeme.Word
import Yang.Proofs.Token.Concatenation

/-! Which words of a text are keywords. Whether a statement can begin at a token is told by the
tokens since the last semicolon or brace: none of them may be more than a `+` or text that is no
token. There a word is a keyword or an identifier, and anywhere else it is a string. -/
namespace Yang

open Text (byteLength byteLength_append)

namespace Token

open Lexeme (IsWord)

namespace Kind

variable {word : String} {k : Keyword}

theorem ofName?_deviate : Keyword.ofName? "deviate" = none := by decide +kernel

theorem ofWord_eq_keyword : ofWord word = keyword k ↔ k.name = word := by
  rw [← Keyword.ofName?_eq_some, ofWord]
  cases Keyword.ofName? word with
  | some l => simp
  | none =>
    simp only [reduceCtorEq, iff_false]
    split <;> simp

theorem ofWord_eq_deviate : ofWord word = deviate ↔ word = "deviate" := by
  rw [ofWord]
  cases named : Keyword.ofName? word with
  | some l =>
    refine iff_of_false (by simp) ?_
    rintro rfl
    cases named.symm.trans ofName?_deviate
  | none => by_cases same : word = "deviate" <;> simp [same]

theorem ofWord_eq_identifier : ofWord word = identifier ↔
    (∀ k : Keyword, k.name ≠ word) ∧ word ≠ "deviate" := by
  have unnamed : (∀ k : Keyword, k.name ≠ word) ↔ Keyword.ofName? word = none := by
    rw [Option.eq_none_iff_forall_ne_some]
    exact forall_congr' fun k => not_congr Keyword.ofName?_eq_some.symm
  rw [unnamed, ofWord]
  cases named : Keyword.ofName? word with
  | some l => simp
  | none => by_cases same : word = "deviate" <;> simp [same]

/-- Tokens that make no difference to whether a statement can begin behind them. -/
def isIndifferent : Kind → Bool
  | plus | invalid => true
  | _ => false

end Kind

/-- Whether a statement can begin behind a token. -/
def statementBehind (atStatement : Bool) (t : Token) : Bool :=
  t.kind.isDelimiter || t.kind.isIndifferent && atStatement

/-- A statement can begin behind these tokens, the first of a text: since the last semicolon or
brace there are only tokens that make no difference. -/
def AtStatement (before : List Token) : Prop :=
  ∀ t ∈ before.rtakeWhile (!·.kind.isDelimiter), t.kind.isIndifferent

variable {index : LineIndex} {atStatement : Bool} {offset : Nat} {l : Lexeme} {ls : List Lexeme}
  {before behind : List Token} {t : Token} {chars rest : List Char} {text : String}

theorem atStatement_iff : AtStatement before ↔ before.foldl statementBehind true = true := by
  induction before using List.reverseRecOn with
  | nil => simp [AtStatement]
  | append_singleton before t ih =>
    rw [List.foldl_concat, statementBehind, AtStatement, List.rtakeWhile_concat]
    cases delimiter : t.kind.isDelimiter with
    | true => simp
    | false => simp [← ih, AtStatement, or_imp, forall_and, and_comm]

theorem statementBehind_of_startsStatement (starts : t.kind.startsStatement) :
    statementBehind atStatement t = false := by
  unfold statementBehind
  cases kind : t.kind <;> first | rfl | (rw [kind] at starts; contradiction)

/-- A lexeme and the token that it makes leave alike whether a statement can begin behind them. -/
theorem statementBehind_of_tokenAt? (made : l.tokenAt? index atStatement offset = some t) :
    statementBehind atStatement t = l.statementBehind atStatement := by
  have named := Lexeme.token?_of_tokenAt? made
  cases l with
  | blank | lineComment | blockComment => contradiction
  | word chars =>
    obtain ⟨kind, _⟩ := Prod.mk.inj (Option.some.inj named)
    cases atStatement with
    | true => exact statementBehind_of_startsStatement (kind ▸ Kind.startsStatement_ofWord _)
    | false =>
      simp [statementBehind, ← kind, Kind.isDelimiter, Kind.isIndifferent, Lexeme.statementBehind]
  | _ =>
    obtain ⟨kind, _⟩ := Prod.mk.inj (Option.some.inj named)
    simp [statementBehind, ← kind, Kind.isDelimiter, Kind.isIndifferent, Lexeme.statementBehind]

/-- A token that is not the end is made by a lexeme. Whether that stands where a statement can begin
is told by the tokens before it. -/
theorem exists_lexeme_of_split
    (split : ofLexemes index atStatement offset ls = before ++ t :: behind)
    (more : t.isEnd = false) :
    ∃ front l back, ls = front ++ l :: back ∧
      l.tokenAt? index (before.foldl statementBehind atStatement)
        (offset + byteLength (front.flatMap Lexeme.source)) = some t := by
  induction ls generalizing atStatement offset before with
  | nil =>
    have member : t ∈ ofLexemes index atStatement offset [] := by simp [split]
    obtain rfl := List.mem_singleton.mp member
    contradiction
  | cons l later ih =>
    -- Behind the first lexeme, the tokens before `t` are the same but for the one that it makes.
    have deeper {before : List Token}
        (split : ofLexemes index (l.statementBehind atStatement)
          (offset + byteLength l.source) later = before ++ t :: behind) :
        ∃ front m back, l :: later = front ++ m :: back ∧
          m.tokenAt? index (before.foldl statementBehind (l.statementBehind atStatement))
            (offset + byteLength (front.flatMap Lexeme.source)) = some t := by
      obtain ⟨front, m, back, rfl, found⟩ := ih split
      refine ⟨l :: front, m, back, rfl, ?_⟩
      rw [List.flatMap_cons, byteLength_append, ← Nat.add_assoc]
      exact found
    rw [ofLexemes_cons] at split
    cases made : l.tokenAt? index atStatement offset with
    | none =>
      rw [made] at split
      have found := deeper split
      rwa [Lexeme.statementBehind_of_isTrivia (Lexeme.tokenAt?_eq_none.mp made)] at found
    | some u =>
      rw [made] at split
      cases before with
      | nil =>
        obtain rfl := (List.cons.inj split).1
        exact ⟨[], l, later, rfl, made⟩
      | cons first before =>
        obtain ⟨rfl, rest⟩ := List.cons.inj split
        have found := deeper rest
        rwa [← statementBehind_of_tokenAt? made] at found

/-- A word makes a keyword or an identifier where a statement can begin, and a string elsewhere; no
other lexeme makes a keyword or an identifier. -/
theorem kind_of_token? {kind : Kind} {what : String} (leads : l.Leads rest)
    (named : l.token? atStatement = some (kind, what)) :
    (kind.startsStatement ↔ IsWord l.source ∧ atStatement) ∧
      (IsWord l.source → what = String.ofList l.source ∧
        kind = if atStatement then .ofWord what else .string) := by
  rw [Lexeme.isWord_source leads]
  cases l with
  | word chars =>
    cases named
    refine ⟨?_, fun _ => ⟨rfl, rfl⟩⟩
    cases atStatement with
    | true => simp [Kind.startsStatement_ofWord, Lexeme.source]
    | false => simp [Kind.startsStatement, Kind.isKeyword]
  | _ => cases named <;> simp [Kind.startsStatement, Kind.isKeyword]

/-- Each token but the end stands at a lexeme of the text, and is what this makes there. -/
theorem exists_slice (split : ofText text = before ++ t :: behind) (more : t.isEnd = false) :
    ∃ l : Lexeme, ∃ rest, l.Leads rest ∧ Text.slice? text.toList t.slice.start t.slice.stop =
      some l.source ∧
      l.token? (before.foldl statementBehind true) = some (t.kind, t.text) := by
  obtain ⟨front, l, back, cut, made⟩ := exists_lexeme_of_split split more
  have whole := Lexeme.flatMap_source_ofText text.toList
  have lead := Lexeme.leadAll_ofText text.toList
  rw [cut, List.flatMap_append, List.flatMap_cons] at whole
  rw [cut, Lexeme.leadAll_append] at lead
  refine ⟨l, _, lead.2.1, ?_, Lexeme.token?_of_tokenAt? made⟩
  obtain ⟨_, _, rfl⟩ := Option.map_eq_some_iff.mp made
  refine Text.slice?_eq_some.mpr
    ⟨front.flatMap Lexeme.source, back.flatMap Lexeme.source, ?_, ?_, ?_⟩
  · rw [← whole, List.append_assoc]
  · exact (Nat.zero_add _).symm
  · rw [byteLength_append]
    exact congrArg (· + byteLength l.source) (Nat.zero_add _).symm

/-- Nothing stands for the end. -/
theorem slice_of_isEnd (member : t ∈ ofText text) (last : t.isEnd) :
    Text.slice? text.toList t.slice.start t.slice.stop = some [] := by
  obtain ⟨before, _, more, closed⟩ := ofText_eq_append text
  rw [closed, List.mem_append, List.mem_singleton] at member
  rcases member with early | rfl
  · cases last.symm.trans (more t early)
  · refine Text.slice?_eq_some.mpr ⟨text.toList, [], by simp, rfl, ?_⟩
    rw [List.append_nil]
    rfl

/-- What a token is, is told by what stands for it in the text and by the tokens before it. -/
theorem kind_of_split (split : ofText text = before ++ t :: behind) :
    ∃ source, Text.slice? text.toList t.slice.start t.slice.stop = some source ∧
      (t.kind.startsStatement ↔ IsWord source ∧ AtStatement before) ∧
      (IsWord source → t.text = String.ofList source ∧
        (AtStatement before → t.kind = .ofWord t.text) ∧
        (¬ AtStatement before → t.kind = .string)) := by
  cases last : t.isEnd with
  | true =>
    have member : t ∈ ofText text := by simp [split]
    have empty : ¬ IsWord [] := by simp [IsWord, Lexeme.ofText]
    have kind : t.kind = .endOfInput := of_decide_eq_true last
    refine ⟨[], slice_of_isEnd member last, ?_, fun isWord => absurd isWord empty⟩
    simp [kind, empty, Kind.startsStatement, Kind.isKeyword]
  | false =>
    obtain ⟨l, rest, leads, slice, named⟩ := exists_slice split last
    obtain ⟨starts, word⟩ := kind_of_token? leads named
    rw [← atStatement_iff] at starts
    refine ⟨l.source, slice, starts, fun isWord => ?_⟩
    obtain ⟨what, kind⟩ := word isWord
    refine ⟨what, fun statement => ?_, fun argument => ?_⟩
    · rw [kind, if_pos (atStatement_iff.mp statement)]
    · rw [kind, if_neg (mt atStatement_iff.mpr argument)]

end Token

end Yang
