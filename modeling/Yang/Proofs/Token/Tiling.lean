import Yang.Proofs.Source.Lines
import Yang.Proofs.Token.OfText

/-! A text and its tokens. The tokens stand in the text one behind another, and what stands between
them is trivia. So their ranges and the trivia tile the text, and no part of it is lost or read
twice. -/
namespace Yang

open Text (byteLength byteLength_append)

namespace Lexeme

/-- Blanks, closed comments, and comments up to a line feed or the end of the text, in any order;
`behind` is what follows them in the text. -/
inductive Separates (behind : List Char) : List Char → Prop where
  | nil : Separates behind []
  | blank (first : isBlank c) (later : Separates behind text) : Separates behind (c :: text)
  | line (inside : '\n' ∉ chars) (stops : ∀ c ∈ (text ++ behind).head?, c = '\n')
    (later : Separates behind text) :
    Separates behind ('/' :: '/' :: (chars ++ text))
  | block (inside : Unclosed chars) (later : Separates behind text) :
    Separates behind ('/' :: '*' :: (chars ++ '*' :: '/' :: text))

/-- Characters without a blank, a mark or the beginning of a comment among them. -/
structure Unbroken (chars : List Char) : Prop where
  plain : ∀ c ∈ chars, isBlank c = false ∧ isMark c = false
  line : ¬ ['/', '/'] <:+: chars
  block : ¬ ['/', '*'] <:+: chars

variable {d : Char} {chars text rest behind : List Char} {l : Lexeme}

theorem separates_blanks (blank : ∀ c ∈ chars, isBlank c) (later : Separates behind text) :
    Separates behind (chars ++ text) := by
  induction chars with
  | nil => exact later
  | cons c chars ih =>
    rw [List.forall_mem_cons] at blank
    exact .blank blank.1 (ih blank.2)

/-- One more piece of trivia in front of others. -/
theorem separates_append (trivia : l.isTrivia) (leads : l.Leads (text ++ behind))
    (later : Separates behind text) :
    Separates behind (l.source ++ text) := by
  cases l with
  | blank chars => exact separates_blanks leads.2 later
  | lineComment chars => exact .line leads.1 leads.2 later
  | blockComment chars =>
    have closed := Separates.block leads later
    simpa [source] using closed
  | _ => contradiction

/-- In a word no slash stands before a character that cannot follow one. -/
theorem Wordlike.not_infix (word : Wordlike chars) (apart : isPlainAfterSlash d = false) :
    ¬ ['/', d] <:+: chars := by
  induction word with
  | nil => simp
  | plain first later ih =>
    rw [List.infix_cons_iff, not_or]
    refine ⟨fun begins => ?_, ih⟩
    obtain ⟨rfl, _⟩ := List.cons_prefix_cons.mp begins
    contradiction
  | slash second later ih =>
    have plain := (isPlainAfterSlash_iff.mp second).1
    rw [List.infix_cons_iff, List.infix_cons_iff, not_or, not_or]
    refine ⟨fun begins => ?_, fun begins => ?_, ih⟩
    · obtain ⟨rfl, _⟩ := List.cons_prefix_cons.mp (List.cons_prefix_cons.mp begins).2
      cases apart.symm.trans second
    · obtain ⟨rfl, _⟩ := List.cons_prefix_cons.mp begins
      contradiction

theorem Wordlike.unbroken (word : Wordlike chars) : Unbroken chars := by
  refine ⟨?_, word.not_infix rfl, word.not_infix rfl⟩
  induction word with
  | nil => simp
  | plain first later ih =>
    obtain ⟨blank, mark, _⟩ := isPlain_iff.mp first
    exact List.forall_mem_cons.mpr ⟨⟨blank, mark⟩, ih⟩
  | slash second later ih =>
    obtain ⟨blank, mark, _⟩ := isPlain_iff.mp (isPlainAfterSlash_iff.mp second).1
    exact List.forall_mem_cons.mpr ⟨⟨rfl, rfl⟩, List.forall_mem_cons.mpr ⟨⟨blank, mark⟩, ih⟩⟩

theorem Leads.unbroken (leads : (word chars).Leads rest) : Unbroken chars := by
  rcases leads with ⟨rfl, _⟩ | ⟨_, _, word, _⟩
  · refine ⟨by simp [isBlank, isMark], ?_, ?_⟩ <;> exact fun inside =>
      absurd inside.length_le (by simp)
  · exact word.unbroken

end Lexeme

namespace Token

open Lexeme (Separates Unbroken LeadAll)

/-- What a token says, and what stands for it in the text. The text of a token is its source, but
for a string in quotes, which says what is between them. -/
inductive Shows (t : Token) : List Char → Prop where
  | word (kind : t.kind.startsStatement ∨ t.kind = .string) (unbroken : Unbroken source)
      (text : t.text = String.ofList source) : Shows t source
  | single (kind : t.kind = .string) (text : t.text = String.ofList inside) :
    Shows t ('\'' :: inside ++ ['\''])
  | double (kind : t.kind = .string) (text : t.text = String.ofList (Lexeme.Quoted.decode inside)) :
    Shows t ('"' :: inside ++ ['"'])
  | other (statement : t.kind.startsStatement = false) (string : t.kind ≠ .string)
      (text : t.text = String.ofList source) : Shows t source

/-- Tokens and trivia by turns make up a text that begins at an offset; the end of the input is
behind them. -/
inductive Tiles : Nat → List Char → List Token → Prop where
  | ended (trivia : Separates [] gap) (last : t.isEnd) (text : t.text = "")
      (slice : t.slice = .empty (offset + byteLength gap)) : Tiles offset gap [t]
  | token (trivia : Separates (source ++ rest) gap) (more : t.isEnd = false)
    (nonempty : source ≠ []) (shown : t.Shows source)
      (slice : t.slice = ⟨offset + byteLength gap, offset + byteLength gap + byteLength source⟩)
      (later : Tiles t.slice.stop rest ts) : Tiles offset (gap ++ (source ++ rest)) (t :: ts)

variable {index : LineIndex} {atStatement : Bool} {offset : Nat} {l : Lexeme} {ls : List Lexeme}
  {text rest : List Char} {t : Token} {ts : List Token}

theorem shows_of_tokenAt? (leads : l.Leads rest)
    (made : l.tokenAt? index atStatement offset = some t) :
    t.Shows l.source := by
  obtain ⟨⟨kind, text⟩, named, rfl⟩ := Option.map_eq_some_iff.mp made
  cases l with
  | blank | lineComment | blockComment => contradiction
  | word chars =>
    cases named
    refine .word ?_ leads.unbroken rfl
    cases atStatement with
    | true => exact .inl (Kind.startsStatement_ofWord _)
    | false => exact .inr rfl
  | doubleQuoted chars =>
    cases named
    exact .double rfl rfl
  | singleQuoted chars =>
    cases named
    exact .single rfl rfl
  | _ =>
    cases named
    exact .other rfl (by simp) rfl

/-- Trivia in front of a text is part of its first gap. -/
theorem Tiles.cons_trivia (trivia : l.isTrivia) (leads : l.Leads text)
    (tiles : Tiles (offset + byteLength l.source) text ts) :
    Tiles offset (l.source ++ text) ts := by
  cases tiles with
  | ended gap last silent slice =>
    refine .ended (Lexeme.separates_append trivia (by simpa using leads) gap) last silent ?_
    rw [slice, byteLength_append, Nat.add_assoc]
  | token gap more nonempty shown slice later =>
    rw [← List.append_assoc]
    refine .token (Lexeme.separates_append trivia leads gap) more nonempty shown ?_ later
    rw [slice, byteLength_append, Nat.add_assoc offset]

theorem tiles_ofLexemes (lead : LeadAll ls []) :
    Tiles offset (ls.flatMap Lexeme.source) (ofLexemes index atStatement offset ls) := by
  induction ls generalizing atStatement offset with
  | nil => exact .ended .nil rfl rfl rfl
  | cons l later ih =>
    obtain ⟨leads, lead⟩ := lead
    rw [List.append_nil] at leads
    have tiles := @ih (l.statementBehind atStatement) (offset + byteLength l.source) lead
    rw [ofLexemes_cons, List.flatMap_cons]
    cases made : l.tokenAt? index atStatement offset with
    | none => exact tiles.cons_trivia (Lexeme.tokenAt?_eq_none.mp made) leads
    | some t =>
      have shown := shows_of_tokenAt? leads made
      have more := Lexeme.isEnd_of_tokenAt? made
      obtain ⟨_, _, rfl⟩ := Option.map_eq_some_iff.mp made
      exact .token .nil more leads.source_ne_nil shown rfl tiles

/-- Where a token stands in a text that begins at an offset: the end of the input behind all of it,
any other token at what stands for it. -/
def StandsIn (offset : Nat) (text : List Char) (t : Token) : Prop :=
  ∃ before source behind, text = before ++ (source ++ behind) ∧
    t.slice = ⟨offset + byteLength before, offset + byteLength before + byteLength source⟩ ∧
    (t.isEnd ∧ source = [] ∧ behind = [] ∧ t.text = "" ∨ t.isEnd = false ∧ source ≠ [] ∧
      t.Shows source)

theorem Tiles.standsIn (tiles : Tiles offset text ts) : ∀ t ∈ ts, t.StandsIn offset text := by
  induction tiles with
  | @ended gap offset t trivia last silent slice =>
    rw [List.forall_mem_singleton]
    exact ⟨gap, [], [], by simp, slice, .inl ⟨last, rfl, rfl, silent⟩⟩
  | @token source rest gap ts offset t trivia more nonempty shown slice later ih =>
    rw [List.forall_mem_cons]
    refine ⟨⟨gap, source, rest, rfl, slice, .inr ⟨more, nonempty, shown⟩⟩, ?_⟩
    intro u member
    obtain ⟨before, inside, behind, rfl, place, what⟩ := ih u member
    refine ⟨gap ++ (source ++ before), inside, behind, by simp, ?_, what⟩
    simp [place, slice, byteLength_append, Nat.add_assoc]

theorem StandsIn.le_start (stands : t.StandsIn offset text) : offset ≤ t.slice.start := by
  obtain ⟨before, _, _, _, slice, _⟩ := stands
  rw [slice]
  exact Nat.le_add_right _ _

theorem Tiles.pairwise (tiles : Tiles offset text ts) :
    ts.Pairwise (·.slice.stop ≤ ·.slice.start) := by
  induction tiles with
  | ended trivia last silent slice => exact List.pairwise_singleton _ _
  | token trivia more nonempty shown slice later ih =>
    exact List.pairwise_cons.mpr ⟨fun u member => (later.standsIn u member).le_start, ih⟩

theorem tiles_ofText (text : String) : Tiles 0 text.toList (ofText text) := by
  have read := @tiles_ofLexemes (.ofText text.toList) true 0 _ (Lexeme.leadAll_ofText text.toList)
  rwa [Lexeme.flatMap_source_ofText] at read

theorem slice_of_mem_ofText {text : String} (member : t ∈ ofText text) :
    t.slice.start ≤ t.slice.stop ∧ t.slice.stop ≤ byteLength text.toList := by
  obtain ⟨before, source, behind, split, slice, _⟩ := (tiles_ofText text).standsIn t member
  have length := congrArg byteLength split
  rw [byteLength_append, byteLength_append] at length
  rw [slice]
  simp only
  omega

/-- In a text of fewer than `2 ^ 32` bytes the range of a token says where it stands. -/
theorem bytes_range_of_mem_ofText {text : String} (short : byteLength text.toList < UInt32.size)
    (member : t ∈ ofText text) : t.range.bytes = t.slice := by
  have bounds := slice_of_mem_ofText member
  exact ByteRange.bytes_kept (by omega) (by omega)

/-- The tokens of a text and the trivia between them tile it. They are cut out of the text at
characters, none but the end is empty, and they follow one another without touching the same bytes
twice. Of a text of fewer than `2 ^ 32` bytes, their ranges say where they stand. -/
theorem ofText_tiles (text : String) : Tiles 0 text.toList (ofText text) ∧
    (∃ before last, ofText text = before ++ [last] ∧ (∀ t ∈ before, t.isEnd = false) ∧ last.isEnd ∧
      last.slice = .empty (byteLength text.toList)) ∧
    (∀ t ∈ ofText text, t.StandsIn 0 text.toList ∧ t.slice.stop ≤ byteLength text.toList ∧
      (t.isEnd = false → t.slice.start < t.slice.stop)) ∧
    (ofText text).Pairwise (·.slice.stop ≤ ·.slice.start) ∧
    (byteLength text.toList < UInt32.size → ∀ t ∈ ofText text, t.range.bytes = t.slice) := by
  have tiles := tiles_ofText text
  refine ⟨tiles, ?_, ?_, tiles.pairwise, fun short t => bytes_range_of_mem_ofText short⟩
  · obtain ⟨before, position, more, closed⟩ := ofText_eq_append text
    exact ⟨before, _, closed, more, rfl, rfl⟩
  · intro t member
    have stands := tiles.standsIn t member
    refine ⟨stands, (slice_of_mem_ofText member).2, ?_⟩
    obtain ⟨before, source, behind, split, slice, what⟩ := stands
    intro more
    rcases what with ⟨last, _⟩ | ⟨_, nonempty, _⟩
    · rw [last] at more
      contradiction
    · rw [slice]
      exact Nat.lt_add_of_pos_right (Text.byteLength_pos nonempty)

namespace Sample

/-- A comment between two words, of which the second is quoted. -/
def commented : String := "a /*b*/ 'c'"

end Sample

theorem ofText_tiles_sample : byteLength Sample.commented.toList < UInt32.size ∧
    (ofText Sample.commented).map (·.slice) = [⟨0, 1⟩, ⟨8, 11⟩, ⟨11, 11⟩] ∧
    Tiles 0 Sample.commented.toList (ofText Sample.commented) ∧
    ∀ t ∈ ofText Sample.commented, t.range.bytes = t.slice := by
  have short : byteLength Sample.commented.toList < UInt32.size := by decide +kernel
  obtain ⟨tiles, _, _, _, ranges⟩ := ofText_tiles Sample.commented
  exact ⟨short, by decide +kernel, tiles, ranges short⟩

end Token

end Yang
