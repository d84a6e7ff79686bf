import Yang.Proofs.Parse.Places
import Yang.Proofs.Token.OfText

/-! Trivia makes no difference. A blank put behind a lexeme ends it where it ended before, whatever
follows; so trivia that begins with one can be put in at either end of a token and leaves all tokens
as they were, but for their places. -/
namespace Yang

namespace Text

/-- A text with another put in at an offset. -/
def insertAt (inserted : List Char) : Nat → List Char → List Char
  | 0, text => inserted ++ text
  | _ + 1, [] => inserted
  | offset + 1, c :: text => c :: insertAt inserted (offset + 1 - c.utf8Size) text

theorem insertAt_byteLength (inserted before behind : List Char) :
    insertAt inserted (byteLength before) (before ++ behind) = before ++ (inserted ++ behind) := by
  induction before with
  | nil => simp [byteLength, insertAt]
  | cons c before ih =>
    have wide := c.utf8Size_pos
    obtain ⟨offset, same⟩ : ∃ offset, byteLength (c :: before) = offset + 1 :=
      Nat.exists_eq_add_one.mpr (Nat.add_pos_left wide _)
    have later : offset + 1 - c.utf8Size = byteLength before := by
      rw [← same, byteLength, Nat.add_sub_cancel_left]
    rw [same, List.cons_append, insertAt, later, ih, List.cons_append]

end Text

namespace Lexeme

/-- Blanks, comments up to a line feed, and comments up to the first `*/`, in any order. -/
inductive Trivia : List Char → Prop where
  | nil : Trivia []
  | blank (first : isBlank c) (later : Trivia text) : Trivia (c :: text)
  | line (inside : '\n' ∉ chars) (later : Trivia text) :
    Trivia ('/' :: '/' :: chars ++ '\n' :: text)
  | block (inside : Unclosed chars) (later : Trivia text) :
    Trivia ('/' :: '*' :: chars ++ '*' :: '/' :: text)

variable {c : Char} {text inserted rest : List Char} {l : Lexeme} {ls : List Lexeme}

theorem stopsWord_insert (stops : StopsWord (text ++ rest)) (blank : isBlank c) :
    StopsWord (text ++ (c :: inserted ++ rest)) := by
  match text with
  | [] => exact stopsWord_of_isBlank blank _
  | [d] =>
    refine ⟨stops.1, fun _ e next => ?_⟩
    cases next
    simp [isPlainAfterSlash, isPlain_of_isBlank blank]
  | d :: e :: text => exact stops

/-- A blank put in further behind leaves a lexeme where it was, unless it lengthens a comment up to
the line's end. -/
theorem Leads.insert (leads : l.Leads (text ++ rest)) (valid : ∀ chars, l ≠ invalid chars)
    (apart : text = [] → ∀ chars, l ≠ lineComment chars) (blank : isBlank c) :
    l.Leads (text ++ (c :: inserted ++ rest)) := by
  cases l with
  | blank chars | blockComment chars | doubleQuoted chars | singleQuoted chars => exact leads
  | semicolon | leftBrace | rightBrace => trivial
  | lineComment chars =>
    cases text with
    | nil => exact absurd rfl (apart rfl chars)
    | cons d text => exact leads
  | plus => exact stopsWord_insert leads blank
  | word chars =>
    refine leads.imp (fun lone => ⟨lone.1, ?_⟩) fun long =>
      ⟨long.1, long.2.1, long.2.2.1, stopsWord_insert long.2.2.2 blank⟩
    cases text with
    | nil =>
      intro d next
      cases next
      exact .inl blank
    | cons d text => exact lone.2
  | invalid chars => exact absurd rfl (valid chars)

theorem LeadAll.insert (lead : LeadAll ls rest) (valid : ∀ l ∈ ls, ∀ chars, l ≠ invalid chars)
    (last : ∀ l ∈ ls.getLast?, ∀ chars, l ≠ lineComment chars) (blank : isBlank c) :
    LeadAll ls (c :: inserted ++ rest) := by
  induction ls with
  | nil => trivial
  | cons l later ih =>
    rw [List.forall_mem_cons] at valid
    refine ⟨lead.1.insert valid.1 (fun empty => ?_) blank, ih lead.2 valid.2 fun m found => ?_⟩
    · obtain rfl := lead.2.eq_nil empty
      exact last l rfl
    · refine last m ?_
      rw [List.getLast?_cons, found]
      rfl

/-- What makes a token does not begin with a blank. -/
theorem Leads.isBlank_eq_false (leads : l.Leads rest) (solid : l.isTrivia = false) :
    ∀ c ∈ l.source.head?, isBlank c = false := by
  intro c first
  cases l with
  | blank | lineComment | blockComment => contradiction
  | word chars =>
    rcases leads with ⟨rfl, _⟩ | ⟨_, _, body, _⟩
    · cases first
      rfl
    · cases body with
      | nil => contradiction
      | plain plain later =>
        cases first
        exact (isPlain_iff.mp plain).1
      | slash second later =>
        cases first
        rfl
  | invalid chars =>
    rcases leads with ⟨_, rfl, _⟩ | ⟨_, ⟨_, rfl, _⟩ | ⟨_, rfl, _⟩⟩
    all_goals
      cases first
      rfl
  | _ =>
    cases first
    rfl

end Lexeme

namespace Token

open Lexeme (Trivia LeadAll isBlank)

variable {atStatement : Bool} {c : Char} {inserted rest more : List Char} {l : Lexeme}
  {ls before behind : List Lexeme} {t : Token} {text : String} {offset : Nat}

/-- Trivia in front of a text is passed over. -/
theorem bareFrom_trivia (trivia : Trivia inserted) :
    bareFrom atStatement (inserted ++ rest) = bareFrom atStatement rest := by
  induction trivia with
  | nil => rfl
  | blank first later ih => exact (bareFrom_blank first).trans ih
  | @line chars text inside later ih =>
    have leads : (Lexeme.lineComment chars).Leads ('\n' :: (text ++ rest)) := ⟨inside, by simp⟩
    have passed := @bareFrom_of_isTrivia atStatement _ _ rfl leads
    rw [bareFrom_blank rfl, ih] at passed
    simpa [Lexeme.source] using passed
  | @block chars text inside later ih =>
    have leads : (Lexeme.blockComment chars).Leads (text ++ rest) := inside
    have passed := @bareFrom_of_isTrivia atStatement _ _ rfl leads
    rw [ih] at passed
    simpa [Lexeme.source] using passed

/-- Texts that begin with the same lexemes differ no more than what follows these. -/
theorem bareFrom_congr (lead : LeadAll ls rest) (other : LeadAll ls more)
    (same : ∀ atStatement, bareFrom atStatement rest = bareFrom atStatement more) :
    bareFrom atStatement (ls.flatMap Lexeme.source ++ rest) =
      bareFrom atStatement (ls.flatMap Lexeme.source ++ more) := by
  induction ls generalizing atStatement with
  | nil => exact same atStatement
  | cons l later ih =>
    rw [List.flatMap_cons, List.append_assoc, List.append_assoc, bareFrom_append lead.1,
      bareFrom_append other.1, ih lead.2 other.2]

/-- Trivia that begins with a blank can be put in behind any lexemes of which the last is no comment
up to the line's end. -/
theorem bareFrom_insert (lead : LeadAll before rest)
    (valid : ∀ l ∈ before, ∀ chars, l ≠ .invalid chars)
    (last : ∀ l ∈ before.getLast?, ∀ chars, l ≠ .lineComment chars) (blank : isBlank c)
    (trivia : Trivia (c :: inserted)) :
    bareFrom atStatement (before.flatMap Lexeme.source ++ (c :: inserted ++ rest)) =
      bareFrom atStatement (before.flatMap Lexeme.source ++ rest) :=
  bareFrom_congr (lead.insert valid last blank) lead fun _ => bareFrom_trivia trivia

/-- Both ends of a token lie between lexemes, behind one that is no comment up to the line's end. -/
theorem exists_cut (member : t ∈ ofText text) (more : t.isEnd = false)
    (atEnd : offset = t.slice.start ∨ offset = t.slice.stop) :
    ∃ before behind, Lexeme.ofText text.toList = before ++ behind ∧
      offset = Text.byteLength (before.flatMap Lexeme.source) ∧
      ∀ l ∈ before.getLast?, ∀ chars, l ≠ .lineComment chars := by
  obtain ⟨before, l, behind, position, cut, made⟩ := exists_lexeme member more
  have solid := Lexeme.not_isTrivia_of_tokenAt? made
  have lead := Lexeme.leadAll_ofText text.toList
  rw [cut, Lexeme.leadAll_append] at lead
  obtain ⟨_, _, rfl⟩ := Option.map_eq_some_iff.mp made
  rcases atEnd with rfl | rfl
  · refine ⟨before, l :: behind, cut, (Nat.zero_add _), ?_⟩
    rintro m found chars rfl
    -- Such a comment would go on with the token.
    obtain ⟨init, rfl⟩ := List.getLast?_eq_some_iff.mp found
    obtain ⟨_, stops⟩ := (Lexeme.leadAll_append.mp lead.1).2.1
    obtain ⟨c, source, same⟩ := List.exists_cons_of_ne_nil lead.2.1.source_ne_nil
    obtain rfl : c = '\n' := stops c (by simp [same])
    cases lead.2.1.isBlank_eq_false solid '\n' (by simp [same])
  · refine ⟨before ++ [l], behind, by rw [cut, List.append_assoc, List.singleton_append], ?_, ?_⟩
    · simp [Text.byteLength_append]
    · rintro m found chars rfl
      rw [List.getLast?_concat] at found
      cases found
      contradiction

/-- Trivia that begins with a blank, put in at the start or the end of a token, leaves the tokens of
a text without invalid ones as they were, but for their places; so the text is parsed as before, but
for places. -/
theorem ofText_insertAt (valid : ∀ t ∈ ofText text, t.kind ≠ .invalid) (member : t ∈ ofText text)
    (more : t.isEnd = false) (atEnd : offset = t.slice.start ∨ offset = t.slice.stop)
    (trivia : Trivia inserted) (begins : ∃ c ∈ inserted.head?, isBlank c) :
    (ofText (String.ofList (Text.insertAt inserted offset text.toList))).map bare =
      (ofText text).map bare ∧
      ∀ entry options, Parse.bare
        (parse entry options (String.ofList (Text.insertAt inserted offset text.toList))) =
        Parse.bare (parse entry options text) := by
  obtain ⟨before, behind, cut, rfl, last⟩ := exists_cut member more atEnd
  obtain ⟨c, first, blank⟩ := begins
  obtain ⟨inserted, rfl⟩ := List.head?_eq_some_iff.mp first
  have whole := Lexeme.flatMap_source_ofText text.toList
  have lead := Lexeme.leadAll_ofText text.toList
  have valid := not_invalid_of_ofLexemes valid
  rw [cut, List.flatMap_append] at whole
  rw [cut, Lexeme.leadAll_append, List.append_nil] at lead
  rw [cut, List.forall_mem_append] at valid
  have same :
      (ofText (String.ofList
        (Text.insertAt (c :: inserted) (Text.byteLength (before.flatMap Lexeme.source))
        text.toList))).map bare = (ofText text).map bare := by
    rw [bare_ofText, bare_ofText, String.toList_ofList, ← whole, Text.insertAt_byteLength]
    exact bareFrom_insert lead.1 valid.1 last blank trivia
  exact ⟨same, parse_bare same⟩

namespace Sample

/-- A text in which a slash that is a word follows another word. -/
def slashed : String := "x a/;"

def slash : Token := ⟨.string, "/", ⟨⟨0, 3⟩, ⟨0, 4⟩⟩, ⟨3, 4⟩⟩

end Sample

theorem ofText_insertAt_sample :
    (∀ t ∈ ofText Sample.slashed, t.kind ≠ .invalid) ∧ Sample.slash ∈ ofText Sample.slashed ∧
      String.ofList (Text.insertAt " /*\"*///\n".toList 3 Sample.slashed.toList) =
        "x a /*\"*///\n/;" ∧
      (ofText (String.ofList (Text.insertAt " /*\"*///\n".toList 3 Sample.slashed.toList))).map
        bare =
        (ofText Sample.slashed).map bare := by
  have valid : ∀ t ∈ ofText Sample.slashed, t.kind ≠ .invalid := by decide +kernel
  have member : Sample.slash ∈ ofText Sample.slashed := by decide +kernel
  have unclosed : Lexeme.Unclosed ['"'] := Lexeme.splitComment?_eq_none.mp rfl
  have comment : Trivia ['/', '/', '\n'] := @Trivia.line [] [] (by simp) .nil
  have trivia : Trivia " /*\"*///\n".toList := .blank rfl (.block unclosed comment)
  exact ⟨valid, member,
    by decide, (ofText_insertAt valid member rfl (.inl rfl) trivia ⟨' ', rfl, rfl⟩).1⟩

end Token

end Yang
