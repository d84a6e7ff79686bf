import Yang.Proofs.Token.Placement

/-! A text with another behind it. Where the first ends with a semicolon or a brace that is a token
of its own, nothing in it goes on with the second, whatever is wrong with either; so each of the two
is read as if it stood alone, the second from another place. Only ranges of texts of `2 ^ 32` bytes
and more come out otherwise. -/
namespace Yang

open Text (Short byteLength byteLength_append)

namespace Position

/-- A position of a text, when another text stands in front of it. -/
def shifted (text : List Char) (p : Position) : Position :=
  let stop := origin.advanceOver text
  if p.line = 0 then ⟨stop.line, stop.column + p.column⟩ else ⟨stop.line + p.line, p.column⟩

theorem advance_shifted (text : List Char) (p : Position) (c : Char) :
    (p.shifted text).advance c = (p.advance c).shifted text := by
  by_cases feed : c = '\n'
  · by_cases first : p.line = 0 <;> simp [advance, shifted, feed, first, Nat.add_assoc]
  · by_cases first : p.line = 0 <;> simp [advance, shifted, feed, first, Nat.add_assoc]

theorem advanceOver_shifted (text more : List Char) (p : Position) :
    (p.shifted text).advanceOver more = (p.advanceOver more).shifted text := by
  induction more generalizing p with
  | nil => rfl
  | cons c more ih =>
    have later := ih (p.advance c)
    rw [← advance_shifted] at later
    exact later

theorem advanceOver_origin_append (text more : List Char) :
    origin.advanceOver (text ++ more) = (origin.advanceOver more).shifted text := by
  have start : origin.shifted text = origin.advanceOver text := by simp [shifted, origin]
  rw [advanceOver_append, ← advanceOver_shifted, start]

end Position

namespace Lexeme

/-- The lexemes behind which a statement can begin. -/
def isDelimiter : Lexeme → Bool
  | semicolon | leftBrace | rightBrace => true
  | _ => false

variable {c : Char} {text more : List Char} {l : Lexeme} {ls : List Lexeme} {atStatement : Bool}

theorem isDelimiter_iff : l.isDelimiter ↔ l = semicolon ∨ l = leftBrace ∨ l = rightBrace := by
  cases l <;> simp [isDelimiter]

theorem head?_append_mark (text more : List Char) (c : Char) :
    (text ++ c :: more).head? = (text ++ [c]).head? := by
  cases text <;> rfl

theorem StopsWord.append (stops : StopsWord (text ++ [c])) (mark : isMark c) (more : List Char) :
    StopsWord (text ++ c :: more) := by
  cases text with
  | nil =>
    refine ⟨stops.1, ?_⟩
    rintro rfl
    contradiction
  | cons d text =>
    rw [List.cons_append] at stops ⊢
    refine ⟨stops.1, ?_⟩
    rw [head?_append_mark]
    exact stops.2

theorem Quoted.Stops.append (stops : Quoted.Stops (text ++ [c])) (mark : isMark c)
    (more : List Char) :
    Quoted.Stops (text ++ c :: more) := by
  cases text with
  | nil =>
    rcases stops with quote | ⟨rfl, _⟩
    · exact .inl quote
    · exact absurd mark (by decide)
  | cons d text =>
    rw [List.cons_append] at stops ⊢
    refine stops.imp_right fun ⟨backslash, feed⟩ => ⟨backslash, ?_⟩
    rw [head?_append_mark]
    exact feed

/-- No lexeme goes beyond a mark that stands behind it. -/
theorem Leads.append (leads : l.Leads (text ++ [c])) (mark : isMark c) (more : List Char) :
    l.Leads (text ++ c :: more) := by
  cases l with
  | blank chars | blockComment chars | doubleQuoted chars | singleQuoted chars => exact leads
  | semicolon | leftBrace | rightBrace => trivial
  | lineComment chars =>
    refine ⟨leads.1, ?_⟩
    rw [head?_append_mark]
    exact leads.2
  | plus => exact StopsWord.append leads mark more
  | word chars =>
    refine leads.imp (fun lone => ⟨lone.1, ?_⟩) fun long =>
      ⟨long.1, long.2.1, long.2.2.1, long.2.2.2.append mark more⟩
    rw [head?_append_mark]
    exact lone.2
  | invalid chars =>
    -- A quote or a comment that is not closed reaches to the end of the text, so none stands before
    -- the mark.
    rcases leads with ⟨run, rfl, body, stops, unclosed⟩ | ⟨ended, _⟩
    · refine .inl ⟨run, rfl, body, stops.append mark more, ?_⟩
      rw [head?_append_mark]
      exact unclosed
    · simp at ended

theorem LeadAll.append (lead : LeadAll ls [c]) (mark : isMark c) (more : List Char) :
    LeadAll ls (c :: more) := by
  induction ls with
  | nil => trivial
  | cons l later ih => exact ⟨lead.1.append mark more, ih lead.2⟩

/-- Lexemes up to a delimiter lead every text. -/
theorem leadAll_of_delimiter (delimiter : l.isDelimiter) (lead : LeadAll (ls ++ [l]) [])
    (more : List Char) :
    LeadAll (ls ++ [l]) more := by
  rw [leadAll_append] at lead ⊢
  rcases isDelimiter_iff.mp delimiter with rfl | rfl | rfl
  all_goals exact ⟨lead.1.append rfl more, trivial, trivial⟩

theorem statementBehind_of_delimiter (delimiter : l.isDelimiter) :
    l.statementBehind atStatement = true := by
  rcases isDelimiter_iff.mp delimiter with rfl | rfl | rfl <;> rfl

end Lexeme

namespace Token

open Lexeme (LeadAll)

/-- The tokens that end a statement or begin or end its block. -/
def Kind.isDelimiter : Kind → Bool
  | semicolon | leftBrace | rightBrace => true
  | _ => false

/-- A token of a text, when another text stands in front of it. -/
def shifted (text : List Char) : Token → Token := moved (·.shifted text) (byteLength text)

/-- What a token is, and which bytes its range names. -/
def entry (t : Token) : Kind × String × ByteRange := (t.kind, t.text, t.range.bytes)

/-- The entries of a text with another behind it are those of the first without the end, and those
of the second with their ranges shifted by the bytes of the first. -/
def Appends (text more : String) : Prop :=
  (ofText (text ++ more)).map entry = (ofText text).dropLast.map entry ++
    (ofText more).map fun t =>
      (t.kind, t.text, t.range.bytes.shifted (byteLength text.toList))

/-- The last token of a text is a semicolon or a brace, and the text ends with it. -/
def EndsInDelimiter (text : String) : Prop :=
  ∃ before t last, ofText text = before ++ [t, last] ∧ t.kind.isDelimiter ∧
    t.slice.stop = byteLength text.toList

variable {index : LineIndex} {atStatement : Bool} {offset : Nat} {l : Lexeme} {ls : List Lexeme}
  {rest : List Char} {t : Token} {text more : String}

theorem isDelimiter_of_tokenAt? (made : l.tokenAt? index atStatement offset = some t)
    (delimiter : t.kind.isDelimiter) : l.isDelimiter := by
  have named := Lexeme.token?_of_tokenAt? made
  cases l with
  | semicolon | leftBrace | rightBrace => rfl
  | blank | lineComment | blockComment => contradiction
  | word chars =>
    obtain ⟨kind, _⟩ := Prod.mk.inj (Option.some.inj named)
    rw [← kind] at delimiter
    split at delimiter
    · generalize word : Kind.ofWord (String.ofList chars) = k at delimiter
      cases k with
      | semicolon | leftBrace | rightBrace => exact absurd word (Kind.ofWord_ne rfl _)
      | _ => contradiction
    · contradiction
  | _ =>
    obtain ⟨kind, _⟩ := Prod.mk.inj (Option.some.inj named)
    rw [← kind] at delimiter
    contradiction

/-- The tokens of lexemes, and behind them those of the text that they lead. -/
theorem readFrom_flatMap (lead : LeadAll ls rest) :
    readFrom index atStatement offset (ls.flatMap Lexeme.source ++ rest) =
      (ofLexemes index atStatement offset ls).dropLast ++
        readFrom index (ls.foldl (fun s l => l.statementBehind s) atStatement)
          (offset + byteLength (ls.flatMap Lexeme.source)) rest := by
  induction ls generalizing atStatement offset with
  | nil => rfl
  | cons l later ih =>
    have nonempty : ofLexemes index (l.statementBehind atStatement)
        (offset + byteLength l.source) later ≠ [] := by
      obtain ⟨before, _, closed⟩ := ofLexemes_eq_append index (l.statementBehind atStatement)
        (offset + byteLength l.source) later
      simp [closed]
    rw [List.flatMap_cons, List.append_assoc, readFrom_append lead.1, ih lead.2, ofLexemes_cons,
      List.dropLast_append_of_ne_nil nonempty, List.append_assoc, byteLength_append,
      ← Nat.add_assoc]
    rfl

/-- The lexemes of a text that ends in a delimiter end in one too. -/
theorem EndsInDelimiter.exists_lexemes (ends : EndsInDelimiter text) :
    ∃ before l, Lexeme.ofText text.toList = before ++ [l] ∧ l.isDelimiter := by
  obtain ⟨_, t, last, split, delimiter, stop⟩ := ends
  have member : t ∈ ofText text := by simp [split]
  have more : t.isEnd = false := by
    refine decide_eq_false ?_
    intro same
    rw [same] at delimiter
    contradiction
  obtain ⟨before, l, behind, position, cut, made⟩ := exists_lexeme member more
  have whole := congrArg byteLength (Lexeme.flatMap_source_ofText text.toList)
  have lead := Lexeme.leadAll_ofText text.toList
  rw [cut, Lexeme.leadAll_append] at lead
  -- The token reaches to the end, so there is no room for another lexeme.
  have nothing : behind = [] := by
    refine lead.2.2.eq_nil (Decidable.byContradiction fun nonempty => ?_)
    have width := Text.byteLength_pos nonempty
    obtain ⟨_, _, rfl⟩ := Option.map_eq_some_iff.mp made
    simp only at stop
    rw [cut, List.flatMap_append, List.flatMap_cons, byteLength_append, byteLength_append] at whole
    omega
  rw [nothing] at cut
  exact ⟨before, l, cut, isDelimiter_of_tokenAt? made delimiter⟩

/-- The tokens of the two texts, looked up in the index of both. -/
theorem ofText_append_eq (ends : EndsInDelimiter text) (more : String) :
    let index := LineIndex.ofText (text.toList ++ more.toList)
    ofText (text ++ more) = (ofLexemes index true 0 (Lexeme.ofText text.toList)).dropLast ++
      ofLexemes index true (byteLength text.toList) (Lexeme.ofText more.toList) := by
  intro index
  obtain ⟨before, l, cut, delimiter⟩ := ends.exists_lexemes
  have whole := Lexeme.flatMap_source_ofText text.toList
  have lead := Lexeme.leadAll_ofText text.toList
  rw [cut] at whole lead
  have read := @readFrom_flatMap index true 0 _ _
    (Lexeme.leadAll_of_delimiter delimiter lead more.toList)
  rw [whole, List.foldl_append, List.foldl_cons, List.foldl_nil,
    Lexeme.statementBehind_of_delimiter delimiter, readFrom, readFrom, ← cut, Nat.zero_add] at read
  rw [ofText, String.toList_append]
  exact read

/-- Looked up in an index of more text behind, the tokens of a text stay what they are. -/
theorem ofLexemes_append_left (short : Short (text.toList ++ more.toList)) :
    ofLexemes (.ofText (text.toList ++ more.toList)) true 0 (Lexeme.ofText text.toList) =
      ofText text := by
  have moves := @ofLexemes_moved (.ofText text.toList) (.ofText (text.toList ++ more.toList))
    true 0 0 (Lexeme.ofText text.toList) id ?_
  · rw [moves, funext moved_id, List.map_id']
    rfl
  · intro before behind split
    rw [Lexeme.flatMap_source_ofText] at split
    have within : before ++ (behind ++ more.toList) = text.toList ++ more.toList := by
      rw [← split, List.append_assoc]
    rw [Nat.zero_add, Nat.zero_add, LineIndex.position_of_append short within,
      LineIndex.position_of_append short.of_append.1 split]
    rfl

/-- Looked up in an index of more text in front, the tokens of a text are shifted by this. -/
theorem ofLexemes_append_right (short : Short (text.toList ++ more.toList)) :
    ofLexemes (.ofText (text.toList ++ more.toList)) true (byteLength text.toList)
      (Lexeme.ofText more.toList) = (ofText more).map (shifted text.toList) := by
  refine @ofLexemes_moved (.ofText more.toList) _ true 0 (byteLength text.toList) _ _ ?_
  intro before behind split
  rw [Lexeme.flatMap_source_ofText] at split
  have within : (text.toList ++ before) ++ behind = text.toList ++ more.toList := by
    rw [← split, List.append_assoc]
  rw [Nat.zero_add, ← byteLength_append, LineIndex.position_of_append short within,
    LineIndex.position_of_append short.of_append.2 split, Position.advanceOver_origin_append]

/-- As long as offsets are kept as they are, shifting a token shifts its range. -/
theorem bytes_range_shifted (short : Short (text.toList ++ more.toList))
    (member : t ∈ ofText more) :
    (t.shifted text.toList).range.bytes = t.range.bytes.shifted (byteLength text.toList) := by
  have bounds := slice_of_mem_ofText member
  have total := short
  rw [Short, byteLength_append] at total
  rw [bytes_range_of_mem_ofText short.of_append.2 member]
  refine ByteRange.bytes_kept ?_ ?_
  all_goals
    simp only [shifted, moved, ByteRange.shifted]
    omega

/-- A text of fewer than `2 ^ 32` bytes that ends in a semicolon or a brace has the same tokens
whatever is put behind it, and what is put there has the tokens that it has by itself, but for their
places. Neither has to be free of invalid tokens. -/
theorem ofText_append (ends : EndsInDelimiter text)
    (short : byteLength (text ++ more).toList < UInt32.size) :
    ofText (text ++ more) = (ofText text).dropLast ++ (ofText more).map (shifted text.toList) ∧
      Appends text more := by
  rw [String.toList_append] at short
  have same : ofText (text ++ more) =
      (ofText text).dropLast ++ (ofText more).map (shifted text.toList) := by
    rw [ofText_append_eq ends, ofLexemes_append_left short, ofLexemes_append_right short]
  refine ⟨same, ?_⟩
  rw [Appends, same, List.map_append, List.map_map]
  congr 1
  refine List.map_congr_left fun t member => ?_
  rw [← bytes_range_shifted short member]
  rfl

namespace Sample

/-- A quote that is not closed, broken off where a backslash stands at the end of its line. -/
def broken : String := "\"x\\\n;"

end Sample

theorem ofText_append_sample : EndsInDelimiter Sample.broken ∧
    byteLength (Sample.broken ++ "a '").toList < UInt32.size ∧
    ofText (Sample.broken ++ "a '") =
      (ofText Sample.broken).dropLast ++ (ofText "a '").map (shifted Sample.broken.toList) ∧
    Appends Sample.broken "a '" ∧
    (ofText (Sample.broken ++ "a '")).map (·.kind) =
      [.invalid, .identifier, .semicolon, .identifier, .invalid, .endOfInput] := by
  have ends : EndsInDelimiter Sample.broken :=
    ⟨(ofText Sample.broken).take 2, ⟨.semicolon, ";", ⟨⟨1, 0⟩, ⟨1, 1⟩⟩, ⟨4, 5⟩⟩, .endAt ⟨1, 1⟩ 5,
      by decide +kernel, rfl, by decide +kernel⟩
  have short : byteLength (Sample.broken ++ "a '").toList < UInt32.size := by decide +kernel
  obtain ⟨same, appends⟩ := ofText_append ends short
  exact ⟨ends, short, same, appends, by decide +kernel⟩

namespace Sample

/-- Characters behind a comment of `n + 4` bytes. -/
def behindComment (n : Nat) (rest : List Char) : String :=
  String.ofList ((Lexeme.blockComment (.replicate n 'x')).source ++ rest)

theorem ofText_behindComment (n : Nat) (rest : List Char) : ofText (behindComment n rest) =
    ofLexemes (.ofText (behindComment n rest).toList) true (n + 4) (Lexeme.ofText rest) := by
  have unclosed : Lexeme.Unclosed (.replicate n 'x') := Lexeme.unclosed_of_not_mem (by simp)
  have small : 'x'.utf8Size = 1 := rfl
  have read := ofText_comment_append unclosed rest
  rw [Text.byteLength_replicate, small, Nat.mul_one] at read
  rw [behindComment, read, String.toList_ofList]

theorem byteLength_behindComment (n : Nat) :
    byteLength (behindComment n [';']).toList = n + 5 := by
  have small : 'x'.utf8Size = 1 := rfl
  rw [behindComment, String.toList_ofList, byteLength_append, byteLength_comment,
    Text.byteLength_replicate, small, Nat.mul_one]
  rfl

theorem ofText_semicolon : Lexeme.ofText [';'] = [.semicolon] := by with_unfolding_all rfl

theorem ofText_semicolons : Lexeme.ofText [';', ';'] = [.semicolon, .semicolon] := by
  with_unfolding_all rfl

theorem endsInDelimiter_behindComment (n : Nat) : EndsInDelimiter (behindComment n [';']) := by
  have tokens := ofText_behindComment n [';']
  rw [ofText_semicolon] at tokens
  exact ⟨[], _, _, tokens, rfl, (byteLength_behindComment n).symm⟩

/-- The end of both texts has a range up to which all of their bytes can be counted. -/
theorem lt_of_appends {n : Nat} (appends : Appends (behindComment n [';']) ";") :
    n + 6 < UInt32.size := by
  have both : behindComment n [';'] ++ ";" = behindComment n [';', ';'] := by
    apply String.toList_injective
    simp [behindComment, String.toList_append]
  have alone : ofText ";" = ofLexemes (.ofText [';']) true 0 [.semicolon] := by
    rw [← ofText_semicolon]
    rfl
  rw [Appends, both, ofText_behindComment, ofText_semicolons, byteLength_behindComment,
    alone] at appends
  have last := congrArg List.getLast? appends
  rw [List.getLast?_append] at last
  have ends : (UInt32.ofNat (n + 6)).toNat = n + 5 + 1 :=
    congrArg (·.2.2.start) (Option.some.inj last)
  have bounded := (UInt32.ofNat (n + 6)).toNat_lt
  rwa [ends] at bounded

end Sample

/-- Beyond `2 ^ 32` bytes ranges wrap round, so they are not shifted by the bytes of the text in
front. -/
theorem not_appends_behindComment : EndsInDelimiter (Sample.behindComment UInt32.size [';']) ∧
    ¬ Appends (Sample.behindComment UInt32.size [';']) ";" := by
  refine ⟨Sample.endsInDelimiter_behindComment _, fun appends => ?_⟩
  have bound := Sample.lt_of_appends appends
  omega

end Token

end Yang
