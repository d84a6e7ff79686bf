import Yang.Proofs.Lexeme.Leads
import Yang.Proofs.Token.Bare
import Yang.Token.OfText

/-! How a text is read, lexeme by lexeme. What begins with a lexeme gives the token that this makes,
if any, and is read on behind it; what else there is to say of the tokens of a text follows from
this law. The index in which positions are looked up need not be that of the text. -/
namespace Yang

open Text (byteLength byteLength_append)

theorem Token.Kind.startsStatement_ofWord (word : String) : (ofWord word).startsStatement := by
  unfold ofWord
  repeat' split
  all_goals rfl

theorem Token.Kind.ofWord_ne {k : Kind} (other : k.startsStatement = false) (word : String) :
    ofWord word ≠ k := by
  rintro rfl
  rw [startsStatement_ofWord] at other
  contradiction

namespace Lexeme

variable {index : LineIndex} {atStatement : Bool} {offset : Nat} {l : Lexeme} {t : Token}

/-- The token that a lexeme makes where it begins at a byte. -/
def tokenAt? (index : LineIndex) (atStatement : Bool) (offset : Nat) (l : Lexeme) : Option Token :=
  (l.token? atStatement).map fun (kind, text) =>
    let slice : ByteRange := ⟨offset, offset + byteLength l.source⟩
    ⟨kind, text, index.span slice.kept, slice⟩

theorem token?_eq_none : l.token? atStatement = none ↔ l.isTrivia := by
  cases l <;> simp [token?, isTrivia]

theorem tokenAt?_eq_none : l.tokenAt? index atStatement offset = none ↔ l.isTrivia := by
  rw [tokenAt?, Option.map_eq_none_iff, token?_eq_none]

theorem not_isTrivia_of_tokenAt? (made : l.tokenAt? index atStatement offset = some t) :
    l.isTrivia = false := by
  rw [← Bool.not_eq_true, ← tokenAt?_eq_none, made]
  simp

theorem token?_of_tokenAt? (made : l.tokenAt? index atStatement offset = some t) :
    l.token? atStatement = some (t.kind, t.text) := by
  obtain ⟨_, named, rfl⟩ := Option.map_eq_some_iff.mp made
  exact named

/-- No lexeme makes the end of the input. -/
theorem isEnd_of_tokenAt? (made : l.tokenAt? index atStatement offset = some t) :
    t.isEnd = false := by
  have named := token?_of_tokenAt? made
  refine decide_eq_false ?_
  cases l with
  | blank | lineComment | blockComment => contradiction
  | word chars =>
    obtain ⟨kind, _⟩ := Prod.mk.inj (Option.some.inj named)
    rw [← kind]
    split
    · exact Token.Kind.ofWord_ne rfl _
    · simp
  | _ =>
    obtain ⟨kind, _⟩ := Prod.mk.inj (Option.some.inj named)
    simp [← kind]

theorem statementBehind_of_isTrivia (trivia : l.isTrivia) :
    l.statementBehind atStatement = atStatement := by
  cases l <;> first | rfl | contradiction

end Lexeme

namespace Token

open Lexeme (isBlank)

variable {index : LineIndex} {atStatement : Bool} {offset : Nat} {l : Lexeme} {ls : List Lexeme}
  {rest : List Char} {c : Char} {t : Token}

theorem ofLexemes_cons (index : LineIndex) (atStatement : Bool) (offset : Nat) (l : Lexeme)
    (later : List Lexeme) : ofLexemes index atStatement offset (l :: later) =
      (l.tokenAt? index atStatement offset).toList ++
        ofLexemes index (l.statementBehind atStatement) (offset + byteLength l.source) later := by
  simp only [ofLexemes, Lexeme.tokenAt?]
  cases l.token? atStatement <;> rfl

/-- The tokens of a text that is read from a byte on. -/
def readFrom (index : LineIndex) (atStatement : Bool) (offset : Nat) (text : List Char) :
    List Token :=
  ofLexemes index atStatement offset (Lexeme.ofText text)

theorem readFrom_cons (index : LineIndex) (atStatement : Bool) (offset : Nat) (c : Char)
    (text : List Char) : readFrom index atStatement offset (c :: text) =
      ((Lexeme.scan c text).1.tokenAt? index atStatement offset).toList ++
        readFrom index ((Lexeme.scan c text).1.statementBehind atStatement)
          (offset + byteLength (Lexeme.scan c text).1.source) (Lexeme.scan c text).2 := by
  rw [readFrom, Lexeme.ofText, ofLexemes_cons, readFrom]

/-- Blanks in front of a text are passed over. -/
theorem readFrom_dropWhile (index : LineIndex) (atStatement : Bool) (offset : Nat)
    (text : List Char) : readFrom index atStatement offset text =
      readFrom index atStatement (offset + byteLength (text.takeWhile isBlank))
        (text.dropWhile isBlank) := by
  cases text with
  | nil => rfl
  | cons c text =>
    cases blank : isBlank c with
    | true =>
      have cut : Lexeme.scan c text =
          (.blank (c :: text.takeWhile isBlank), text.dropWhile isBlank) := by
        simp [Lexeme.scan, blank]
      rw [readFrom_cons, cut, List.takeWhile_cons_of_pos blank, List.dropWhile_cons_of_pos blank]
      rfl
    | false => simp [blank, byteLength]

/-- Reading what begins with a lexeme. -/
theorem readFrom_append (leads : l.Leads rest) :
    readFrom index atStatement offset (l.source ++ rest) =
      (l.tokenAt? index atStatement offset).toList ++
        readFrom index (l.statementBehind atStatement) (offset + byteLength l.source) rest := by
  cases gap : l.isGap with
  | true =>
    -- More blanks behind belong to the same lexeme, so both sides are read from the first
    -- character that is none.
    cases l with
    | blank chars =>
      have read := readFrom_dropWhile index atStatement offset (chars ++ rest)
      rw [List.takeWhile_append_of_pos leads.2, List.dropWhile_append_of_pos leads.2,
        byteLength_append, ← Nat.add_assoc, ← readFrom_dropWhile] at read
      exact read
    | _ => contradiction
  | false =>
    cases whole : l.source ++ rest with
    | nil => exact absurd (List.append_eq_nil_iff.mp whole).1 leads.source_ne_nil
    | cons c text => rw [readFrom_cons, Lexeme.scan_of_leads leads gap whole]

/-- The tokens of lexemes are closed by the one that is the end. -/
theorem ofLexemes_eq_append (index : LineIndex) (atStatement : Bool) (offset : Nat)
    (ls : List Lexeme) : ∃ before, (∀ t ∈ before, t.isEnd = false) ∧
      ofLexemes index atStatement offset ls = before ++
        [.endAt (index.position (.ofNat (offset + byteLength (ls.flatMap Lexeme.source))))
          (offset + byteLength (ls.flatMap Lexeme.source))] := by
  induction ls generalizing atStatement offset with
  | nil => exact ⟨[], by simp, rfl⟩
  | cons l later ih =>
    obtain ⟨before, more, same⟩ := ih (l.statementBehind atStatement) (offset + byteLength l.source)
    refine ⟨(l.tokenAt? index atStatement offset).toList ++ before, ?_, ?_⟩
    · rw [List.forall_mem_append]
      exact ⟨fun t made => Lexeme.isEnd_of_tokenAt? (Option.mem_toList.mp made), more⟩
    · rw [ofLexemes_cons, same, List.flatMap_cons, byteLength_append, List.append_assoc,
        Nat.add_assoc]

/-- The tokens of a text are closed by the end of the input behind all of it. -/
theorem ofText_eq_append (text : String) : ∃ before position, (∀ t ∈ before, t.isEnd = false) ∧
    ofText text = before ++ [.endAt position (byteLength text.toList)] := by
  obtain ⟨before, more, closed⟩ :=
    ofLexemes_eq_append (.ofText text.toList) true 0 (Lexeme.ofText text.toList)
  rw [Lexeme.flatMap_source_ofText, Nat.zero_add] at closed
  exact ⟨before, _, more, closed⟩

/-- Where lexemes stand makes no difference to what their tokens are. -/
theorem bare_ofLexemes (index other : LineIndex) (atStatement : Bool) (offset further : Nat)
    (ls : List Lexeme) : (ofLexemes index atStatement offset ls).map bare =
      (ofLexemes other atStatement further ls).map bare := by
  induction ls generalizing atStatement offset further with
  | nil => rfl
  | cons l later ih =>
    rw [ofLexemes_cons, ofLexemes_cons, List.map_append, List.map_append,
      ih _ _ (further + byteLength l.source)]
    congr 1
    unfold Lexeme.tokenAt?
    cases l.token? atStatement <;> rfl

/-- The kinds and texts of the tokens of a text. -/
def bareFrom (atStatement : Bool) (text : List Char) : List Token :=
  (readFrom (.ofText text) atStatement 0 text).map bare

theorem bare_readFrom (index : LineIndex) (atStatement : Bool) (offset : Nat) (text : List Char) :
    (readFrom index atStatement offset text).map bare = bareFrom atStatement text :=
  bare_ofLexemes _ _ _ _ _ _

theorem bare_ofText (text : String) : (ofText text).map bare = bareFrom true text.toList := rfl

theorem bareFrom_append (leads : l.Leads rest) : bareFrom atStatement (l.source ++ rest) =
    (l.token? atStatement).toList.map (fun (kind, text) => .unplaced kind text) ++
      bareFrom (l.statementBehind atStatement) rest := by
  rw [bareFrom, readFrom_append leads, List.map_append, bare_readFrom]
  congr 1
  unfold Lexeme.tokenAt?
  cases l.token? atStatement <;> rfl

/-- Trivia in front of a text makes no difference. -/
theorem bareFrom_of_isTrivia (trivia : l.isTrivia) (leads : l.Leads rest) :
    bareFrom atStatement (l.source ++ rest) = bareFrom atStatement rest := by
  rw [bareFrom_append leads, Lexeme.token?_eq_none.mpr trivia,
    Lexeme.statementBehind_of_isTrivia trivia]
  rfl

theorem bareFrom_blank (blank : isBlank c) :
    bareFrom atStatement (c :: rest) = bareFrom atStatement rest := by
  have gap : (Lexeme.blank [c]).Leads rest := ⟨by simp, by simpa using blank⟩
  exact bareFrom_of_isTrivia rfl gap

theorem byteLength_comment (inside : List Char) :
    byteLength (Lexeme.blockComment inside).source = byteLength inside + 4 := by
  have split : (Lexeme.blockComment inside).source = ['/', '*'] ++ inside ++ ['*', '/'] := by
    simp [Lexeme.source]
  have opening : byteLength ['/', '*'] = 2 := rfl
  have closing : byteLength ['*', '/'] = 2 := rfl
  rw [split, byteLength_append, byteLength_append, opening, closing]
  omega

/-- A text that begins with a comment is read from behind it on. -/
theorem ofText_comment_append {inside : List Char} (unclosed : Lexeme.Unclosed inside)
    (rest : List Char) :
    ofText (String.ofList ((Lexeme.blockComment inside).source ++ rest)) =
      ofLexemes (.ofText ((Lexeme.blockComment inside).source ++ rest)) true
        (byteLength inside + 4) (Lexeme.ofText rest) := by
  have leads : (Lexeme.blockComment inside).Leads rest := unclosed
  have read := @readFrom_append (.ofText ((Lexeme.blockComment inside).source ++ rest)) true 0 _ _
    leads
  rw [byteLength_comment, Nat.zero_add] at read
  rw [ofText, String.toList_ofList]
  exact read

/-- A token that is not the end is made by one of the lexemes, behind those before it. -/
theorem exists_lexeme (member : t ∈ ofLexemes index atStatement offset ls)
    (more : t.isEnd = false) : ∃ before l behind atStatement, ls = before ++ l :: behind ∧
      l.tokenAt? index atStatement (offset + byteLength (before.flatMap Lexeme.source)) =
        some t := by
  induction ls generalizing atStatement offset with
  | nil =>
    obtain rfl := List.mem_singleton.mp member
    contradiction
  | cons l later ih =>
    rw [ofLexemes_cons, List.mem_append, Option.mem_toList] at member
    rcases member with first | member
    · exact ⟨[], l, later, atStatement, rfl, first⟩
    · obtain ⟨before, m, behind, position, rfl, made⟩ := ih member
      refine ⟨l :: before, m, behind, position, rfl, ?_⟩
      rw [List.flatMap_cons, byteLength_append, ← Nat.add_assoc]
      exact made

/-- Without an invalid token there is no invalid lexeme. -/
theorem not_invalid_of_ofLexemes
    (valid : ∀ t ∈ ofLexemes index atStatement offset ls, t.kind ≠ .invalid) :
    ∀ l ∈ ls, ∀ chars, l ≠ .invalid chars := by
  induction ls generalizing atStatement offset with
  | nil => simp
  | cons l later ih =>
    rw [ofLexemes_cons, List.forall_mem_append] at valid
    refine List.forall_mem_cons.mpr ⟨?_, ih valid.2⟩
    rintro chars rfl
    exact valid.1 _ (List.mem_singleton.mpr rfl) rfl

end Token

end Yang
