import Yang.Proofs.Lexeme.Word
import Yang.Proofs.Statement.Rendering
import Yang.Proofs.Token.OfText

/-! Spelling an argument. Its value falls into pieces, each of which stands in quotes of either kind
or as a word, and the pieces are joined by `+` between blanks. However that is done, the tokens
spell the value. -/
namespace Yang

open Text (byteLength byteLength_append)

namespace Lexeme

/-- What stands in double quotes for a value. Quotes and backslashes are escaped; line feeds and
tabs may be. -/
inductive Quoted.Writes : List Char → List Char → Prop where
  | nil : Writes [] []
  | plain (quote : c ≠ '"') (backslash : c ≠ '\\') (later : Writes value inside) :
    Writes (c :: value) (c :: inside)
  | escape (stands : escape? d = some c) (later : Writes value inside) :
    Writes (c :: value) ('\\' :: d :: inside)

/-- Blanks that keep two lexemes apart. -/
def Gap (gap : List Char) : Prop := gap ≠ [] ∧ ∀ c ∈ gap, isBlank c

/-- A piece of an argument, as a string in double quotes, in single quotes, or as a word. -/
inductive SpellsPiece : List Char → List Char → Prop where
  | double (writes : Quoted.Writes value inside) : SpellsPiece value ('"' :: inside ++ ['"'])
  | single (quote : '\'' ∉ value) : SpellsPiece value ('\'' :: value ++ ['\''])
  | bare (word : IsWord value) : SpellsPiece value value

/-- The pieces of an argument, joined by `+` between blanks. -/
inductive SpellsText : List Char → List Char → Prop where
  | piece (piece : SpellsPiece value written) : SpellsText value written
  | join (earlier : SpellsText value written) (before : Gap gap) (behind : Gap gap')
    (piece : SpellsPiece more written') :
    SpellsText (value ++ more) (written ++ (gap ++ '+' :: (gap' ++ written')))

variable {value inside written rest gap pad : List Char} {c : Char}

theorem Quoted.Writes.body (writes : Writes value inside) : Body inside := by
  induction writes with
  | nil => exact .nil
  | plain quote backslash later ih => exact .plain quote backslash ih
  | escape stands later ih =>
    refine .escape ?_ ih
    rintro rfl
    contradiction

theorem Quoted.Writes.decode_eq (writes : Writes value inside) : decode inside = value := by
  induction writes with
  | nil => rfl
  | plain quote backslash later ih => rw [decode_cons backslash, ih]
  | escape stands later ih => simp [decode, stands, ih]

/-- Every value can be written. -/
theorem Quoted.writes_encode (value : List Char) : Writes value (encode value) := by
  induction value with
  | nil => exact .nil
  | cons c value ih =>
    unfold encode
    split
    · rename_i marked
      rcases marked with rfl | rfl <;> exact .escape rfl ih
    · rename_i plain
      rw [not_or] at plain
      exact .plain plain.1 plain.2 ih

theorem apart_of_ends (ends : c = ';' ∨ c = '\x7b') (rest : List Char) : Apart (c :: rest) := by
  intro d first
  cases first
  rcases ends with rfl | rfl <;> exact .inr rfl

theorem Gap.apart (apart : Gap gap) (rest : List Char) : Apart (gap ++ rest) := by
  obtain ⟨nonempty, blank⟩ := apart
  cases gap with
  | nil => contradiction
  | cons b gap => exact apart_of_isBlank (blank b List.mem_cons_self) _

theorem Apart.append (apart : Apart rest) (blank : ∀ b ∈ pad, isBlank b) : Apart (pad ++ rest) := by
  cases pad with
  | nil => exact apart
  | cons b pad => exact apart_of_isBlank (blank b List.mem_cons_self) _

/-- A piece is one lexeme, which makes a string of its value. -/
theorem SpellsPiece.exists_lexeme (piece : SpellsPiece value written) :
    ∃ l : Lexeme, l.source = written ∧
    (∀ rest, Apart rest → l.Leads rest) ∧ l.token? false = some (.string, String.ofList value) ∧
      l.statementBehind false = false := by
  cases piece with
  | double writes =>
    refine ⟨.doubleQuoted _, rfl, fun _ _ => writes.body, ?_, rfl⟩
    rw [token?, writes.decode_eq]
  | single quote => exact ⟨.singleQuoted _, rfl, fun _ _ => quote, rfl, rfl⟩
  | bare word => exact ⟨.word _, rfl, fun _ apart => word.leads apart, rfl, rfl⟩

end Lexeme

namespace Token

open Lexeme (IsWord Gap SpellsPiece SpellsText Apart isBlank)

variable {value written rest word gap gap' pad : List Char} {index : LineIndex} {atStatement : Bool}
  {l : Lexeme} {kind : Kind} {text : String} {c : Char}

/-- A lexeme that is no trivia makes a token, from the place where it stands on. -/
theorem readFrom_of_token? (offset : Nat) (leads : l.Leads rest)
    (named : l.token? atStatement = some (kind, text)) :
    ∃ t, t.kind = kind ∧ t.text = text ∧ t.slice.start = offset ∧
      readFrom index atStatement offset (l.source ++ rest) =
        t :: readFrom index (l.statementBehind atStatement)
          (offset + byteLength l.source) rest := by
  let slice : ByteRange := ⟨offset, offset + byteLength l.source⟩
  refine ⟨⟨kind, text, index.span slice.kept, slice⟩, rfl, rfl, rfl, ?_⟩
  rw [readFrom_append leads, Lexeme.tokenAt?, named]
  rfl

theorem readFrom_blank (atStatement : Bool) (offset : Nat) (blank : ∀ c ∈ gap, isBlank c)
    (rest : List Char) : readFrom index atStatement offset (gap ++ rest) =
      readFrom index atStatement (offset + byteLength gap) rest := by
  cases gap with
  | nil => rfl
  | cons c gap =>
    have leads : (Lexeme.blank (c :: gap)).Leads rest := ⟨List.cons_ne_nil c gap, blank⟩
    exact readFrom_append leads

theorem readFrom_piece (offset : Nat) (piece : SpellsPiece value written) (apart : Apart rest) :
    ∃ t, t.kind = .string ∧ t.text = String.ofList value ∧
      readFrom index false offset (written ++ rest) =
        t :: readFrom index false (offset + byteLength written) rest := by
  obtain ⟨l, rfl, leads, named, behind⟩ := piece.exists_lexeme
  obtain ⟨t, kind, text, _, read⟩ := readFrom_of_token? offset (leads rest apart) named
  rw [behind] at read
  exact ⟨t, kind, text, read⟩

theorem readFrom_join (offset : Nat) (before : Gap gap) (behind : Gap gap')
    (piece : SpellsPiece value written) (apart : Apart rest) :
    ∃ p t, p.kind = .plus ∧ t.kind = .string ∧ t.text = String.ofList value ∧
      readFrom index false offset (gap ++ '+' :: (gap' ++ written) ++ rest) =
        p :: t :: readFrom index false
          (offset + byteLength (gap ++ '+' :: (gap' ++ written))) rest := by
  have leads : Lexeme.plus.Leads (gap' ++ (written ++ rest)) := (behind.apart _).stopsWord
  have named : Lexeme.plus.token? false = some (.plus, "+") := rfl
  obtain ⟨p, plus, _, _, joined⟩ :=
    @readFrom_of_token? _ index _ _ _ _ (offset + byteLength gap) leads named
  obtain ⟨t, kind, text, read⟩ := @readFrom_piece _ _ _ index
    (offset + byteLength gap + byteLength ['+'] + byteLength gap') piece apart
  refine ⟨p, t, plus, kind, text, ?_⟩
  have whole : gap ++ '+' :: (gap' ++ written) ++ rest =
      gap ++ (['+'] ++ (gap' ++ (written ++ rest))) := by simp
  have place : offset + byteLength (gap ++ '+' :: (gap' ++ written)) =
      offset + byteLength gap + byteLength ['+'] + byteLength gap' + byteLength written := by
    simp only [byteLength_append, byteLength]
    omega
  rw [whole, readFrom_blank _ _ before.2, place]
  refine joined.trans (congrArg (p :: ·) ?_)
  exact (readFrom_blank _ _ behind.2 _).trans read

/-- However an argument is spelled, its tokens spell its value. -/
theorem readFrom_spelled (offset : Nat) (spells : SpellsText value written) (apart : Apart rest) :
    ∃ arg, Spells (String.ofList value) arg ∧ readFrom index false offset (written ++ rest) =
      arg ++ readFrom index false (offset + byteLength written) rest := by
  induction spells generalizing rest with
  | piece piece =>
    obtain ⟨t, kind, text, read⟩ := readFrom_piece offset piece apart
    refine ⟨[t], ?_, read⟩
    rw [← text]
    exact .piece (by rw [kind]; rfl)
  | @join value written gap gap' more written' earlier before behind piece ih =>
    have next : Apart (gap ++ '+' :: (gap' ++ written') ++ rest) := by
      rw [List.append_assoc]
      exact before.apart _
    obtain ⟨arg, spells, read⟩ := ih next
    obtain ⟨p, t, plus, kind, text, joined⟩ :=
      readFrom_join (offset + byteLength written) before behind piece apart
    refine ⟨arg ++ [p, t], ?_, ?_⟩
    · rw [String.ofList_append, ← text]
      exact .join spells plus kind
    · rw [List.append_assoc, read, joined, Nat.add_assoc, ← byteLength_append, List.append_assoc]
      rfl

/-- The token that ends an argument starts where the text before it ends. -/
theorem readFrom_terminator (atStatement : Bool) (offset : Nat) (ends : c = ';' ∨ c = '\x7b')
    (rest : List Char) :
    ∃ t, t.kind = (if c = ';' then .semicolon else .leftBrace) ∧ t.slice.start = offset ∧
      readFrom index atStatement offset (c :: rest) =
        t :: readFrom index true (offset + byteLength [c]) rest := by
  rcases ends with rfl | rfl
  · have leads : Lexeme.semicolon.Leads rest := trivial
    have named : Lexeme.semicolon.token? atStatement = some (.semicolon, ";") := rfl
    obtain ⟨t, kind, _, start, read⟩ := readFrom_of_token? offset leads named
    exact ⟨t, kind, start, read⟩
  · have leads : Lexeme.leftBrace.Leads rest := trivial
    have named : Lexeme.leftBrace.token? atStatement = some (.leftBrace, "\x7b") := rfl
    obtain ⟨t, kind, _, start, read⟩ := readFrom_of_token? offset leads named
    exact ⟨t, kind, start, read⟩

/-- Where a word stands in statement position, with an argument behind it that a semicolon or a
brace ends, the tokens are a keyword or an identifier, what spells the argument, and the one that
ends it. -/
theorem readFrom_statement (offset : Nat) (isWord : IsWord word) (apart : Gap gap)
    (spells : SpellsText value written) (blank : ∀ b ∈ pad, isBlank b)
    (ends : c = ';' ∨ c = '\x7b') (more : List Char) : ∃ t arg last later,
      readFrom index true offset (word ++ gap ++ written ++ pad ++ c :: more) =
        t :: (arg ++ last :: later) ∧
      t.kind = .ofWord (String.ofList word) ∧ Spells (String.ofList value) arg ∧
      last.kind = (if c = ';' then .semicolon else .leftBrace) ∧
      last.slice.start = offset + byteLength (word ++ gap ++ written ++ pad) := by
  let open_ := pad ++ c :: more
  let inner := offset + byteLength word + byteLength gap
  let outer := inner + byteLength written + byteLength pad
  have named : (Lexeme.word word).token? true = some
    (.ofWord (String.ofList word), String.ofList word) := rfl
  obtain ⟨t, kind, _, _, first⟩ :=
    readFrom_of_token? offset (isWord.leads (apart.apart (written ++ open_))) named
  obtain ⟨arg, spelled, inside⟩ :=
    readFrom_spelled inner spells ((Lexeme.apart_of_ends ends more).append blank)
  obtain ⟨last, ended, start, terminated⟩ := readFrom_terminator false outer ends more
  refine ⟨t, arg, last, readFrom index true (outer + byteLength [c]) more, ?_, kind, spelled,
    ended, ?_⟩
  · calc
      _ = readFrom index true offset (word ++ (gap ++ (written ++ open_))) := by simp [open_]
      _ = t :: readFrom index false (offset + byteLength word) (gap ++ (written ++ open_)) := first
      _ = t :: readFrom index false inner (written ++ open_) := by rw [readFrom_blank _ _ apart.2]
      _ = t :: (arg ++ readFrom index false (inner + byteLength written) open_) := by rw [inside]
      _ = t :: (arg ++ readFrom index false outer (c :: more)) := by rw [readFrom_blank _ _ blank]
      _ = t :: (arg ++ last :: readFrom index true (outer + byteLength [c]) more) := by
        rw [terminated]
  · rw [start]
    simp only [outer, inner, byteLength_append, Nat.add_assoc]

end Token

end Yang
