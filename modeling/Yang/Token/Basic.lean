import Yang.Source.Position
import Yang.Statement.Kind

/-! Tokens: what a parser reads one at a time. The kind says which of them it is; the text of a
string is its value, that of any other token is how it was written. -/
namespace Yang

inductive Token.Kind where
  /-- A word in statement position that is no keyword, such as `ext:annotation`. -/
  | identifier
  | string
  | plus
  | leftBrace
  | rightBrace
  | semicolon
  | keyword (word : Keyword)
  | deviate
  | endOfInput
  /-- Text that is no token. -/
  | invalid
deriving DecidableEq

namespace Token.Kind

/-- The kind of token that a word makes in statement position. -/
def ofWord (word : String) : Kind :=
  match Keyword.ofName? word with
  | some k => keyword k
  | none => if word = "deviate" then deviate else identifier

/-- The kind of statement that a token starts by itself. -/
def statementKind? : Kind → Option Statement.Kind
  | keyword k => some (.core k)
  | identifier => some .extension
  | _ => none

/-- Keywords, `deviate` among them. -/
def isKeyword : Kind → Bool
  | keyword _ | deviate => true
  | _ => false

/-- The tokens that begin a statement somewhere: keywords and identifiers. -/
def startsStatement (k : Kind) : Bool := k.isKeyword || k = identifier

def isArgument : Kind → Bool
  | string | identifier => true
  | _ => false

def displayName : Kind → String
  | identifier => "identifier"
  | string => "string"
  | plus => "'+'"
  | leftBrace => "'\x7b'"
  | rightBrace => "'\x7d'"
  | semicolon => "';'"
  | keyword k => k.name
  | deviate => "keyword 'deviate'"
  | endOfInput => "end of input"
  | invalid => "invalid token"

end Token.Kind

/-- A token, with its span and the bytes that stand for it in a text. -/
structure Token where
  kind : Token.Kind
  text : String
  span : Span
  slice : ByteRange
deriving DecidableEq

namespace Token

/-- The range that is kept of the bytes of a token. -/
def range (t : Token) : TextRange := t.slice.kept

/-- The end of the input, at a place of no width. -/
def endAt (position : Position) (offset : Nat) : Token :=
  ⟨.endOfInput, "", .empty position, .empty offset⟩

def isEnd (t : Token) : Bool := t.kind = .endOfInput

def describe (t : Token) : String :=
  match t.kind with
  | .endOfInput => "end of input"
  | .string => s!"string \"{t.text}\""
  | .identifier => s!"identifier '{t.text}'"
  | _ => s!"'{t.text}'"

end Token

end Yang
