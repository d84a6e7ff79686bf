import Yang.Lexeme.Quoted

/-! The pieces a text falls into before any is given a meaning: blanks, comments, marks, quoted
strings and words. A text that opens a quote or a comment without closing it has a piece that is
invalid. -/
namespace Yang

inductive Lexeme where
  | blank (chars : List Char)
  /-- `//` and what follows it on the line. -/
  | lineComment (chars : List Char)
  /-- What stands between `/*` and the first `*/`. -/
  | blockComment (chars : List Char)
  | semicolon
  | leftBrace
  | rightBrace
  /-- A `+` that is a word of its own. -/
  | plus
  | word (chars : List Char)
  /-- What stands between double quotes, escapes as they are written. -/
  | doubleQuoted (chars : List Char)
  /-- What stands between single quotes. -/
  | singleQuoted (chars : List Char)
  | invalid (chars : List Char)
deriving DecidableEq

namespace Lexeme

def source : Lexeme → List Char
  | blank chars => chars
  | lineComment chars => '/' :: '/' :: chars
  | blockComment chars => '/' :: '*' :: chars ++ ['*', '/']
  | semicolon => [';']
  | leftBrace => ['\x7b']
  | rightBrace => ['\x7d']
  | plus => ['+']
  | word chars => chars
  | doubleQuoted chars => '"' :: chars ++ ['"']
  | singleQuoted chars => '\'' :: chars ++ ['\'']
  | invalid chars => chars

/-- Blanks and comments, which only keep other lexemes apart. -/
def isTrivia : Lexeme → Bool
  | blank _ | lineComment _ | blockComment _ => true
  | _ => false

/-- Space, tab, carriage return, line feed and form feed; no other character is blank. -/
def isBlank (c : Char) : Bool :=
  c = ' ' || c = '\t' || c = '\r' || c = '\n' || c = '\x0c'

/-- The characters that end a word and are no blanks. -/
def isMark (c : Char) : Bool :=
  c = ';' || c = '\x7b' || c = '\x7d' || c = '"' || c = '\''

/-- The characters a word holds anywhere. -/
def isPlain (c : Char) : Bool := !isBlank c && !isMark c && c ≠ '/'

/-- The characters a word holds behind a slash: none that would open a comment with it. -/
def isPlainAfterSlash (c : Char) : Bool := isPlain c && c ≠ '*'

end Lexeme

end Yang
