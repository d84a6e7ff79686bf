import Yang.Lexeme.OfText
import Yang.Source.LineIndex
import Yang.Token.Basic

/-! The tokens of a text. A word is a keyword or an identifier where a statement can begin, and an
argument anywhere else; trivia makes no token. Tokens have the positions that the line index of the
text gives to the offsets that are kept of them. -/
namespace Yang

namespace Lexeme

/-- The kind and text of the token a lexeme makes, in statement position or not. -/
def token? (atStatement : Bool) : Lexeme → Option (Token.Kind × String)
  | blank _ | lineComment _ | blockComment _ => none
  | semicolon => some (.semicolon, ";")
  | leftBrace => some (.leftBrace, "\x7b")
  | rightBrace => some (.rightBrace, "\x7d")
  | plus => some (.plus, "+")
  | word chars =>
    let text := String.ofList chars
    some (if atStatement then .ofWord text else .string, text)
  | doubleQuoted chars => some (.string, String.ofList (Quoted.decode chars))
  | singleQuoted chars => some (.string, String.ofList chars)
  | invalid chars => some (.invalid, String.ofList chars)

/-- Whether a statement can begin behind a lexeme: always behind `;` and braces, never behind a word
or a string; nothing else makes a difference. -/
def statementBehind (atStatement : Bool) : Lexeme → Bool
  | semicolon | leftBrace | rightBrace => true
  | word _ | doubleQuoted _ | singleQuoted _ => false
  | _ => atStatement

end Lexeme

namespace Token

/-- The tokens of lexemes that stand in an indexed text from a byte on, closed by the end of the
input. -/
def ofLexemes (index : LineIndex) (atStatement : Bool) (offset : Nat) : List Lexeme → List Token
  | [] => [.endAt (index.position (.ofNat offset)) offset]
  | l :: later =>
    let slice : ByteRange := ⟨offset, offset + Text.byteLength l.source⟩
    let tokens := ofLexemes index (l.statementBehind atStatement) slice.stop later
    match l.token? atStatement with
    | none => tokens
    | some (kind, text) => ⟨kind, text, index.span slice.kept, slice⟩ :: tokens

/-- The tokens of a text; a statement can begin at its start. -/
def ofText (text : String) : List Token :=
  ofLexemes (.ofText text.toList) true 0 (Lexeme.ofText text.toList)

end Token

end Yang
