import Yang.Parse.State
import Yang.Token.OfText
import Yang.Token.Stream

/-! Parsing a supply of tokens, a text, or several texts. Structural errors are collected until the
unit is complete, unless the first block that has any is to end the parse; a syntax error ends it at
once and is all that is reported. -/
namespace Yang

/-- What became of a parse, how many tokens it read, and what it left. -/
structure Parse where
  result : Except ParseError Statement
  advances : Nat
  rest : TokenStream

namespace Parse

def conclude (σ : State) (found : Array StructuralError) (last : Token) :
    Except ParseError Statement :=
  match σ.ending with
  | .error fault => .error (.syntactic (fault.toError last))
  | .ok s => if found.isEmpty then .ok s else .error (.structural found.toList)

/-- Reads on from a state in which structural errors have been found and tokens have been read. -/
def run (options : Options) (σ : State) (found : Array StructuralError) (read : Nat)
    (tokens : TokenStream) :
    Parse :=
  if _ : tokens.next.isEnd then ⟨conclude σ found tokens.next, read, tokens⟩
  else
    match σ.step options.strictHeaderOrder tokens.next with
    | .error fault => ⟨.error (.syntactic (fault.toError tokens.next)), read, tokens⟩
    | .ok (σ, violations) =>
      if options.failFast && !violations.isEmpty then
        ⟨.error (.structural violations), read + 1, tokens.advance⟩
      else run options σ (found ++ violations) (read + 1) tokens.advance
termination_by tokens.pending.length
decreasing_by simp_all [TokenStream.pending_eq_cons]

end Parse

def parseTokens (entry : Entry) (options : Options) (tokens : TokenStream) : Parse :=
  Parse.run options (.initial entry) #[] 0 tokens

def parse (entry : Entry) (options : Options) (text : String) : Except ParseError Statement :=
  (parseTokens entry options (.ofList (Token.ofText text))).result

/-- Parses texts each on its own. -/
def parseAll (options : Options) (texts : List String) : List (Except ParseError Statement) :=
  texts.map (parse .anyUnit options)

end Yang
