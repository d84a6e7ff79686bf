import Yang.Diagnostic.Structural

/-! Syntax errors, and the failures of a whole parse. A syntax error ends the parse at a token;
structural errors are reported together. -/
namespace Yang

structure SyntaxError where
  code : Diagnostic.Code
  message : String
  span : Span
  expected : List String
  found : String
  hint : Option String
deriving DecidableEq

namespace SyntaxError

instance : ToString SyntaxError where
  toString e := s!"{e.code} at {e.span}: {e.message}"

/-- The error with its hint, if it has one, on a line of its own. -/
def format (e : SyntaxError) : String :=
  match e.hint with
  | some hint => s!"{e}\n  hint: {hint}"
  | none => toString e

end SyntaxError

inductive ParseError where
  | syntactic (error : SyntaxError)
  | structural (errors : List StructuralError)
deriving DecidableEq

namespace ParseError

def codes : ParseError → List Diagnostic.Code
  | syntactic e => [e.code]
  | structural es => es.map (·.code)

instance : ToString ParseError where
  toString
    | syntactic e => toString e
    | structural es =>
      String.join (s!"{es.length} structural error(s)" :: es.map fun e => s!"\n  {e}")

end ParseError

end Yang
