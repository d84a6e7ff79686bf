import Yang.Grammar.Substatements
import Yang.Token.Basic

/-! How a statement begins. Its first token tells its kind, but for `deviate`, where the argument
does; inside an extension statement every statement is taken for one that only the extension can
explain. -/
namespace Yang.Parse

open Grammar

/-- What is known of a statement from its first token: its kind, but for `deviate`, whose argument
tells. -/
inductive Starter where
  | kind (k : Statement.Kind)
  | deviate
deriving DecidableEq

namespace Starter

def displayName : Starter → String
  | kind k => k.displayName
  | deviate => "deviate"

def resolve? (argument : String) : Starter → Option Statement.Kind
  | kind k => some k
  | deviate => (DeviateForm.ofArgument? argument).map .deviate

/-- What a token starts in a block with the given rules. -/
def ofRules? (rules : List Substatement) (t : Token.Kind) : Option Starter :=
  if t = .deviate then if rules.any (·.kind.isDeviate) then some deviate else none
  else (t.statementKind?.filter (permits rules)).map kind

def inside? (parent : Statement.Kind) (t : Token.Kind) : Option Starter :=
  (ofRules? (rule parent).substatements t).orElse fun _ =>
    if parent = .extension ∧ t.startsStatement then some (kind .extension) else none

end Starter

end Yang.Parse
