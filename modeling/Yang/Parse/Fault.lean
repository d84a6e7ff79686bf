import Yang.Diagnostic.Syntax
import Yang.Grammar.Region
import Yang.Parse.Options
import Yang.Parse.Starter

/-! Why a parse cannot go on. A fault is a cause; the token it is found at completes it to a syntax
error. Whatever the cause, a token that is invalid is reported as such, and so is the end of the
input. -/
namespace Yang.Parse

inductive Fault where
  /-- No unit that the caller accepts begins here. -/
  | unitMissing (entry : Entry)
  | inputContinues (unit : Statement.Kind) (argument : Option String)
  | argumentMissing (owner : Starter)
  | pieceMissing
  /-- The argument selects no form of `deviate`; the span is that of its first token. -/
  | deviateArgument (argument : String) (span : Span)
  /-- A `;` where a block is needed. -/
  | blockMissing (kind : Statement.Kind)
  | terminatorMissing (kind : Statement.Kind)
  | unclosed (parent : Statement.Kind) (argument : Option String)
  | notPermitted (parent : Statement.Kind) (argument : Option String)
  /-- A restriction does not go with those before it. -/
  | restrictionsConflict (restriction : Statement.Kind) (shape : Grammar.TypeShape)
    (parent : Statement.Kind) (argument : Option String)
  /-- A header statement stands behind one that it should come before. -/
  | headerOrder (statement previous : Statement.Kind) (unit : Statement.Kind)
    (argument : Option String)
  /-- A statement belongs to a region that the unit has left. -/
  | regionOrder (region : Grammar.Region) (unit : Statement.Kind) (argument : Option String)
deriving DecidableEq

namespace Fault

def code : Fault → Diagnostic.Code
  | unitMissing _ => .unitMissing
  | inputContinues _ _ => .inputContinues
  | argumentMissing _ => .argumentMissing
  | pieceMissing => .pieceMissing
  | deviateArgument _ _ => .deviateArgument
  | blockMissing _ => .blockMissing
  | terminatorMissing _ => .terminatorMissing
  | unclosed _ _ => .inputEnds
  | notPermitted _ _ => .notPermitted
  | restrictionsConflict _ _ _ _ => .restrictionsConflict
  | headerOrder _ _ _ _ => .outOfOrder
  | regionOrder _ _ _ => .outOfOrder

def quoted (word : String) : String := s!"'{word}'"

def expectation (k : Statement.Kind) : String :=
  if k = .extension then k.displayName else quoted k.keyword

/-- What may stand in a block with the given rules. -/
def expectedIn (rules : List Grammar.Substatement) : List String :=
  (rules.map (expectation ·.kind)).eraseDups ++ [quoted "\x7d"]

def expectedInShape (shape : Grammar.TypeShape) : List String :=
  ((shape.rules.map (·.kind)).filter (· ≠ .extension)).map expectation ++
    (if shape = .numerical then [expectation (.core .fractionDigits)] else []) ++
    [expectation .extension, quoted "\x7d"]

def expected : Fault → List String
  | unitMissing entry => entry.accepted.map (quoted ·.name)
  | inputContinues _ _ => ["end of input"]
  | argumentMissing _ | pieceMissing => ["string"]
  | deviateArgument _ _ => DeviateForm.all.map (·.argument)
  | blockMissing _ => [quoted "\x7b"]
  | terminatorMissing kind =>
    if (Grammar.rule kind).ending.allowsSemicolon then [quoted ";", quoted "\x7b"] else
      [quoted "\x7b"]
  | unclosed _ _ => [quoted "\x7d"]
  | notPermitted parent _ => expectedIn (Grammar.rule parent).substatements
  | restrictionsConflict _ shape _ _ => expectedInShape shape
  | headerOrder _ _ _ _ => []
  | regionOrder _ unit _ => expectedIn (Grammar.rule unit).substatements

def hint : Fault → Option String
  | pieceMissing => some "'+' joins two quoted strings"
  | headerOrder _ _ unit _ =>
    let order := ", ".intercalate ((Grammar.headerKinds unit).map (·.keyword))
    some s!"header statements go in the order: {order}"
  | _ => none

/-- What the fault says of the token it is found at. -/
def message (t : Token) : Fault → String
  | unitMissing entry =>
    let units := " or ".intercalate (entry.accepted.map (quoted ·.name))
    s!"expected {units} at the start of input"
  | inputContinues unit argument =>
    s!"unexpected input after the end of {unit.label argument}"
  | argumentMissing owner => s!"'{owner.displayName}' requires an argument"
  | pieceMissing => "expected a string after '+'"
  | deviateArgument argument _ => s!"invalid deviate argument '{argument}'"
  | blockMissing kind => s!"'{kind.displayName}' requires a '\x7b ... \x7d' block"
  | terminatorMissing kind =>
    if (Grammar.rule kind).ending.allowsSemicolon then
      s!"expected ';' or '\x7b' after '{kind.displayName}' statement"
    else s!"expected '\x7b' after '{kind.displayName}' statement"
  | unclosed parent argument => s!"unclosed block of {parent.label argument}"
  | notPermitted parent argument =>
    if t.kind.startsStatement then s!"'{t.text}' is not permitted inside {parent.label argument}"
    else s!"expected a substatement or '\x7d' inside {parent.label argument}"
  | restrictionsConflict restriction shape parent argument =>
    let place := s!"the {shape.displayName} of {parent.label argument}"
    s!"'{restriction.keyword}' cannot be combined with {place}"
  | headerOrder statement previous unit argument =>
    let place := s!"the {unit.label argument} header"
    s!"'{statement.keyword}' must come before '{previous.keyword}' in {place}"
  | regionOrder region unit argument =>
    let place := s!"'{t.text}' is out of order in {unit.label argument}"
    s!"{place}: {region.name} statements must precede {region.following.name} statements"

/-- The syntax error that a fault makes at a token. A `deviate` argument is wrong whatever comes
behind it. -/
def toError (f : Fault) (t : Token) : SyntaxError :=
  match f with
  | deviateArgument argument span =>
    ⟨f.code, f.message t, span, f.expected, s!"string \"{argument}\"", none⟩
  | _ =>
    let (code, message) :=
      match t.kind with
      | .invalid => (.invalidToken, s!"invalid token '{t.text}'")
      | .endOfInput => (.inputEnds, s!"unexpected end of input: {f.message t}")
      | _ => (f.code, f.message t)
    ⟨code, message, t.span, f.expected, t.describe, f.hint⟩

end Fault

end Yang.Parse
