import Yang.Grammar.Substatements
import Yang.Statement.Basic

/-! The restrictions of a `type` come in nine shapes that do not mix. The first restriction of a
body decides its shape; a `range` alone is that of a numerical type until `fraction-digits` makes it
a decimal. -/
namespace Yang.Grammar

inductive TypeShape where
  | numerical
  | decimal64
  | string
  | enumeration
  | leafref
  | identityref
  | instanceIdentifier
  | bits
  | union
deriving DecidableEq

namespace TypeShape

def all : List TypeShape :=
  [numerical, decimal64, string, enumeration, leafref, identityref, instanceIdentifier, bits, union]

def displayName : TypeShape → String
  | numerical => "numerical restrictions"
  | decimal64 => "decimal64 specification"
  | string => "string restrictions"
  | enumeration => "enumeration specification"
  | leafref => "leafref specification"
  | identityref => "identityref specification"
  | instanceIdentifier => "instance-identifier specification"
  | bits => "bits specification"
  | union => "union specification"

def rules : TypeShape → List Substatement
  | numerical => [one .range, extensions]
  | decimal64 => [one .fractionDigits, atMostOne .range, extensions]
  | string => [atMostOne .length, many .pattern, extensions]
  | enumeration => [atLeastOne .enum, extensions]
  | leafref => [one .path, extensions]
  | identityref => [one .base, extensions]
  | instanceIdentifier => [atMostOne .requireInstance, extensions]
  | bits => [atLeastOne .bit, extensions]
  | union => [atLeastOne .type, extensions]

def permits (shape : TypeShape) (k : Statement.Kind) : Bool := Grammar.permits shape.rules k

/-- The shape that a body takes on with its first restriction. -/
def ofFirst? : Statement.Kind → Option TypeShape
  | .core .range => some numerical
  | .core .fractionDigits => some decimal64
  | .core .length | .core .pattern => some string
  | .core .enum => some enumeration
  | .core .path => some leafref
  | .core .base => some identityref
  | .core .requireInstance => some instanceIdentifier
  | .core .bit => some bits
  | .core .type => some union
  | _ => none

/-- The shape of a body behind one more restriction, if the two go together. -/
def extend? (shape : TypeShape) (k : Statement.Kind) : Option TypeShape :=
  if shape = numerical ∧ k = .core .fractionDigits then some decimal64
  else if shape.permits k then some shape
  else none

/-- The shape of a body that holds the given restrictions in their order. -/
def ofRestrictions? : List Statement.Kind → Option TypeShape
  | [] => none
  | k :: later => (ofFirst? k).bind fun shape => later.foldlM extend? shape

/-- The rules of a body; one that holds no restriction yet takes extension statements only. -/
def bodyRules : Option TypeShape → List Substatement
  | some shape => shape.rules
  | none => [extensions]

end TypeShape

/-- The shape of a type's body, if it holds restrictions that go together. -/
def typeShape? (s : Statement) : Option TypeShape :=
  if s.kind = .core .type then
    TypeShape.ofRestrictions? ((s.children.filter (!·.isExtension)).map (·.kind))
  else none

end Yang.Grammar
