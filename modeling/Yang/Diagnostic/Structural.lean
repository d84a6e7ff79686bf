import Yang.Diagnostic.Code
import Yang.Source.Position
import Yang.Grammar.TypeShape

/-! Structural errors: a block that is closed and holds too few or too many substatements of a kind.
-/
namespace Yang

inductive Violation where
  | missing (child : Statement.Kind)
  | tooMany (child : Statement.Kind) (found : Nat)
  | emptyBlock
deriving DecidableEq

namespace Violation

def child? : Violation → Option Statement.Kind
  | missing child | tooMany child _ => some child
  | emptyBlock => none

/-- What breaks a block whose substatements are of the given kinds, in the order of its rules. -/
def ofBlock (rules : List Grammar.Substatement) (nonEmpty : Bool) (kinds : List Statement.Kind) :
    List Violation :=
  (if nonEmpty ∧ kinds = [] then [emptyBlock] else []) ++
    rules.filterMap fun r =>
      let count := kinds.count r.kind
      if count = 0 ∧ r.cardinality.isRequired then some (missing r.kind)
      else if 1 < count ∧ r.cardinality.isSingle then some (tooMany r.kind count)
      else none

end Violation

structure StructuralError where
  parent : Statement.Kind
  parentArgument : Option String
  violation : Violation
  span : Span
deriving DecidableEq

namespace StructuralError

def code (e : StructuralError) : Diagnostic.Code :=
  match e.violation with
  | .missing _ => .substatementMissing
  | .tooMany _ _ => .substatementRepeated
  | .emptyBlock => .blockEmpty

def message (e : StructuralError) : String :=
  let parent := e.parent.label e.parentArgument
  match e.violation with
  | .missing child => s!"{parent} is missing mandatory '{child.displayName}'"
  | .tooMany child found => s!"{parent} allows at most one '{child.displayName}', found {found}"
  | .emptyBlock => s!"{parent} requires at least one substatement"

instance : ToString StructuralError where
  toString e := s!"{e.code} at {e.span}: {e.message}"

end StructuralError

namespace Statement

/-- The rules a statement's substatements are counted by: those of its kind, but those of its shape
for a type. -/
def countingRules (s : Statement) : List Grammar.Substatement :=
  if s.kind = .core .type then Grammar.TypeShape.bodyRules (Grammar.typeShape? s)
  else (Grammar.rule s.kind).substatements

/-- What breaks the counts of a statement's own substatements. -/
def ownViolations (s : Statement) : List StructuralError :=
  (Violation.ofBlock s.countingRules ((Grammar.rule s.kind).ending = .nonEmptyBlock)
    (s.children.map (·.kind))).map (⟨s.kind, s.argument, ·, s.span⟩)

mutual

/-- What breaks the counts anywhere in a statement, inner statements first. -/
def violations : Statement → List StructuralError
  | s@⟨_, _, _, children, _⟩ => violationsOfAll children ++ s.ownViolations

def violationsOfAll : List Statement → List StructuralError
  | [] => []
  | s :: rest => violations s ++ violationsOfAll rest

end

end Statement

end Yang
