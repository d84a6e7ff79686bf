import Yang.Source.Position
import Yang.Statement.Kind

/-! The statement tree. A statement has a keyword as it was written, perhaps an argument, its
substatements in the order of the text, and the span from its keyword to its last delimiter. -/
namespace Yang

structure Statement where
  kind : Statement.Kind
  keyword : String
  argument : Option String
  children : List Statement
  span : Span

namespace Statement

def isExtension (s : Statement) : Bool := s.kind = .extension

def childrenOfKind (s : Statement) (k : Kind) : List Statement := s.children.filter (·.kind = k)

def firstChild? (s : Statement) (k : Kind) : Option Statement := s.children.find? (·.kind = k)

def childArgument? (s : Statement) (k : Kind) : Option String := (s.firstChild? k).bind (·.argument)

theorem firstChild?_eq_head? (s : Statement) (k : Kind) :
    s.firstChild? k = (s.childrenOfKind k).head? := by
  simp [firstChild?, childrenOfKind]

/-! What a module or submodule says of itself in its header. -/

def namespace? (s : Statement) : Option String := s.childArgument? (.core .namespaceStmt)

/-- A module's own prefix, or the prefix a submodule gives the module that it belongs to. -/
def modulePrefix? (s : Statement) : Option String :=
  (s.childArgument? (.core .prefixStmt)).orElse fun _ =>
    (s.firstChild? (.core .belongsTo)).bind (·.childArgument? (.core .prefixStmt))

def belongsTo? (s : Statement) : Option String := s.childArgument? (.core .belongsTo)

def yangVersion? (s : Statement) : Option String := s.childArgument? (.core .yangVersion)

def revisions (s : Statement) : List String :=
  (s.childrenOfKind (.core .revision)).filterMap (·.argument)

/-- Statements are built from their children, so what holds of every statement whose children it
holds of holds of all. -/
@[elab_as_elim, induction_eliminator]
theorem induction {motive : Statement → Prop}
    (node : ∀ s : Statement, (∀ c ∈ s.children, motive c) → motive s) (s : Statement) : motive s :=
  @Statement.rec motive (fun children => ∀ c ∈ children, motive c)
    (fun _ _ _ _ _ ih => node _ ih) (fun _ member => nomatch member)
    (fun _ _ ihHead ihTail _ member => by
      cases member with
      | head => exact ihHead
      | tail _ later => exact ihTail _ later) s

end Statement

end Yang
