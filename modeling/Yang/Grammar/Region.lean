import Yang.Grammar.Substatements

/-! The body of a module or submodule falls into five regions, which follow one another. -/
namespace Yang.Grammar

inductive Region where
  | header
  | linkage
  | metadata
  | revisions
  | body
deriving DecidableEq

namespace Region

def all : List Region := [header, linkage, metadata, revisions, body]

def name : Region → String
  | header => "header"
  | linkage => "linkage"
  | metadata => "meta"
  | revisions => "revision"
  | body => "body"

def index : Region → Nat
  | header => 0
  | linkage => 1
  | metadata => 2
  | revisions => 3
  | body => 4

/-- The region that comes next; none comes behind the body. -/
def following : Region → Region
  | header => linkage
  | linkage => metadata
  | metadata => revisions
  | revisions | body => body

end Region

/-- The statements of a unit's header, in the order they are to stand in. -/
def headerKinds (unit : Statement.Kind) : List Statement.Kind :=
  if unit = .core .submodule then [.core .yangVersion, .core .belongsTo]
  else [.core .yangVersion, .core .namespaceStmt, .core .prefixStmt]

def Region.kinds (unit : Statement.Kind) : Region → List Statement.Kind
  | header => headerKinds unit
  | linkage => [.core .importStmt, .core .includeStmt]
  | metadata => [.core .organization, .core .contact, .core .description, .core .reference]
  | revisions => [.core .revision]
  | body =>
    [.core .extension, .core .feature, .core .identity, .core .typedef, .core .grouping,
      .core .container, .core .leaf, .core .leafList, .core .list, .core .choice, .core .anyxml,
        .core .uses, .core .augment,
      .core .rpc, .core .notification, .core .deviation, .extension]

def region? (unit k : Statement.Kind) : Option Region :=
  Region.all.find? fun r => (r.kinds unit).contains k

def headerRank (unit k : Statement.Kind) : Nat := (headerKinds unit).idxOf k

/-- The regions hold what the unit's rule admits. -/
theorem isSome_region? (unit k : Statement.Kind) (isUnit : unit.isUnit) :
    (region? unit k).isSome = permits (rule unit).substatements k := by
  have each : ∀ u ∈ Statement.Kind.all, u.isUnit → ∀ k ∈ Statement.Kind.all,
      (region? u k).isSome = permits (rule u).substatements k := by decide +kernel
  exact each unit unit.mem_all isUnit k k.mem_all

end Yang.Grammar
