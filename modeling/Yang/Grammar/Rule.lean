import Yang.Statement.Kind

/-! What the grammar says of one kind of statement: whether it has an argument, how it ends, which
substatements it takes and how often. -/
namespace Yang.Grammar

inductive Cardinality where
  | exactlyOne
  | zeroOrOne
  | zeroOrMore
  | oneOrMore
deriving DecidableEq

namespace Cardinality

def isRequired : Cardinality → Bool
  | exactlyOne | oneOrMore => true
  | zeroOrOne | zeroOrMore => false

def isSingle : Cardinality → Bool
  | exactlyOne | zeroOrOne => true
  | zeroOrMore | oneOrMore => false

def admits (c : Cardinality) (count : Nat) : Bool :=
  match c with
  | exactlyOne => count = 1
  | zeroOrOne => count ≤ 1
  | zeroOrMore => true
  | oneOrMore => 1 ≤ count

theorem admits_iff (c : Cardinality) (count : Nat) :
    c.admits count ↔ (c.isRequired → 0 < count) ∧ (c.isSingle → count ≤ 1) := by
  cases c <;> simp [admits, isRequired, isSingle] <;> omega

end Cardinality

inductive ArgumentUse where
  | required
  | optional
  | none
deriving DecidableEq

/-- How a statement ends: `terminator` is a semicolon that can give way to braces around an
extension statement, `optionalBlock` a semicolon or braces, the others are braces. -/
inductive Ending where
  | terminator
  | optionalBlock
  | block
  | nonEmptyBlock
deriving DecidableEq

def Ending.allowsSemicolon : Ending → Bool
  | terminator | optionalBlock => true
  | block | nonEmptyBlock => false

structure Substatement where
  kind : Statement.Kind
  cardinality : Cardinality
deriving DecidableEq

/-- The cardinality that some rules give a kind, if they admit it. -/
def cardinality? (rules : List Substatement) (k : Statement.Kind) : Option Cardinality :=
  (rules.find? (·.kind = k)).map (·.cardinality)

def permits (rules : List Substatement) (k : Statement.Kind) : Bool := rules.any (·.kind = k)

theorem permits_iff {rules : List Substatement} {k : Statement.Kind} :
    permits rules k ↔ ∃ r ∈ rules, r.kind = k := by
  simp [permits]

theorem isSome_cardinality? (rules : List Substatement) (k : Statement.Kind) :
    (cardinality? rules k).isSome = permits rules k := by
  simp [cardinality?, permits, List.isSome_find?]

structure Rule where
  argument : ArgumentUse
  ending : Ending
  substatements : List Substatement

end Yang.Grammar
