import Yang.Keyword

/-! What a statement is. Each keyword names a kind of its own; `deviate` has one kind for each of
its four forms, which differ in what they may hold; a statement under any other word is an extension
statement. -/
namespace Yang

inductive DeviateForm where
  | notSupported | add | replace | delete
deriving DecidableEq

namespace DeviateForm

def all : List DeviateForm := [notSupported, add, replace, delete]

def argument : DeviateForm → String
  | notSupported => "not-supported"
  | add => "add"
  | replace => "replace"
  | delete => "delete"

def ofArgument? (text : String) : Option DeviateForm := all.find? (·.argument == text)

theorem ofArgument?_eq_some {text : String} {f : DeviateForm} :
    ofArgument? text = some f ↔ f.argument = text := by
  constructor
  · intro found
    simpa using List.find?_some found
  · rintro rfl
    cases f <;> decide +kernel

end DeviateForm

inductive Statement.Kind where
  | core (keyword : Keyword)
  | deviate (form : DeviateForm)
  | extension
deriving DecidableEq

namespace Statement.Kind

def all : List Kind :=
  Keyword.all.map core ++ DeviateForm.all.map deviate ++ [extension]

theorem mem_all (k : Kind) : k ∈ all := by
  cases k with
  | core k => simp [all, k.mem_all]
  | deviate f => cases f <;> simp [all, DeviateForm.all]
  | extension => simp [all]

/-- The word a statement of the kind is written with; extension statements have no word in common.
-/
def keyword : Kind → String
  | core k => k.name
  | deviate _ => "deviate"
  | extension => "<extension>"

def displayName : Kind → String
  | core k => k.name
  | deviate f => s!"deviate {f.argument}"
  | extension => "extension statement"

/-- The name a diagnostic gives a statement of the kind with the given argument. -/
def label (k : Kind) (argument : Option String) : String :=
  match argument with
  | some text => s!"{k.displayName} '{text}'"
  | none => k.displayName

def isUnit : Kind → Bool
  | core .module | core .submodule => true
  | _ => false

/-- Units are neither types nor extension statements. -/
theorem ne_of_isUnit {k : Kind} (unit : k.isUnit) : k ≠ core .type ∧ k ≠ extension := by
  constructor <;> (rintro rfl; contradiction)

def isDeviate : Kind → Bool
  | deviate _ => true
  | _ => false

/-- The kinds that define a node of the data tree. -/
def isDataDefinition : Kind → Bool
  | core .container | core .leaf | core .leafList | core .list | core .choice | core .anyxml
  | core .uses => true
  | _ => false

/-- The data definitions that a `choice` takes as a case without the word `case`. -/
def isShortCase : Kind → Bool
  | core .container | core .leaf | core .leafList | core .list | core .anyxml => true
  | _ => false

theorem isDataDefinition_of_isShortCase {k : Kind} (short : k.isShortCase) :
    k.isDataDefinition := by
  cases k with
  | core k => revert short; cases k <;> decide
  | deviate f => simp [isShortCase] at short
  | extension => simp [isShortCase] at short

end Statement.Kind

end Yang
