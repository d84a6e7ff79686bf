import Yang.Proofs.Grammar.Shape
import Yang.Proofs.Statement.Preorder

/-! When a statement tree conforms to the grammar: the conditions on one statement by itself, and
those on a whole unit. -/
namespace Yang.Grammar

/-- Substatements of these kinds are all admitted by the rules, each kind as often as its rule says.
-/
structure Admits (rules : List Substatement) (kinds : List Statement.Kind) : Prop where
  permitted : ∀ k ∈ kinds, permits rules k
  counted : ∀ r ∈ rules, r.cardinality.admits (kinds.count r.kind)

/-- A statement of the kind can have the argument; that of a `deviate` selects the form which its
kind says. -/
structure ArgumentFits (k : Statement.Kind) (argument : Option String) : Prop where
  present : (rule k).argument = .required → argument.isSome
  absent : (rule k).argument = .none → argument = none
  form : ∀ f, k = .deviate f → argument.bind DeviateForm.ofArgument? = some f

def RegionsInOrder (unit : Statement.Kind) (kinds : List Statement.Kind) : Prop :=
  (kinds.filterMap (region? unit)).Pairwise (·.index ≤ ·.index)

def HeaderInOrder (unit : Statement.Kind) (kinds : List Statement.Kind) : Prop :=
  (kinds.filter (headerKinds unit).contains).Pairwise (headerRank unit · ≤ headerRank unit ·)

instance (rules : List Substatement) (kinds : List Statement.Kind) :
    Decidable (Admits rules kinds) :=
  decidable_of_iff ((∀ k ∈ kinds, permits rules k) ∧ ∀ r ∈ rules,
    r.cardinality.admits (kinds.count r.kind))
    ⟨fun admits => ⟨admits.1, admits.2⟩, fun admits => ⟨admits.permitted, admits.counted⟩⟩

theorem argumentFits_iff {k : Statement.Kind} {argument : Option String} : ArgumentFits k argument ↔
    ((rule k).argument = .required → argument.isSome) ∧
      ((rule k).argument = .none → argument = none) ∧
      ∀ f ∈ DeviateForm.all, k = .deviate f → argument.bind DeviateForm.ofArgument? = some f := by
  constructor
  · intro fits
    exact ⟨fits.present, fits.absent, fun f _ => fits.form f⟩
  · rintro ⟨present, absent, form⟩
    exact ⟨present, absent, fun f => form f (by cases f <;> decide)⟩

instance (k : Statement.Kind) (argument : Option String) : Decidable (ArgumentFits k argument) :=
  decidable_of_iff _ argumentFits_iff.symm

instance (unit : Statement.Kind) (kinds : List Statement.Kind) :
    Decidable (RegionsInOrder unit kinds) :=
  inferInstanceAs (Decidable (List.Pairwise _ _))

instance (unit : Statement.Kind) (kinds : List Statement.Kind) :
    Decidable (HeaderInOrder unit kinds) :=
  inferInstanceAs (Decidable (List.Pairwise _ _))

end Yang.Grammar

namespace Yang.Statement

open Grammar

def kinds (s : Statement) : List Kind := s.children.map (·.kind)

/-- The substatements of a statement are those its kind takes; those of a type are of one shape. -/
def BodyFits (s : Statement) : Prop :=
  if s.kind = .core .type then
    (∀ k ∈ s.kinds, k = .extension) ∨ ∃ shape : TypeShape, Admits shape.rules s.kinds
  else Admits (rule s.kind).substatements s.kinds ∧
    ((rule s.kind).ending = .nonEmptyBlock → s.children ≠ [])

/-- What the grammar says of one statement. -/
structure Fits (s : Statement) : Prop where
  argument : ArgumentFits s.kind s.argument
  body : s.BodyFits

/-- What the grammar says of a module or submodule and all that is in it. -/
structure Conforms (strict : Bool) (s : Statement) : Prop where
  unit : s.kind.isUnit
  fits : ∀ n ∈ s.preorder, n.Fits
  regions : RegionsInOrder s.kind s.kinds
  header : strict → HeaderInOrder s.kind s.kinds

instance (kinds : List Kind) : Decidable (∃ shape : TypeShape, Admits shape.rules kinds) :=
  decidable_of_iff (∃ shape ∈ TypeShape.all, Admits shape.rules kinds)
    ⟨fun ⟨shape, _, admits⟩ => ⟨shape, admits⟩,
      fun ⟨shape, admits⟩ => ⟨shape, shape.mem_all, admits⟩⟩

instance (s : Statement) : Decidable s.BodyFits :=
  inferInstanceAs (Decidable (if s.kind = .core .type then
    (∀ k ∈ s.kinds, k = .extension) ∨ ∃ shape : TypeShape, Admits shape.rules s.kinds
    else Admits (rule s.kind).substatements s.kinds ∧
      ((rule s.kind).ending = .nonEmptyBlock → s.children ≠ [])))

instance (s : Statement) : Decidable s.Fits :=
  decidable_of_iff (ArgumentFits s.kind s.argument ∧ s.BodyFits)
    ⟨fun fits => ⟨fits.1, fits.2⟩, fun fits => ⟨fits.argument, fits.body⟩⟩

instance (strict : Bool) (s : Statement) : Decidable (s.Conforms strict) :=
  decidable_of_iff (s.kind.isUnit ∧ (∀ n ∈ s.preorder, n.Fits) ∧ RegionsInOrder s.kind s.kinds ∧
      (strict → HeaderInOrder s.kind s.kinds))
    ⟨fun ⟨unit, fits, regions, header⟩ => ⟨unit, fits, regions, header⟩,
      fun ⟨unit, fits, regions, header⟩ => ⟨unit, fits, regions, header⟩⟩

theorem BodyFits.permits {s : Statement} (fits : s.BodyFits) :
    ∀ k ∈ s.kinds, permits (rule s.kind).substatements k := by
  by_cases type : s.kind = .core .type
  · rw [BodyFits, if_pos type] at fits
    intro k member
    rw [type]
    rcases fits with extensions | ⟨shape, admits⟩
    · rw [extensions k member]
      decide
    · exact TypeShape.permits_of_permits (admits.permitted k member)
  · rw [BodyFits, if_neg type] at fits
    exact fits.1.permitted

/-- Units do not nest. -/
theorem isUnit_below {s : Statement} (fits : ∀ n ∈ s.preorder, n.Fits) :
    ∀ n ∈ s.descendants, n.kind.isUnit = false := by
  intro n below
  obtain ⟨p, inside, child⟩ := exists_parent below
  exact not_isUnit_of_permits
    ((fits p inside).body.permits n.kind (List.mem_map.mpr ⟨n, child, rfl⟩))

/-- Nothing but extension statements stands in an extension statement. -/
theorem isExtension_below {s : Statement} (fits : ∀ n ∈ s.preorder, n.Fits)
    (extension : s.isExtension) :
    ∀ n ∈ s.descendants, n.isExtension := by
  induction s with
  | node s ih =>
    have kind : s.kind = .extension := by simpa [isExtension] using extension
    have children : ∀ c ∈ s.children, c.isExtension := by
      intro c child
      have body := (fits s s.self_mem_preorder).body
      have permitted := body.permits c.kind (List.mem_map.mpr ⟨c, child, rfl⟩)
      rw [kind] at permitted
      simpa [Grammar.permits, rule, extensionRule, extensions, isExtension, eq_comm] using permitted
    intro n below
    obtain ⟨c, child, inside⟩ := mem_descendants.mp below
    rcases mem_preorder.mp inside with rfl | deeper
    · exact children n child
    · have fits : ∀ m ∈ c.preorder, m.Fits := fun m found =>
        fits m (mem_preorder_of_child child found)
      exact ih c child fits (children c child) n deeper

/-- What demands no substatement can end with a semicolon. -/
theorem Fits.allowsSemicolon {s : Statement} (fits : s.Fits) (childless : s.children = []) :
    (rule s.kind).ending.allowsSemicolon := by
  apply Decidable.byContradiction
  intro braces
  have body := fits.body
  have type : s.kind ≠ .core .type := by
    intro same
    rw [same] at braces
    exact braces (by decide)
  rw [BodyFits, if_neg type] at body
  rcases demands_of_not_allowsSemicolon (by simpa using braces) with nonEmpty |
    ⟨r, member, required⟩
  · exact body.2 nonEmpty childless
  · have present := ((Cardinality.admits_iff _ _).mp (body.1.counted r member)).1 required
    rw [kinds, childless] at present
    contradiction

end Yang.Statement
