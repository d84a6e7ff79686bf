import Yang.Grammar.Region
import Yang.Grammar.TypeShape

/-! Facts about the grammar as a whole, found by going through its tables. -/
namespace Yang.Grammar

/-- What can end with a semicolon can do without substatements. -/
theorem not_isRequired_of_allowsSemicolon {k : Statement.Kind}
    (allowed : (rule k).ending.allowsSemicolon) :
    ∀ r ∈ (rule k).substatements, r.cardinality.isRequired = false := by
  have each : ∀ k ∈ Statement.Kind.all, (rule k).ending.allowsSemicolon →
      ∀ r ∈ (rule k).substatements, r.cardinality.isRequired = false := by decide +kernel
  exact each k k.mem_all allowed

/-- What needs braces cannot do without substatements. -/
theorem demands_of_not_allowsSemicolon {k : Statement.Kind}
    (braces : (rule k).ending.allowsSemicolon = false) :
    (rule k).ending = .nonEmptyBlock ∨ ∃ r ∈ (rule k).substatements, r.cardinality.isRequired := by
  have each : ∀ k ∈ Statement.Kind.all, (rule k).ending.allowsSemicolon = false →
      (rule k).ending = .nonEmptyBlock ∨ ∃ r ∈ (rule k).substatements,
        r.cardinality.isRequired := by
    decide +kernel
  exact each k k.mem_all braces

/-- Units stand in no other statement. -/
theorem not_isUnit_of_permits {parent k : Statement.Kind}
    (permitted : permits (rule parent).substatements k) :
    k.isUnit = false := by
  have each : ∀ parent ∈ Statement.Kind.all, ∀ r ∈ (rule parent).substatements,
    r.kind.isUnit = false := by
    decide +kernel
  obtain ⟨r, member, rfl⟩ := permits_iff.mp permitted
  exact each parent parent.mem_all r member

/-- Where one form of `deviate` is admitted, so are the others. -/
theorem permits_deviate {parent k : Statement.Kind}
    (permitted : permits (rule parent).substatements k) (deviate : k.isDeviate) (f : DeviateForm) :
    permits (rule parent).substatements
      (.deviate f) := by
  have each : ∀ parent ∈ Statement.Kind.all, ∀ r ∈ (rule parent).substatements, r.kind.isDeviate →
      ∀ f ∈ DeviateForm.all, permits (rule parent).substatements (.deviate f) := by decide +kernel
  obtain ⟨r, member, rfl⟩ := permits_iff.mp permitted
  exact each parent parent.mem_all r member deviate f (by cases f <;> decide)

theorem any_isDeviate_iff {parent : Statement.Kind} :
    (rule parent).substatements.any (·.kind.isDeviate) ↔
    ∀ f, permits (rule parent).substatements (.deviate f) := by
  constructor
  · intro listed f
    obtain ⟨r, member, deviate⟩ := List.any_eq_true.mp listed
    exact permits_deviate (permits_iff.mpr ⟨r, member, rfl⟩) deviate f
  · intro all
    obtain ⟨r, member, same⟩ := permits_iff.mp (all .add)
    have deviate : r.kind.isDeviate := by rw [same]; rfl
    exact List.any_eq_true.mpr ⟨r, member, deviate⟩

/-- `deviate` stands in deviations only. -/
theorem eq_deviation_of_permits {parent : Statement.Kind} {f : DeviateForm}
    (permitted : permits (rule parent).substatements (.deviate f)) : parent = .core .deviation := by
  have each : ∀ parent ∈ Statement.Kind.all, ∀ f ∈ DeviateForm.all,
      permits (rule parent).substatements (.deviate f) → parent = .core .deviation := by
        decide +kernel
  exact each parent parent.mem_all f (by cases f <;> decide) permitted

theorem argument_deviate (f : DeviateForm) : (rule (.deviate f)).argument = .required := by
  cases f <;> rfl

theorem argument_unit {unit : Statement.Kind} (isUnit : unit.isUnit) :
    (rule unit).argument = .required := by
  have each : ∀ unit ∈ Statement.Kind.all, unit.isUnit → (rule unit).argument = .required := by
    decide +kernel
  exact each unit unit.mem_all isUnit

theorem region?_deviate (unit : Statement.Kind) (f : DeviateForm) :
    region? unit (.deviate f) = none := by
  have each : ∀ unit ∈ Statement.Kind.all, ∀ f ∈ DeviateForm.all,
    region? unit (.deviate f) = none := by
    decide +kernel
  exact each unit unit.mem_all f (by cases f <;> decide)

theorem region?_eq_header {unit k : Statement.Kind} :
    region? unit k = some .header ↔ (headerKinds unit).contains k := by
  constructor
  · intro found
    exact List.find?_some (p := fun r => (Region.kinds unit r).contains k) found
  · intro first
    simp only [region?, Region.all, List.find?_cons, Region.kinds, first]

namespace TypeShape

theorem mem_all (shape : TypeShape) : shape ∈ all := by cases shape <;> decide

/-- The substatements of a type are restrictions, but for extension statements. -/
theorem isSome_ofFirst? {k : Statement.Kind} (restriction : k ≠ .extension) :
    (ofFirst? k).isSome = Grammar.permits (rule (.core .type)).substatements k := by
  have each : ∀ k ∈ Statement.Kind.all, k ≠ .extension →
      (ofFirst? k).isSome = Grammar.permits (rule (.core .type)).substatements k := by
        decide +kernel
  exact each k k.mem_all restriction

end TypeShape

end Yang.Grammar
