import Yang.Proofs.Diagnostic.Violation
import Yang.Proofs.Parse.Progress

/-! What a block admits as it is read, compared with what the grammar says of it once it is
complete. What the reader admits and the counts that it takes in the end are together just what the
grammar asks of a body. -/
namespace Yang.Parse.Progress

open Grammar

variable {strict : Bool} {parent : Statement.Kind} {kinds : List Statement.Kind} {present : Region}
  {highest : Option Statement.Kind} {shape : Option TypeShape} {p : Progress}

theorem foldlM_plain : kinds.foldlM (after? strict parent) plain = some p ↔
    (∀ k ∈ kinds, permits (rule parent).substatements k) ∧ plain = p := by
  induction kinds with
  | nil => simp
  | cons k kinds ih =>
    by_cases permitted : permits (rule parent).substatements k
    · simp [after?, permitted, ih]
    · simp [after?, permitted]

theorem foldlM_restrictions : kinds.foldlM (after? strict parent) (restrictions shape) =
    ((kinds.filter (· ≠ .extension)).foldlM (fun shape k => (TypeShape.behind? shape k).map some)
      shape).map
      restrictions := by
  induction kinds generalizing shape with
  | nil => rfl
  | cons k kinds ih =>
    by_cases extension : k = .extension
    · simp [after?, extension, ih]
    · cases joined : TypeShape.behind? shape k with
      | none => simp [after?, extension, joined]
      | some next => simp [after?, extension, joined, ih]

theorem foldlM_behind?_some {known : TypeShape} {ks : List Statement.Kind} :
    ks.foldlM (fun shape k => (TypeShape.behind? shape k).map some) (some known) =
      (ks.foldlM TypeShape.extend? known).map some := by
  induction ks generalizing known with
  | nil => rfl
  | cons k ks ih =>
    cases extended : known.extend? k with
    | none => simp [extended]
    | some next => simp [extended, ih]

theorem foldlM_behind?_none {ks : List Statement.Kind} :
    ks.foldlM (fun shape k => (TypeShape.behind? shape k).map some) none = some shape ↔
      (ks = [] ∨ (TypeShape.ofRestrictions? ks).isSome) ∧ TypeShape.ofRestrictions? ks = shape := by
  cases ks with
  | nil => simp [TypeShape.ofRestrictions?]
  | cons k ks =>
    cases begins : TypeShape.ofFirst? k with
    | none => simp [TypeShape.ofRestrictions?, begins]
    | some first =>
      simp only [TypeShape.behind?_none, TypeShape.ofRestrictions?, begins, foldlM_behind?_some,
        List.foldlM_cons, Option.map_some, Option.bind_eq_bind, Option.bind_some]
      cases joined : ks.foldlM TypeShape.extend? first <;> simp

/-- The header statements behind `highest`, if a strict reader is to take them. -/
def HeaderFollows (strict : Bool) (unit : Statement.Kind) (highest : Option Statement.Kind)
    (kinds : List Statement.Kind) : Prop :=
  strict → (highest.toList ++ kinds.filter (headerKinds unit).contains).Pairwise
    (headerRank unit · ≤ headerRank unit ·)

theorem pairwise_cons_cons {α : Type} {rank : α → Nat} {a b : α} {rest : List α} :
    (a :: b :: rest).Pairwise (rank · ≤ rank ·) ↔ rank a ≤ rank b ∧
      (b :: rest).Pairwise (rank · ≤ rank ·) := by
  constructor
  · intro sorted
    obtain ⟨first, later⟩ := List.pairwise_cons.mp sorted
    exact ⟨first b List.mem_cons_self, later⟩
  · rintro ⟨ab, sorted⟩
    refine List.pairwise_cons.mpr ⟨?_, sorted⟩
    intro c member
    rcases List.mem_cons.mp member with rfl | later
    · exact ab
    · exact Nat.le_trans ab ((List.pairwise_cons.mp sorted).1 c later)

theorem headerFollows_cons_of_not_contains {k : Statement.Kind}
    (outside : (headerKinds parent).contains k = false) :
    HeaderFollows strict parent highest (k :: kinds) ↔
      HeaderFollows strict parent highest kinds := by
  simp only [HeaderFollows, List.filter_cons, outside, Bool.false_eq_true, if_false]

theorem headerFollows_cons {k : Statement.Kind} (inside : (headerKinds parent).contains k) :
    HeaderFollows strict parent highest (k :: kinds) ↔
      ∃ next, highestAfter? strict parent highest k = some next ∧
        HeaderFollows strict parent (some next) kinds := by
  simp only [HeaderFollows, List.filter_cons, inside, if_true]
  cases highest with
  | none => simp [highestAfter?]
  | some previous =>
    simp only [highestAfter?, Option.toList_some, List.singleton_append, pairwise_cons_cons]
    by_cases lower : headerRank parent k < headerRank parent previous
    · have backwards : ¬ headerRank parent previous ≤ headerRank parent k := by omega
      cases strict <;> simp [lower, backwards]
    · have higher : headerRank parent previous ≤ headerRank parent k := by omega
      simp [lower, higher]

theorem foldlM_unit : (kinds.foldlM (after? strict parent) (unit present highest)).isSome ↔
    (∀ k ∈ kinds, (region? parent k).isSome) ∧
      (present :: kinds.filterMap (region? parent)).Pairwise (·.index ≤ ·.index) ∧
      HeaderFollows strict parent highest kinds := by
  -- The present region and the last of the header stand for all that came before them.
  induction kinds generalizing present highest with
  | nil => cases highest <;> simp [HeaderFollows]
  | cons k kinds ih =>
    cases found : region? parent k with
    | none => simp [after?, found]
    | some region =>
      rw [List.filterMap_cons_some found, pairwise_cons_cons, List.forall_mem_cons]
      simp only [List.foldlM_cons, after?, found, Option.bind_some, Option.isSome_some, true_and]
      by_cases left : region.index < present.index
      · have behind : ¬ present.index ≤ region.index := by omega
        simp [left, behind]
      · have ahead : present.index ≤ region.index := by omega
        simp only [left, if_false, ahead, true_and]
        by_cases header : region = .header
        · subst header
          rw [headerFollows_cons (region?_eq_header.mp found), if_pos rfl]
          cases taken : highestAfter? strict parent highest k with
          | none => simp
          | some next => simp [ih]
        · have outside : (headerKinds parent).contains k = false := by
            rw [← Bool.not_eq_true, ← region?_eq_header, found, Option.some.injEq]
            exact header
          simp [header, ih, headerFollows_cons_of_not_contains outside]

theorem afterAll?_type : afterAll? strict (.core .type) kinds = some p ↔
    (TypeShape.restrictionsAmong kinds = [] ∨
      (TypeShape.ofRestrictions? (TypeShape.restrictionsAmong kinds)).isSome) ∧
      restrictions (TypeShape.ofRestrictions? (TypeShape.restrictionsAmong kinds)) = p := by
  have first : first (.core .type) = restrictions none := rfl
  rw [afterAll?, first, foldlM_restrictions, Option.map_eq_some_iff]
  constructor
  · rintro ⟨shape, joined, rfl⟩
    obtain ⟨together, rfl⟩ := foldlM_behind?_none.mp joined
    exact ⟨together, rfl⟩
  · rintro ⟨together, rfl⟩
    exact ⟨_, foldlM_behind?_none.mpr ⟨together, rfl⟩, rfl⟩

theorem isSome_afterAll?_unit (unit : parent.isUnit) : (afterAll? strict parent kinds).isSome ↔
    (∀ k ∈ kinds, permits (rule parent).substatements k) ∧ RegionsInOrder parent kinds ∧
      (strict → HeaderInOrder parent kinds) := by
  have first : first parent = .unit .header none := by simp [first, unit]
  rw [afterAll?, first, foldlM_unit, List.pairwise_cons]
  simp only [isSome_region? parent _ unit]
  constructor
  · rintro ⟨permitted, ⟨_, regions⟩, header⟩
    exact ⟨permitted, regions, header⟩
  · rintro ⟨permitted, regions, header⟩
    exact ⟨permitted, ⟨fun _ _ => Nat.zero_le _, regions⟩, header⟩

theorem afterAll?_plain (unit : parent.isUnit = false) (type : parent ≠ .core .type) :
    afterAll? strict parent kinds = some p ↔ (∀ k ∈ kinds, permits (rule parent).substatements k) ∧
      plain = p := by
  have first : first parent = plain := by simp [first, unit, type]
  rw [afterAll?, first, foldlM_plain]

end Yang.Parse.Progress

namespace Yang.Statement

open Grammar Parse

variable {strict : Bool} {s : Statement}

/-- The substatements of a statement can be read one after another. -/
def Orderly (strict : Bool) (s : Statement) : Prop :=
  (Progress.afterAll? strict s.kind s.kinds).isSome

theorem orderly_type (type : s.kind = .core .type) : s.Orderly strict ↔
    TypeShape.restrictionsAmong s.kinds = [] ∨
      (TypeShape.ofRestrictions? (TypeShape.restrictionsAmong s.kinds)).isSome := by
  rw [Orderly, type, Option.isSome_iff_exists]
  constructor
  · rintro ⟨p, taken⟩
    exact (Progress.afterAll?_type.mp taken).1
  · intro together
    exact ⟨_, Progress.afterAll?_type.mpr ⟨together, rfl⟩⟩

theorem ownViolations_type (type : s.kind = .core .type) : s.ownViolations = [] ↔
    ∀ r ∈ TypeShape.bodyRules (TypeShape.ofRestrictions? (TypeShape.restrictionsAmong s.kinds)),
      r.cardinality.admits (s.kinds.count r.kind) := by
  have ending : (rule s.kind).ending ≠ .nonEmptyBlock := by
    rw [type]
    decide
  rw [ownViolations_eq_nil, countingRules, if_pos type, typeShape?_eq type]
  simp [ending]

/-- Whatever shape a body could be of in the end, the counts of the shape that it has are in order
too. -/
theorem counted_of_becomes {kinds : List Kind} {shape final : TypeShape}
    (known : TypeShape.ofRestrictions? (TypeShape.restrictionsAmong kinds) = some shape)
    (becomes : shape.Becomes final) (admits : Admits final.rules kinds) :
    ∀ r ∈ shape.rules, r.cardinality.admits (kinds.count r.kind) := by
  rcases becomes with rfl | ⟨rfl, rfl⟩
  · exact admits.counted
  · -- `fraction-digits` is there, and only the decimal shape admits it.
    have once := admits.counted (one .fractionDigits) (by decide)
    have digits : Kind.core .fractionDigits ∈ kinds :=
      List.count_pos_iff.mp (((Cardinality.admits_iff _ _).mp once).1 rfl)
    have restriction : Kind.core .fractionDigits ∈ TypeShape.restrictionsAmong kinds := by
      simpa [TypeShape.restrictionsAmong] using digits
    have := TypeShape.permits_ofRestrictions? known _ restriction
    contradiction

/-- The restrictions of a type are of one shape when they go together as they are read and none of
them is missing or repeated in the end. -/
theorem bodyFits_type (type : s.kind = .core .type) : s.BodyFits ↔
    s.Orderly strict ∧ s.ownViolations = [] := by
  rw [BodyFits, if_pos type, orderly_type type, ownViolations_type type]
  by_cases shapeless : TypeShape.restrictionsAmong s.kinds = []
  · have extensions : ∀ k ∈ s.kinds, k = .extension := by
      simpa [TypeShape.restrictionsAmong] using shapeless
    simp only [shapeless, TypeShape.ofRestrictions?, TypeShape.bodyRules]
    exact ⟨fun _ => ⟨.inl trivial, by simp [Grammar.extensions, Cardinality.admits]⟩,
      fun _ => .inl extensions⟩
  · have restriction (k : Kind) : k ∈ TypeShape.restrictionsAmong s.kinds ↔
      k ∈ s.kinds ∧ k ≠ .extension := by
      simp [TypeShape.restrictionsAmong]
    constructor
    · rintro (extensions | ⟨final, admits⟩)
      · cases shapeless (by simpa [TypeShape.restrictionsAmong] using extensions)
      · obtain ⟨shape, known, becomes⟩ := TypeShape.becomes_ofRestrictions? shapeless
          (fun k member => admits.permitted k ((restriction k).mp member).1)
          (fun k member => ((restriction k).mp member).2)
        refine ⟨.inr (by rw [known]; rfl), ?_⟩
        rw [known]
        exact counted_of_becomes known becomes admits
    · rintro ⟨together, counted⟩
      obtain ⟨shape, known⟩ := Option.isSome_iff_exists.mp (together.resolve_left shapeless)
      rw [known] at counted
      refine .inr ⟨shape, ?_, counted⟩
      intro k member
      by_cases extension : k = .extension
      · rw [extension]
        exact shape.permits_extension
      · exact TypeShape.permits_ofRestrictions? known k ((restriction k).mpr ⟨member, extension⟩)

theorem bodyFits_of_not_type (type : s.kind ≠ .core .type) : s.BodyFits ↔
    (∀ k ∈ s.kinds, permits (rule s.kind).substatements k) ∧ s.ownViolations = [] := by
  rw [BodyFits, if_neg type, ownViolations_eq_nil, countingRules, if_neg type]
  constructor
  · rintro ⟨admits, nonEmpty⟩
    exact ⟨admits.permitted, nonEmpty, admits.counted⟩
  · rintro ⟨permitted, nonEmpty, counted⟩
    exact ⟨⟨permitted, counted⟩, nonEmpty⟩

theorem bodyFits_plain (unit : s.kind.isUnit = false) (type : s.kind ≠ .core .type) :
    s.BodyFits ↔ s.Orderly strict ∧ s.ownViolations = [] := by
  rw [bodyFits_of_not_type type, Orderly, Option.isSome_iff_exists]
  simp only [Progress.afterAll?_plain unit type, exists_and_left, exists_eq', and_true]

theorem bodyFits_unit (unit : s.kind.isUnit) :
    s.BodyFits ∧ RegionsInOrder s.kind s.kinds ∧ (strict → HeaderInOrder s.kind s.kinds) ↔
      s.Orderly strict ∧ s.ownViolations = [] := by
  rw [bodyFits_of_not_type (Statement.Kind.ne_of_isUnit unit).1, Orderly,
    Progress.isSome_afterAll?_unit unit]
  constructor
  · rintro ⟨⟨permitted, clean⟩, ordered⟩
    exact ⟨⟨permitted, ordered⟩, clean⟩
  · rintro ⟨⟨permitted, ordered⟩, clean⟩
    exact ⟨⟨permitted, clean⟩, ordered⟩

end Yang.Statement
