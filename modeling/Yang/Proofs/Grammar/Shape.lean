import Yang.Proofs.Grammar.Tables

/-! Shapes of types as their restrictions are read: a shape admits all that was read so far, and it
is on the way to any shape that admits the whole body. -/
namespace Yang.Grammar.TypeShape

/-- A body of the shape can still take on the other one. -/
def Becomes (shape final : TypeShape) : Prop :=
  shape = final ∨ shape = numerical ∧ final = decimal64

instance (shape final : TypeShape) : Decidable (shape.Becomes final) :=
  inferInstanceAs (Decidable (_ ∨ _))

variable {shape next final : TypeShape} {k l : Statement.Kind} {ks ls : List Statement.Kind}

def restrictionsAmong (kinds : List Statement.Kind) : List Statement.Kind :=
  kinds.filter (· ≠ .extension)

/-- The shape of a body that one more restriction joins, if they go together. -/
def behind? (shape : Option TypeShape) (k : Statement.Kind) : Option TypeShape :=
  match shape with
  | none => ofFirst? k
  | some known => known.extend? k

@[simp] theorem behind?_none (k : Statement.Kind) : behind? none k = ofFirst? k := rfl

@[simp] theorem behind?_some (known : TypeShape) (k : Statement.Kind) :
    behind? (some known) k = known.extend? k := rfl

theorem permits_extension (shape : TypeShape) : shape.permits .extension := by
  cases shape <;> rfl

theorem permits_of_ofFirst? (begins : ofFirst? k = some shape) : shape.permits k := by
  have each : ∀ k ∈ Statement.Kind.all, ∀ shape ∈ ofFirst? k, shape.permits k := by decide +kernel
  exact each k k.mem_all shape begins

theorem permits_of_extend? {shape extended : TypeShape} {k : Statement.Kind}
    (taken : shape.extend? k = some extended) : extended.permits k := by
  have each : ∀ shape ∈ all, ∀ k ∈ Statement.Kind.all, ∀ extended ∈ shape.extend? k,
    extended.permits k := by
    decide +kernel
  exact each shape shape.mem_all k k.mem_all extended taken

theorem permits_of_permits {shape : TypeShape} {k : Statement.Kind} (permitted : shape.permits k) :
    Grammar.permits (rule (.core .type)).substatements k := by
  have each : ∀ shape ∈ all, ∀ k ∈ Statement.Kind.all, shape.permits k →
      Grammar.permits (rule (.core .type)).substatements k := by decide +kernel
  exact each shape shape.mem_all k k.mem_all permitted

theorem permits_of_behind? {shape : Option TypeShape} {k : Statement.Kind} {next : TypeShape}
    (taken : behind? shape k = some next) :
    Grammar.permits (rule (.core .type)).substatements k := by
  cases shape with
  | none =>
    have restriction : k ≠ .extension := by
      rintro rfl
      contradiction
    rw [← isSome_ofFirst? restriction]
    exact Option.isSome_of_eq_some taken
  | some known => exact permits_of_permits (permits_of_extend? taken)

/-- What a body has admitted it goes on to admit. -/
theorem permits_extend? (extended : shape.extend? k = some next) (permitted : shape.permits l) :
    next.permits l := by
  unfold extend? at extended
  split at extended
  · rename_i decimal
    cases extended
    have each : ∀ l ∈ Statement.Kind.all, numerical.permits l → decimal64.permits l := by
      decide +kernel
    exact each l l.mem_all (decimal.1 ▸ permitted)
  · split at extended
    · cases extended
      exact permitted
    · contradiction

theorem permits_foldlM (extended : ks.foldlM extend? shape = some next) :
    (∀ l, shape.permits l → next.permits l) ∧ ∀ k ∈ ks, next.permits k := by
  induction ks generalizing shape with
  | nil =>
    cases extended
    exact ⟨fun _ permitted => permitted, by simp⟩
  | cons k ks ih =>
    obtain ⟨between, first, later⟩ := Option.bind_eq_some_iff.mp extended
    obtain ⟨kept, admitted⟩ := ih later
    refine ⟨fun l permitted => kept l (permits_extend? first permitted), ?_⟩
    rw [List.forall_mem_cons]
    exact ⟨kept k (permits_of_extend? first), admitted⟩

theorem permits_ofRestrictions? (known : ofRestrictions? ks = some shape) :
    ∀ k ∈ ks, shape.permits k := by
  cases ks with
  | nil => contradiction
  | cons k ks =>
    obtain ⟨first, begins, extended⟩ := Option.bind_eq_some_iff.mp known
    obtain ⟨kept, admitted⟩ := permits_foldlM extended
    rw [List.forall_mem_cons]
    exact ⟨kept k (permits_of_ofFirst? begins), admitted⟩

theorem becomes_ofFirst? (permitted : final.permits k) (restriction : k ≠ .extension) :
    ∃ shape, ofFirst? k = some shape ∧ shape.Becomes final := by
  have each : ∀ final ∈ all, ∀ k ∈ Statement.Kind.all, final.permits k → k ≠ .extension →
      (ofFirst? k).any (·.Becomes final) := by decide +kernel
  have := each final final.mem_all k k.mem_all permitted restriction
  simpa [Option.any_eq_true] using this

theorem becomes_extend? (becomes : shape.Becomes final) (permitted : final.permits k)
    (restriction : k ≠ .extension) : ∃ next, shape.extend? k = some next ∧ next.Becomes final := by
  have each : ∀ shape ∈ all, ∀ final ∈ all, shape.Becomes final → ∀ k ∈ Statement.Kind.all,
    final.permits k →
      k ≠ .extension → (shape.extend? k).any (·.Becomes final) := by decide +kernel
  have := each shape shape.mem_all final final.mem_all becomes k k.mem_all permitted restriction
  simpa [Option.any_eq_true] using this

theorem becomes_foldlM (becomes : shape.Becomes final) (permitted : ∀ k ∈ ks, final.permits k)
    (restrictions : ∀ k ∈ ks, k ≠ .extension) : ∃ next, ks.foldlM extend? shape = some next ∧
      next.Becomes final := by
  induction ks generalizing shape with
  | nil => exact ⟨shape, rfl, becomes⟩
  | cons k ks ih =>
    rw [List.forall_mem_cons] at permitted restrictions
    obtain ⟨between, extended, becomes⟩ := becomes_extend? becomes permitted.1 restrictions.1
    obtain ⟨next, later, becomes⟩ := ih becomes permitted.2 restrictions.2
    exact ⟨next, by simp [extended, later], becomes⟩

/-- Restrictions that one shape admits go together, whatever their order. -/
theorem becomes_ofRestrictions? (nonempty : ks ≠ []) (permitted : ∀ k ∈ ks, final.permits k)
    (restrictions : ∀ k ∈ ks, k ≠ .extension) : ∃ shape, ofRestrictions? ks = some shape ∧
      shape.Becomes final := by
  cases ks with
  | nil => contradiction
  | cons k ks =>
    rw [List.forall_mem_cons] at permitted restrictions
    obtain ⟨first, begins, becomes⟩ := becomes_ofFirst? permitted.1 restrictions.1
    obtain ⟨shape, extended, becomes⟩ := becomes_foldlM becomes permitted.2 restrictions.2
    exact ⟨shape, by simp [ofRestrictions?, begins, extended], becomes⟩

theorem extend?_eq_some (extended : shape.extend? k = some next) :
    shape = next ∨ k = .core .fractionDigits := by
  unfold extend? at extended
  split at extended
  · exact .inr ‹_ ∧ _›.2
  · split at extended
    · exact .inl (Option.some.inj extended)
    · contradiction

/-- A restriction goes with those of a shape that admits it, and `fraction-digits` with a `range`
too. -/
theorem isSome_extend? : (shape.extend? k).isSome ↔
    shape.permits k ∨ shape = numerical ∧ k = .core .fractionDigits := by
  unfold extend?
  split
  · simp [*]
  · simp [*]

/-- Only `fraction-digits` makes a body decimal. -/
theorem fractionDigits_of_foldlM (extended : ks.foldlM extend? shape = some decimal64) :
    shape = decimal64 ∨ .core .fractionDigits ∈ ks := by
  induction ks generalizing shape with
  | nil => exact .inl (Option.some.inj extended)
  | cons k ks ih =>
    obtain ⟨between, first, later⟩ := Option.bind_eq_some_iff.mp extended
    rcases ih later with rfl | behind
    · rcases extend?_eq_some first with same | rfl
      · exact .inl same
      · exact .inr List.mem_cons_self
    · exact .inr (List.mem_cons_of_mem _ behind)

theorem fractionDigits_of_ofFirst? (begins : ofFirst? k = some decimal64) :
    k = .core .fractionDigits := by
  have each : ∀ k ∈ Statement.Kind.all, ofFirst? k = some decimal64 →
    k = .core .fractionDigits := by decide +kernel
  exact each k k.mem_all begins

theorem fractionDigits_of_ofRestrictions? (known : ofRestrictions? ks = some decimal64) :
    .core .fractionDigits ∈ ks := by
  cases ks with
  | nil => contradiction
  | cons k ks =>
    obtain ⟨first, begins, extended⟩ := Option.bind_eq_some_iff.mp known
    rcases fractionDigits_of_foldlM extended with rfl | behind
    · exact fractionDigits_of_ofFirst? begins ▸ List.mem_cons_self
    · exact List.mem_cons_of_mem _ behind

/-- A body is of the shape that admits all its restrictions; where two shapes do, `fraction-digits`
decides. -/
theorem ofRestrictions?_eq_some (restrictions : ∀ k ∈ ks, k ≠ .extension) :
    ofRestrictions? ks = some shape ↔
    ks ≠ [] ∧ (∀ k ∈ ks, shape.permits k) ∧ (shape = decimal64 → .core .fractionDigits ∈ ks) := by
  constructor
  · intro known
    refine ⟨?_, permits_ofRestrictions? known, ?_⟩
    · rintro rfl
      contradiction
    · rintro rfl
      exact fractionDigits_of_ofRestrictions? known
  · rintro ⟨nonempty, permitted, decimal⟩
    obtain ⟨found, known, rfl | ⟨rfl, rfl⟩⟩ :=
      becomes_ofRestrictions? nonempty permitted restrictions
    · exact known
    · have := permits_ofRestrictions? known _ (decimal rfl)
      contradiction

/-- The shape of a body depends on which restrictions it holds, not on their order or number. -/
theorem ofRestrictions?_congr (restrictions : ∀ k ∈ ks, k ≠ .extension)
    (same : ∀ k, k ∈ ks ↔ k ∈ ls) :
    ofRestrictions? ks = ofRestrictions? ls := by
  have others : ∀ k ∈ ls, k ≠ .extension := fun k member => restrictions k ((same k).mpr member)
  have nonempty : ks ≠ [] ↔ ls ≠ [] := by simp [List.eq_nil_iff_forall_not_mem, same]
  ext shape
  rw [ofRestrictions?_eq_some restrictions, ofRestrictions?_eq_some others, nonempty]
  simp only [same]

/-- Restrictions that no shape admits together. -/
def Conflicting (kinds : List Statement.Kind) : Prop :=
  ∀ shape : TypeShape, ∃ k ∈ kinds, shape.permits k = false

/-- A body without a shape holds no restrictions, or such as do not go together. -/
theorem ofRestrictions?_eq_none :
    ofRestrictions? (restrictionsAmong ks) = none ↔ restrictionsAmong ks = [] ∨ Conflicting ks := by
  have among (k : Statement.Kind) : k ∈ restrictionsAmong ks ↔ k ∈ ks ∧ k ≠ .extension := by
    simp [restrictionsAmong]
  constructor
  · intro shapeless
    by_cases empty : restrictionsAmong ks = []
    · exact .inl empty
    · refine .inr fun shape => Decidable.byContradiction fun together => ?_
      have permitted : ∀ k ∈ restrictionsAmong ks, shape.permits k := by
        intro k member
        simp only [not_exists, not_and, Bool.not_eq_false] at together
        exact together k ((among k).mp member).1
      obtain ⟨found, known, _⟩ := becomes_ofRestrictions? empty permitted fun k member =>
        ((among k).mp member).2
      rw [shapeless] at known
      contradiction
  · rintro (empty | conflicting)
    · rw [empty]
      rfl
    · rw [Option.eq_none_iff_forall_ne_some]
      intro shape known
      obtain ⟨k, member, refused⟩ := conflicting shape
      have restriction : k ≠ .extension := by
        rintro rfl
        cases refused.symm.trans shape.permits_extension
      cases refused.symm.trans
        (permits_ofRestrictions? known k ((among k).mpr ⟨member, restriction⟩))

/-- A body of a shape holds what the shape cannot do without. -/
theorem mem_of_isRequired (restrictions : ∀ k ∈ ks, k ≠ .extension)
    (known : ofRestrictions? ks = some shape) :
    ∀ r ∈ shape.rules, r.cardinality.isRequired → r.kind ∈ ks := by
  intro r member required
  obtain ⟨nonempty, permitted, decimal⟩ := (ofRestrictions?_eq_some restrictions).mp known
  by_cases digits : shape = decimal64
  · have only : ∀ r ∈ decimal64.rules, r.cardinality.isRequired →
      r.kind = .core .fractionDigits := by decide
    rw [only r (digits ▸ member) required]
    exact decimal digits
  · obtain ⟨k, first⟩ := List.exists_mem_of_ne_nil ks nonempty
    have only : ∀ shape ∈ all, shape ≠ decimal64 → ∀ r ∈ shape.rules, r.cardinality.isRequired →
        ∀ k ∈ Statement.Kind.all, shape.permits k → k ≠ .extension → k = r.kind := by decide +kernel
    rw [← only shape shape.mem_all digits r member required k k.mem_all (permitted k first)
      (restrictions k first)]
    exact first

theorem ofRestrictions?_restrictionsAmong_perm (perm : ks.Perm ls) :
    ofRestrictions? (restrictionsAmong ks) = ofRestrictions? (restrictionsAmong ls) := by
  apply ofRestrictions?_congr
  · simp [restrictionsAmong]
  · simp [restrictionsAmong, perm.mem_iff]

end Yang.Grammar.TypeShape
