import Yang.Parse.Fault
import Yang.Proofs.Grammar.Shape

/-! What the error of a fault tells of the token that it is found at. -/
namespace Yang

/-- The error is located at the token, and names it. Its code says whether the token is none, or the
end. -/
structure SyntaxError.PointsAt (e : SyntaxError) (t : Token) : Prop where
  span : e.span = t.span
  found : e.found = t.describe
  invalid : e.code = .invalidToken ↔ t.kind = .invalid
  ended : e.code = .inputEnds ↔ t.kind = .endOfInput

namespace Parse.Fault

variable {f : Fault} {t : Token}

/-- Only the token tells that it is invalid, and no fault is about counts. -/
theorem code_ne (f : Fault) :
    f.code ≠ .invalidToken ∧ f.code ≠ .closingBraceMissing ∧ f.code.isStructural = false := by
  cases f <;> exact ⟨by simp [code], by simp [code], rfl⟩

/-- But for a `deviate` argument that names no form, a fault is reported at the token. -/
theorem toError_eq (here : f.code ≠ .deviateArgument) (t : Token) :
    (f.toError t).span = t.span ∧ (f.toError t).found = t.describe ∧
      (f.toError t).code = match t.kind with
        | .invalid => .invalidToken
        | .endOfInput => .inputEnds
        | _ => f.code := by
  obtain ⟨kind, text, span, range⟩ := t
  cases f with
  | deviateArgument argument first => exact absurd rfl here
  | _ => cases kind <;> exact ⟨rfl, rfl, rfl⟩

/-- The code of a fault is that of its error, unless the token is none or the end of the input. -/
theorem code_toError (token : t.kind ≠ .invalid) (more : t.kind ≠ .endOfInput) :
    (f.toError t).code = f.code := by
  by_cases here : f.code = .deviateArgument
  · cases f <;> cases here
    rfl
  · rw [(toError_eq here t).2.2]
    split <;> simp_all

/-- An error is that of a `deviate` argument if its fault is. -/
theorem code_toError_eq_deviateArgument :
    (f.toError t).code = .deviateArgument ↔ f.code = .deviateArgument := by
  by_cases here : f.code = .deviateArgument
  · cases f <;> cases here
    exact ⟨fun _ => rfl, fun _ => rfl⟩
  · rw [(toError_eq here t).2.2]
    split <;> simp [here]

theorem code_toError_ne (f : Fault) (t : Token) :
    (f.toError t).code ≠ .closingBraceMissing ∧ (f.toError t).code.isStructural = false := by
  by_cases here : f.code = .deviateArgument
  · rw [code_toError_eq_deviateArgument.mpr here]
    decide
  · rw [(toError_eq here t).2.2]
    split
    · decide
    · decide
    · exact f.code_ne.2

theorem pointsAt_toError (here : f.code ≠ .deviateArgument)
    (ended : f.code = .inputEnds → t.kind = .endOfInput) :
    (f.toError t).PointsAt t := by
  obtain ⟨span, found, code⟩ := toError_eq here t
  refine ⟨span, found, ?_, ?_⟩
  · rw [code]
    split
    · simp_all
    · simp_all
    · rename_i valid _
      exact iff_of_false f.code_ne.1 valid
  · rw [code]
    split
    · simp_all
    · simp_all
    · rename_i more
      exact ⟨ended, fun last => absurd last more⟩

/-- Where the token is there and is one, an error has the code of its fault. -/
theorem code_of_toError (token : (f.toError t).code ≠ .invalidToken)
    (more : (f.toError t).code ≠ .inputEnds) :
    f.code = (f.toError t).code := by
  by_cases here : f.code = .deviateArgument
  · rw [here, code_toError_eq_deviateArgument.mpr here]
  · rw [(toError_eq here t).2.2] at token more ⊢
    split <;> simp_all

theorem expected_toError (f : Fault) (t : Token) : (f.toError t).expected = f.expected := by
  obtain ⟨kind, text, span, range⟩ := t
  cases f <;> cases kind <;> rfl

theorem toList_quoted (word : String) : (quoted word).toList = '\'' :: word.toList ++ ['\''] := by
  have same : quoted word = "'" ++ word ++ "'" := rfl
  simp [same]

theorem quoted_injective {word other : String} (same : quoted word = quoted other) :
    word = other := by
  have same := congrArg String.toList same
  simpa [toList_quoted, String.toList_inj] using same

/-- What is expected by a word is a kind of statement that is written with that word. -/
theorem expectation_eq_quoted {k : Statement.Kind} {word : String} :
    expectation k = quoted word ↔ k ≠ .extension ∧ k.keyword = word := by
  unfold expectation
  split
  · rename_i extension
    subst extension
    refine iff_of_false ?_ (by simp)
    intro same
    have same := congrArg String.toList same
    simp [toList_quoted, Statement.Kind.displayName] at same
  · rename_i other
    exact ⟨fun same => ⟨other, quoted_injective same⟩, fun ⟨_, same⟩ => congrArg quoted same⟩

/-- By their words, the substatements of the rules are expected, and the end of the block. -/
theorem quoted_mem_expectedIn {rules : List Grammar.Substatement} {word : String} :
    quoted word ∈ expectedIn rules ↔
    (∃ k, Grammar.permits rules k ∧ k ≠ .extension ∧ k.keyword = word) ∨ word = "\x7d" := by
  simp only [expectedIn, List.mem_append, List.mem_eraseDups, List.mem_map, List.mem_singleton,
    expectation_eq_quoted, Grammar.permits_iff]
  constructor
  · rintro (⟨r, member, named⟩ | close)
    · exact .inl ⟨r.kind, ⟨r, member, rfl⟩, named⟩
    · exact .inr (quoted_injective close)
  · rintro (⟨_, ⟨r, member, rfl⟩, named⟩ | rfl)
    · exact .inl ⟨r, member, named⟩
    · exact .inr rfl

/-- In a type whose shape is known, the restrictions that go with the shape are expected, and the
end of the block. -/
theorem quoted_mem_expectedInShape {shape : Grammar.TypeShape} {word : String} :
    quoted word ∈ expectedInShape shape ↔
      (∃ k, (shape.extend? k).isSome ∧ k ≠ .extension ∧ k.keyword = word) ∨ word = "\x7d" := by
  have permitted :
    (∃ k, (k ∈ shape.rules.map (·.kind) ∧ k ≠ .extension) ∧ expectation k = quoted word) ↔
      ∃ k, shape.permits k ∧ k ≠ .extension ∧ k.keyword = word := by
    simp only [expectation_eq_quoted, Grammar.TypeShape.permits, Grammar.permits_iff, List.mem_map]
    grind
  have decimal : quoted word ∈
    (if shape = .numerical then [expectation (.core .fractionDigits)] else []) ↔
      shape = .numerical ∧ Keyword.fractionDigits.name = word := by
    split
    · simp [*, eq_comm (a := quoted word), expectation_eq_quoted, Statement.Kind.keyword]
    · simp [*]
  have extension : quoted word ≠ expectation .extension :=
    fun same => (expectation_eq_quoted.mp same.symm).1 rfl
  have brace : quoted word = quoted "\x7d" ↔ word = "\x7d" := ⟨quoted_injective, congrArg quoted⟩
  simp only [expectedInShape, List.mem_append, List.mem_cons, List.mem_map (f := expectation),
    List.mem_filter,
    decide_eq_true_eq, permitted, decimal, extension, brace, List.not_mem_nil,
      Grammar.TypeShape.isSome_extend?,
    or_false, false_or, or_and_right, exists_or]
  refine or_congr_left (or_congr_right ?_)
  constructor
  · rintro ⟨numerical, named⟩
    exact ⟨_, ⟨numerical, rfl⟩, nofun, named⟩
  · rintro ⟨_, ⟨numerical, rfl⟩, _, named⟩
    exact ⟨numerical, named⟩

end Parse.Fault
end Yang
