import Yang.Proofs.Parse.FailFast
import Yang.Proofs.Parse.Passage

/-! The shape of a type. What the parser knows of it while it reads the restrictions one by one is
what the complete statement shows: it depends on which restrictions there are and on nothing else,
and none that it needs is missing. -/
namespace Yang

open Grammar Parse

namespace Statement

variable {s u : Statement}

/-- The shape of a type depends on which restrictions it holds. -/
theorem typeShape?_congr (type : s.kind = .core .type) (other : u.kind = .core .type)
    (same : ∀ k, k ≠ .extension → (k ∈ s.kinds ↔ k ∈ u.kinds)) : typeShape? s = typeShape? u := by
  rw [typeShape?_eq type, typeShape?_eq other]
  apply TypeShape.ofRestrictions?_congr
  · simp [TypeShape.restrictionsAmong]
  · intro k
    simpa [TypeShape.restrictionsAmong, and_comm] using and_congr_right (same k)

theorem restrictionsAmong_eq_nil :
    TypeShape.restrictionsAmong s.kinds = [] ↔ ∀ c ∈ s.children, c.isExtension := by
  simp [TypeShape.restrictionsAmong, kinds, isExtension]

theorem typeShape?_eq_none (type : s.kind = .core .type) :
    typeShape? s = none ↔ (∀ c ∈ s.children, c.isExtension) ∨ TypeShape.Conflicting s.kinds := by
  rw [typeShape?_eq type, TypeShape.ofRestrictions?_eq_none, restrictionsAmong_eq_nil]

/-- No type lacks a restriction that its shape needs. -/
theorem ne_missing_of_type (type : s.kind = .core .type) :
    ∀ v ∈ s.ownViolations, ∀ k, v.violation ≠ .missing k := by
  rintro v member k missing
  obtain ⟨_, reported, rfl⟩ := List.mem_map.mp member
  obtain rfl := missing
  obtain ⟨r, rule, _, required, absent⟩ := Violation.missing_mem_ofBlock.mp reported
  rw [countingRules, if_pos type] at rule
  cases known : typeShape? s with
  | none =>
    rw [known] at rule
    obtain rfl := List.mem_singleton.mp rule
    contradiction
  | some shape =>
    rw [known] at rule
    rw [typeShape?_eq type] at known
    have present := TypeShape.mem_of_isRequired (by simp [TypeShape.restrictionsAmong]) known r
      rule required
    exact absent (List.mem_filter.mp present).1

end Statement

namespace Parse

/-- The token completes the statement: it is the semicolon that ends it, or the brace that closes
its block. -/
inductive Completes : State → Token → Statement → Prop where
  | ended (named : Named phase k keyword argument) (semicolon : t.kind = .semicolon) :
    Completes ⟨enclosing, phase⟩ t ⟨k, keyword.text, argument, [], keyword.span.cover t.span⟩
  | closed (brace : t.kind = .rightBrace) : Completes ⟨enclosing, .content b⟩ t (b.statement t)

variable {strict : Bool} {root : Statement.Kind → Prop} {b : Block} {s : Statement} {t : Token}
  {σ τ : State} {ts : List Token} {es : List StructuralError} {entry : Entry} {options : Options}
  {tokens : TokenStream}

namespace State

theorem completes_of_move (move : Move strict σ t τ es) (member : s ∈ τ.completed) :
    s ∈ σ.completed ∨ Completes σ t s := by
  cases move with
  | unit word accepted => exact .inl member
  | argument takes begins => exact .inl member
  | plus join => exact .inl member
  | piece joined => exact .inl member
  | ended named semicolon allowed =>
    rw [completed_ended named rfl, List.mem_append, List.mem_singleton] at member
    refine member.imp_right ?_
    rintro rfl
    exact .ended named semicolon
  | opened named brace =>
    rw [completed_of_named named]
    refine .inl ?_
    simpa [completed, Block.completed, Block.opened, Statement.postorderAll] using member
  | closed brace =>
    rw [completed_closed, List.mem_append, List.mem_singleton] at member
    refine member.imp_right ?_
    rintro rfl
    exact .closed brace
  | begun inside received =>
    refine .inl ?_
    simpa [completed, completedInAll_cons, Block.completed] using member

/-- Whatever is complete has been completed by one of the tokens that were read. -/
theorem Reads.exists_completes (reads : σ.Reads strict ts τ es) (member : s ∈ τ.completed) :
    s ∈ σ.completed ∨
    ∃ before t later υ fs, ts = before ++ t :: later ∧ σ.Reads strict before υ fs ∧
      Completes υ t s := by
  induction reads with
  | none => exact .inl member
  | @next _ ts _ _ σ t fs stepped later ih =>
    rcases ih member with earlier | ⟨before, u, behind, φ, hs, rfl, reads, completes⟩
    · refine (completes_of_move (step_eq_ok_iff.mp stepped) earlier).imp_right fun completes => ?_
      exact ⟨[], t, ts, σ, [], rfl, .none, completes⟩
    · exact .inr ⟨t :: before, u, behind, φ, fs ++ hs, rfl, .next stepped reads, completes⟩

end State

/-- While the substatements of a type are read, its shape is known as it shows in the end. -/
theorem Block.Ready.progress_eq (ready : b.Ready strict) (type : b.kind = .core .type)
    (close : Token) :
    b.progress = .restrictions (typeShape? (b.statement close)) := by
  rw [Ready, type, Progress.afterAll?_type] at ready
  rw [Statement.typeShape?_eq (s := b.statement close) type]
  exact ready.2.symm

theorem Completes.orderly (completes : Completes σ t s) (sound : σ.Sound strict root) :
    s.Orderly strict := by
  cases completes with
  | ended named semicolon => rfl
  | closed brace => exact Option.isSome_of_eq_some sound.2.1

/-- What is completed in a parse, with the state in which it is. -/
theorem exists_completes_of_completedIn (member : s ∈ completedIn entry strict tokens) :
    ∃ before t later σ es, tokens.pending = before ++ t :: later ∧
      (State.initial entry).Reads strict before σ es ∧ Completes σ t s := by
  obtain ⟨τ, es, reads, _, reached, _⟩ := exists_collected entry strict tokens
  rw [completedIn, reached] at member
  obtain ⟨before, t, later, σ, fs, split, first, completes⟩ :=
    (reads.exists_completes member).resolve_left List.not_mem_nil
  have whole := TokenStream.taken_append_pending reads.isEnd
  rw [split, List.append_assoc] at whole
  exact ⟨before, t, _, σ, fs, whole.symm, first, completes⟩

/-- The structural errors that end a parse are about statements that it has completed. -/
theorem exists_of_structural
    (failed : (parseTokens entry options tokens).result = .error (.structural es)) :
    ∀ v ∈ es, ∃ s ∈ completedIn entry options.strictHeaderOrder tokens, v ∈ s.ownViolations := by
  obtain ⟨strict, failFast⟩ := options
  have collecting
    (collected : (parseTokens entry ⟨strict, false⟩ tokens).result = .error (.structural es)) :
      ∀ v ∈ es, ∃ s ∈ completedIn entry strict tokens, v ∈ s.ownViolations := by
    obtain ⟨_, _, _, halt, _, rfl⟩ := exists_collected entry strict tokens
    obtain ⟨rfl, _⟩ := halt.found_eq.2 es collected
    exact fun v member => List.mem_flatMap.mp member
  cases failFast with
  | false => exact collecting failed
  | true =>
    cases breach : firstBreach? entry strict tokens with
    | none => exact collecting (parseTokens_failFast_of_clean breach ▸ failed)
    | some s =>
      rw [(parseTokens_failFast_of_breach breach).1] at failed
      cases failed
      exact fun v member => ⟨s, List.mem_of_find?_eq_some breach, member⟩

end Parse

/-- The shape of a type is the same for all bodies with the same restrictions, in any order and
number and among any extension statements, and no shape is found for restrictions that no shape
admits together. In a parse, a type is without a shape only if it holds nothing but extension
statements; otherwise its shape is the one that the parser has come to when the block is closed, and
the rules of that shape are those that the block is counted by. Never is a restriction missing. -/
theorem typeShape?_of_parse (entry : Entry) (options : Options) (tokens : TokenStream) :
    (∀ s u : Statement, s.kind = .core .type → u.kind = .core .type →
      (∀ k, k ≠ .extension → (k ∈ s.kinds ↔ k ∈ u.kinds)) → typeShape? s = typeShape? u) ∧
    (∀ s : Statement, s.kind = .core .type → TypeShape.Conflicting s.kinds → typeShape? s = none) ∧
    (∀ s ∈ completedIn entry options.strictHeaderOrder tokens, s.kind = .core .type →
      (typeShape? s = none ↔ ∀ c ∈ s.children, c.isExtension) ∧
      ∃ before t later σ es, tokens.pending = before ++ t :: later ∧
        (State.initial entry).Reads options.strictHeaderOrder before σ es ∧ Completes σ t s ∧
        ∀ b, σ.phase = .content b → b.progress = .restrictions (typeShape? s) ∧
          b.violations t =
            (Violation.ofBlock (TypeShape.bodyRules (typeShape? s)) false s.kinds).map
            (⟨s.kind, s.argument, ·, s.span⟩)) ∧
    (∀ s, parseSyntax entry options.strictHeaderOrder tokens = .ok s →
      completedIn entry options.strictHeaderOrder tokens = s.postorder) ∧
    ∀ es, (parseTokens entry options tokens).result = .error (.structural es) →
      ∀ v ∈ es, v.parent = .core .type → ∀ k, v.violation ≠ .missing k := by
  refine ⟨fun s u => Statement.typeShape?_congr, ?_, ?_, fun s => completedIn_of_parseSyntax, ?_⟩
  · intro s type conflicting
    exact (Statement.typeShape?_eq_none type).mpr (.inr conflicting)
  · intro s member type
    obtain ⟨before, t, later, σ, es, split, reads, completes⟩ :=
      exists_completes_of_completedIn member
    have sound := (State.sound_initial entry).reads reads
    have orderly := completes.orderly sound
    rw [Statement.orderly_type type, Statement.restrictionsAmong_eq_nil,
      ← Statement.typeShape?_eq type] at orderly
    refine ⟨⟨?_, fun extensions => (Statement.typeShape?_eq_none type).mpr (.inl extensions)⟩,
      before, t, later, σ, es,
      split, reads, completes, ?_⟩
    · intro shapeless
      exact orderly.resolve_right (by simp [shapeless])
    · intro b open_
      cases completes with
      | ended named semicolon =>
        obtain rfl : _ = Phase.content b := open_
        cases named
      | closed brace =>
        cases open_
        have progress := sound.2.1.progress_eq type t
        have rules : b.countingRules = TypeShape.bodyRules (typeShape? (b.statement t)) := by
          rw [Block.countingRules, progress]
        have ending : decide ((rule b.kind).ending = .nonEmptyBlock) = false := by
          rw [show b.kind = _ from type]
          rfl
        refine ⟨progress, ?_⟩
        rw [Block.violations, rules, ending]
        rfl
  · intro es failed v member parent
    obtain ⟨s, _, own⟩ := exists_of_structural failed v member
    have type : s.kind = .core .type := by
      obtain ⟨_, _, rfl⟩ := List.mem_map.mp own
      exact parent
    exact Statement.ne_missing_of_type type v own

namespace Sample

open Parse.Sample

/-- A type that begins as a numerical one, in a module that breaks off behind it. -/
def breakingOff : TokenStream :=
  .ofList [word .module, string "m", left, word .typedef, string "t", left, word .type,
    string "u", left, word .range, string "1", semicolon, .unplaced .identifier "m:x", semicolon,
    word .fractionDigits, string "2", semicolon, right]

def decimal : Statement :=
  ⟨.core .type, "type", some "u",
    [⟨.core .range, "range", some "1", [], nowhere⟩, ⟨.extension, "m:x", none, [], nowhere⟩,
      ⟨.core .fractionDigits, "fraction-digits", some "2", [], nowhere⟩], nowhere⟩

end Sample

theorem typeShape?_of_parse_sample : Sample.decimal ∈ completedIn .module true Sample.breakingOff ∧
    typeShape? Sample.decimal = some .decimal64 ∧
    ∃ before t σ es, (State.initial .module).Reads true before σ es ∧ Completes σ t Sample.decimal ∧
      ∀ b, σ.phase = .content b → b.progress = .restrictions (some .decimal64) := by
  have completed : completedIn .module true Sample.breakingOff =
    Sample.decimal.children ++ [Sample.decimal] := rfl
  have member : Sample.decimal ∈ completedIn .module true Sample.breakingOff := by simp [completed]
  have shape : typeShape? Sample.decimal = some .decimal64 := by decide +kernel
  obtain ⟨_, before, t, _, σ, es, _, reads, completes, known⟩ :=
    (typeShape?_of_parse .module {} Sample.breakingOff).2.2.1 Sample.decimal member rfl
  exact ⟨member, shape, before, t, σ, es, reads, completes,
    fun b open_ => (known b open_).1.trans (by rw [shape])⟩

end Yang
