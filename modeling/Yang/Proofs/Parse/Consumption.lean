import Yang.Proofs.Parse.Acceptance
import Yang.Proofs.Parse.Lookahead

/-! What a parse consumes. It never reads the end of the input nor what is no token, and it stops
short of the end only with a syntax error or where a block ends it. -/
namespace Yang

namespace Parse

/-- Every token that a parse counts has been read, and nothing else has. -/
theorem exists_reads_parseTokens (entry : Entry) (options : Options) (tokens : TokenStream) :
    ∃ τ es, (State.initial entry).Reads options.strictHeaderOrder
        (tokens.taken (parseTokens entry options tokens).advances) τ es ∧
      (parseTokens entry options tokens).rest = tokens.skip
        (parseTokens entry options tokens).advances := by
  obtain ⟨n, τ, es, reads, _, halt⟩ := exists_halt_parseTokens entry options tokens
  generalize parseTokens entry options tokens = p at *
  cases halt with
  | ended last => exact ⟨τ, es, reads, rfl⟩
  | failed more faulty => exact ⟨τ, es, reads, rfl⟩
  | stopped fast closed wrong =>
    have closing := reads.snoc closed
    rw [← TokenStream.taken_succ] at closing
    exact ⟨_, _, closing, TokenStream.advance_skip tokens n⟩

/-- The result is a tree, or all structural errors that there are. -/
def Conclusive (options : Options) (p : Parse) : Prop :=
  (∃ s, p.result = .ok s) ∨ options.failFast = false ∧ ∃ es, p.result = .error (.structural es)

/-- A parse that has read too little ends with a syntax error, or at a block. -/
theorem isEnd_of_conclusive {entry : Entry} {options : Options} {tokens : TokenStream}
    (conclusive : (parseTokens entry options tokens).Conclusive options) :
    (parseTokens entry options tokens).rest.next.isEnd := by
  obtain ⟨n, τ, es, _, _, halt⟩ := exists_halt_parseTokens entry options tokens
  generalize parseTokens entry options tokens = p at *
  cases halt with
  | ended last => exact last
  | failed more faulty => simp [Conclusive] at conclusive
  | stopped fast closed wrong => simp [Conclusive, fast] at conclusive

end Parse

open Parse

variable {entry : Entry} {options : Options} {tokens : TokenStream} {p : Parse}

/-- A parse reads no more tokens than come before the end, each of them once and in their order, and
none that is invalid. When its result is conclusive it has read them all, so without a syntax error
there is no invalid token. -/
theorem parseTokens_consumes (parsed : parseTokens entry options tokens = p) :
    p.advances ≤ tokens.pending.length ∧ p.rest = tokens.skip p.advances ∧
      (∀ t ∈ tokens.taken p.advances, t.kind ≠ .endOfInput ∧ t.kind ≠ .invalid) ∧
      (p.Conclusive options →
        tokens.taken p.advances = tokens.pending ∧ p.rest.next.isEnd ∧ ∀ t ∈ tokens.pending,
          t.kind ≠ .invalid) ∧
      (options.failFast = false → (∃ t ∈ tokens.pending, t.kind = .invalid) →
        ∃ e, p.result = .error (.syntactic e)) := by
  obtain ⟨τ, es, reads, rest⟩ := exists_reads_parseTokens entry options tokens
  have last (conclusive : p.Conclusive options) : p.rest.next.isEnd := by
    subst parsed
    exact isEnd_of_conclusive conclusive
  rw [parsed] at reads rest
  have whole (conclusive : p.Conclusive options) :
      tokens.taken p.advances = tokens.pending ∧ p.rest.next.isEnd ∧ ∀ t ∈ tokens.pending,
        t.kind ≠ .invalid := by
    have all := TokenStream.taken_append_pending reads.isEnd
    rw [← rest, TokenStream.pending_of_isEnd (last conclusive), List.append_nil] at all
    exact ⟨all, last conclusive, fun t member => (reads.kind_ne t (all ▸ member)).2⟩
  refine ⟨TokenStream.le_length_pending reads.isEnd, rest, reads.kind_ne, whole, ?_⟩
  rintro collecting ⟨t, member, invalid⟩
  have inconclusive : ¬ p.Conclusive options := fun conclusive =>
    (whole conclusive).2.2 t member invalid
  cases result : p.result with
  | ok s => exact absurd (.inl ⟨s, result⟩) inconclusive
  | error e =>
    cases e with
    | syntactic e => exact ⟨e, rfl⟩
    | structural es => exact absurd (.inr ⟨collecting, es, result⟩) inconclusive

theorem parseTokens_consumes_sample :
    (parseTokens .module {} Sample.supply).result = .ok Sample.tree ∧
    Sample.supply.taken (parseTokens .module {} Sample.supply).advances = Sample.supply.pending ∧
    (∃ t ∈ (Sample.bareModule [Sample.unknown]).pending, t.kind = .invalid) ∧
    ∃ e, (parseTokens .module {} (Sample.bareModule [Sample.unknown])).result =
      .error (.syntactic e) := by
  have invalid : ∃ t ∈ (Sample.bareModule [Sample.unknown]).pending, t.kind = .invalid :=
    ⟨Sample.unknown, by decide, rfl⟩
  obtain ⟨_, _, _, whole, _⟩ := parseTokens_consumes
    (rfl : parseTokens .module {} Sample.supply = _)
  obtain ⟨_, _, _, _, failed⟩ :=
    parseTokens_consumes (rfl : parseTokens .module {} (Sample.bareModule [Sample.unknown]) = _)
  exact ⟨Sample.accepted, (whole (.inl ⟨_, Sample.accepted⟩)).1, invalid, failed rfl invalid⟩

end Yang
