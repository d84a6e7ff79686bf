import Yang.Proofs.Parse.Halt
import Yang.Proofs.Statement.Rendering

/-! A parse looks at one token behind those it has read. What is further on has no influence on it:
token streams that begin alike are parsed alike. -/
namespace Yang

namespace Parse

variable {options : Options} {found : Array StructuralError} {read : Nat} {σ : State}
  {tokens others : TokenStream} {p : Parse} {es : List StructuralError}

/-- Where a parse ends, it looks at the next token only. -/
theorem Halt.of_next_eq (halt : Halt options found read σ tokens p)
    (next : others.next = tokens.next) :
    ∃ q, Halt options found read σ others q ∧ q.advances = p.advances ∧ q.result = p.result := by
  cases halt with
  | ended last =>
    rw [← next] at last ⊢
    exact ⟨_, .ended last, rfl, rfl⟩
  | failed more faulty =>
    rw [← next] at more faulty ⊢
    exact ⟨_, .failed more faulty, rfl, rfl⟩
  | stopped fast closed wrong =>
    rw [← next] at closed
    exact ⟨_, .stopped fast closed wrong, rfl, rfl⟩

/-- A parse that reads the same tokens, and comes to the same token, ends in the same way. -/
theorem parseTokens_eq_of_halt {entry : Entry} {n : Nat} {τ : State}
    (reads : (State.initial entry).Reads options.strictHeaderOrder (tokens.taken n) τ es)
    (clean : options.failFast → es = []) (halt : Halt options es.toArray n τ (tokens.skip n) p)
    (same : others.taken n = tokens.taken n) (next : (others.skip n).next = (tokens.skip n).next) :
    (parseTokens entry options others).advances = p.advances ∧
      (parseTokens entry options others).result = p.result := by
  obtain ⟨q, halted, outcome⟩ := halt.of_next_eq next
  rw [parseTokens_of_halt (same.symm ▸ reads) clean halted]
  exact outcome

end Parse

open Parse

variable {entry : Entry} {options : Options} {tokens others : TokenStream} {n : Nat}

/-- A parse that has read some tokens depends on these and on the one ahead. If a block whose counts
are wrong has ended it, it does not even depend on that one. -/
theorem parseTokens_eq_of_taken_eq (read : (parseTokens entry options tokens).advances = n)
    (same : others.taken n = tokens.taken n)
    (ahead : (others.skip n).next = (tokens.skip n).next ∨
      options.failFast ∧ ∃ es, (parseTokens entry options tokens).result =
        .error (.structural es)) :
    (parseTokens entry options others).advances = n ∧
      (parseTokens entry options others).result = (parseTokens entry options tokens).result := by
  obtain ⟨m, τ, es, reads, clean, halt⟩ := exists_halt_parseTokens entry options tokens
  generalize parseTokens entry options tokens = p at *
  have seen : others.taken m = tokens.taken m ∧ (others.skip m).next = (tokens.skip m).next := by
    cases halt with
    | ended last =>
      obtain rfl : m = n := read
      refine ⟨same, ahead.resolve_right ?_⟩
      rintro ⟨fast, fs, structural⟩
      rw [clean fast] at structural
      exact conclude_ne_structural structural
    | failed more faulty =>
      obtain rfl : m = n := read
      refine ⟨same, ahead.resolve_right ?_⟩
      rintro ⟨_, fs, structural⟩
      cases structural
    | stopped fast closed wrong =>
      -- The token that closes the block has been read, so the streams agree on it.
      obtain rfl : m + 1 = n := read
      rw [TokenStream.taken_succ, TokenStream.taken_succ] at same
      simpa using List.append_inj' same rfl
  obtain ⟨advances, result⟩ := parseTokens_eq_of_halt reads clean halt seen.1 seen.2
  exact ⟨advances.trans read, result⟩

namespace Sample

/-- A module that lacks its namespace and its prefix, with more tokens behind it. -/
def bareModule (behind : List Token) : TokenStream :=
  .ofList (.unplaced (.keyword .module) "module" :: .unplaced .identifier "m" ::
    .unplaced .leftBrace "\x7b" ::
    .unplaced .rightBrace "\x7d" :: behind)

def unknown : Token := .unplaced .invalid "?"

end Sample

theorem parseTokens_eq_of_taken_eq_sample :
    (parseTokens .module ⟨true, true⟩ (Sample.bareModule [])).advances = 4 ∧
      (Sample.bareModule [Sample.unknown]).taken 4 = (Sample.bareModule []).taken 4 ∧
      (∃ es, (parseTokens .module ⟨true, true⟩ (Sample.bareModule [])).result =
        .error (.structural es)) ∧
      (parseTokens .module ⟨true, true⟩ (Sample.bareModule [Sample.unknown])).advances = 4 ∧
      (parseTokens .module ⟨true, true⟩ (Sample.bareModule [Sample.unknown])).result =
        (parseTokens .module ⟨true, true⟩ (Sample.bareModule [])).result := by
  have reads : (State.initial .module).Reads true ((Sample.bareModule []).taken 3) _ [] :=
    State.readAll_eq_ok.mp rfl
  have parsed : parseTokens .module ⟨true, true⟩ (Sample.bareModule []) = _ :=
    parseTokens_of_halt reads (fun _ => rfl) (.stopped rfl rfl (List.cons_ne_nil _ _))
  have read : (parseTokens .module ⟨true, true⟩ (Sample.bareModule [])).advances = 4 :=
    congrArg Parse.advances parsed
  have stopped : ∃ es, (parseTokens .module ⟨true, true⟩ (Sample.bareModule [])).result =
    .error (.structural es) :=
    ⟨_, congrArg Parse.result parsed⟩
  exact ⟨read, rfl, stopped, parseTokens_eq_of_taken_eq read rfl (.inr ⟨rfl, stopped⟩)⟩

end Yang
