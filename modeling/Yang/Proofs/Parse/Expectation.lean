import Yang.Proofs.Parse.Faults
import Yang.Proofs.Parse.RegionOrder

/-! What a parse says was expected in a block, against what it would have read there. It names all
that the block's kind admits, and among it what the substatements of a unit or of a type exclude by
now; only a conflict of restrictions names just what goes with those that are there. -/
namespace Yang

open Grammar Parse

/-- What is wrong is that a block does not take the token. -/
def Diagnostic.Code.isRefusal : Diagnostic.Code → Bool
  | notPermitted | outOfOrder | restrictionsConflict => true
  | _ => false

/-- The word by which a keyword or a closing brace is quoted where it is expected. -/
def Token.Kind.word? : Token.Kind → Option String
  | keyword k => some k.name
  | deviate => some "deviate"
  | rightBrace => some "\x7d"
  | _ => none

theorem Keyword.name_ne (k : Keyword) : k.name ≠ "deviate" ∧ k.name ≠ "\x7d" := by
  have each : ∀ k ∈ all, k.name ≠ "deviate" ∧ k.name ≠ "\x7d" := by decide +kernel
  exact each k k.mem_all

namespace Token.Kind

variable {t : Token.Kind} {k : Keyword}

theorem eq_keyword_of_word? (named : t.word? = some k.name) : t = .keyword k := by
  cases t with
  | keyword l => exact congrArg keyword (Keyword.name_injective (Option.some.inj named))
  | deviate => exact absurd (Option.some.inj named).symm k.name_ne.1
  | rightBrace => exact absurd (Option.some.inj named).symm k.name_ne.2
  | _ => contradiction

theorem eq_deviate_of_word? (named : t.word? = some "deviate") : t = .deviate := by
  cases t with
  | keyword l => exact absurd (Option.some.inj named) l.name_ne.1
  | deviate => rfl
  | rightBrace => simp [word?] at named
  | _ => contradiction

theorem eq_rightBrace_of_word? (named : t.word? = some "\x7d") : t = .rightBrace := by
  cases t with
  | keyword l => exact absurd (Option.some.inj named) l.name_ne.2
  | deviate => simp [word?] at named
  | rightBrace => rfl
  | _ => contradiction

end Token.Kind

/-- The error says that the token was expected, by the word of its keyword or as a closing brace. -/
def SyntaxError.Expects (e : SyntaxError) (t : Token) : Prop :=
  ∃ word, t.kind.word? = some word ∧ Fault.quoted word ∈ e.expected

namespace Parse

variable {strict : Bool} {b : Block} {k : Statement.Kind} {fault : Fault} {t u : Token}
  {word value : String} {starter : Starter} {enclosing : List Block} {σ : State} {entry : Entry}
  {options : Options} {ts later : List Token} {es : List StructuralError}

/-- The substatements of a block so far exclude one of the kind: in a unit it belongs before one of
them, and in a type it does not go with their shape. -/
def Block.Excludes (strict : Bool) (b : Block) (k : Statement.Kind) : Prop :=
  (b.kind.isUnit ∧ ∃ j ∈ b.kinds, SortsBefore strict b.kind k j) ∨
    b.kind = .core .type ∧
      ∃ shape ∈ TypeShape.ofRestrictions? (TypeShape.restrictionsAmong b.kinds),
        shape.extend? k = none

instance (strict : Bool) (b : Block) (k : Statement.Kind) : Decidable (b.Excludes strict k) :=
  inferInstanceAs (Decidable (_ ∨ _))

namespace Block

theorem Ready.isSome_after?_unit (ready : b.Ready strict) (isUnit : b.kind.isUnit)
    (permitted : permits (rule b.kind).substatements k) :
    (b.progress.after? strict b.kind k).isSome ↔ ∀ j ∈ b.kinds,
      ¬ SortsBefore strict b.kind k j := by
  have admitted : (Progress.afterAll? strict b.kind b.kinds).isSome :=
    Option.isSome_of_eq_some ready
  have inside : ∀ j ∈ b.kinds, (region? b.kind j).isSome := by
    intro j member
    rw [isSome_region? b.kind j isUnit]
    exact ((Progress.isSome_afterAll?_unit isUnit).mp admitted).1 j member
  have regions : ∀ j ∈ b.kinds ++ [k], (region? b.kind j).isSome := by
    rw [← isSome_region? b.kind k isUnit] at permitted
    simpa [or_imp, forall_and] using ⟨inside, permitted⟩
  have behind := Progress.afterAll?_append strict b.kind b.kinds k
  rw [show Progress.afterAll? strict b.kind b.kinds = _ from ready, Option.bind_some] at behind
  rw [← behind, Progress.isSome_afterAll?_of_regions isUnit regions, unitInOrder_append,
    and_iff_right ((Progress.isSome_afterAll?_of_regions isUnit inside).mp admitted)]

theorem Ready.isSome_after?_type (ready : b.Ready strict) (type : b.kind = .core .type)
    (restriction : k ≠ .extension) (permitted : permits (rule b.kind).substatements k) :
    (b.progress.after? strict b.kind k).isSome ↔
      ∀ shape, TypeShape.ofRestrictions? (TypeShape.restrictionsAmong b.kinds) = some shape →
        (shape.extend? k).isSome := by
  rw [Ready, type, Progress.afterAll?_type] at ready
  rw [← ready.2, Progress.after?, if_neg restriction, Option.isSome_map]
  cases TypeShape.ofRestrictions? (TypeShape.restrictionsAmong b.kinds) with
  | none =>
    rw [type, ← TypeShape.isSome_ofFirst? restriction] at permitted
    simpa using permitted
  | some shape => simp

/-- Of what its kind admits, a block takes all that its substatements so far do not exclude. -/
theorem Ready.isSome_after?_iff (ready : b.Ready strict) (restriction : k ≠ .extension)
    (permitted : permits (rule b.kind).substatements k) :
    (b.progress.after? strict b.kind k).isSome ↔ ¬ b.Excludes strict k := by
  cases isUnit : b.kind.isUnit with
  | true =>
    have other := (Statement.Kind.ne_of_isUnit isUnit).1
    simp [ready.isSome_after?_unit isUnit permitted, Excludes, isUnit, other]
  | false =>
    by_cases type : b.kind = .core .type
    · rw [ready.isSome_after?_type type restriction permitted]
      simp [Excludes, type, Statement.Kind.isUnit, Option.isSome_iff_ne_none]
    · have plain := (Progress.afterAll?_plain isUnit type).mp ready
      simp [← plain.2, Progress.after?, permitted, Excludes, isUnit, type]

/-- A token that begins a statement of the kind is taken just when the block goes on to it. -/
theorem Ready.exists_receive_iff (ready : b.Ready strict) (other : b.kind ≠ .extension)
    (starts : Starter.ofToken? false u.kind = some starter)
    (resolved : starter.resolve? value = some k) :
    (∃ begun, b.receive strict u = .ok begun) ↔ (b.progress.after? strict b.kind k).isSome := by
  have received (begun : Starter × Progress) : b.receive strict u = .ok begun ↔
      Starter.ofToken? false u.kind = some begun.1 ∧
        begun.1.Takes strict b.kind b.progress begun.2 := by
    rw [show b.receive strict u = .ok begun ↔ _ from receive_eq_ok ready.suits]
    simp [other]
  simp only [received, Option.isSome_iff_exists]
  constructor
  · rintro ⟨⟨_, q⟩, same, takes⟩
    cases starts.symm.trans same
    exact ⟨q, (Starter.takes_iff resolved).mp takes⟩
  · rintro ⟨q, taken⟩
    exact ⟨⟨starter, q⟩, starts, (Starter.takes_iff resolved).mpr taken⟩

end Block

/-- A keyword that has the word of a kind starts a statement of that kind, if its argument agrees.
-/
theorem exists_starter_of_word? {t : Token.Kind} (named : t.word? = some k.keyword)
    (core : k ≠ .extension) :
    ∃ starter value, Starter.ofToken? false t = some starter ∧ starter.resolve? value = some k := by
  cases k with
  | core l =>
    obtain rfl := Token.Kind.eq_keyword_of_word? named
    exact ⟨.kind (.core l), "", rfl, rfl⟩
  | deviate f =>
    obtain rfl := Token.Kind.eq_deviate_of_word? named
    exact ⟨.deviate, f.argument, rfl, Option.map_eq_some_iff.mpr
      ⟨f, DeviateForm.ofArgument?_eq_some.mpr rfl, rfl⟩⟩
  | extension => contradiction

/-- A block that refuses a token expects what its kind admits, unless it is a type whose
restrictions conflict. -/
theorem Block.expected_of_receive (refused : b.receive strict t = .error fault) :
    (fault.code ≠ .restrictionsConflict ∧
        (fault.expected = [] ∨ fault.expected = Fault.expectedIn (rule b.kind).substatements)) ∨
      ∃ shape, b.progress = .restrictions (some shape) ∧
        fault.expected = Fault.expectedInShape shape := by
  unfold receive at refused
  split at refused
  · split at refused
    · contradiction
    · cases refused
      exact .inl ⟨by simp [Fault.code], .inr rfl⟩
  · unfold receiveRestriction at refused
    repeat' split at refused
    all_goals cases refused
    · exact .inl ⟨by simp [Fault.code], .inr rfl⟩
    · exact .inr ⟨_, ‹_›, rfl⟩
    · exact .inl ⟨by simp [Fault.code], .inr rfl⟩
  · unfold receiveInUnit receiveHeader at refused
    repeat' split at refused
    all_goals cases refused
    all_goals simp [Fault.code, Fault.expected]

/-- A token that a block expects, having refused another, closes it or begins what its kind admits;
where restrictions conflict, it begins what goes with them. -/
theorem Block.Ready.exists_kind_of_expected (ready : b.Ready strict)
    (refused : b.receive strict t = .error fault) (named : u.kind.word? = some word)
    (listed : Fault.quoted word ∈ fault.expected) :
    u.kind = .rightBrace ∨
    ∃ k starter value, k ≠ .extension ∧ permits (rule b.kind).substatements k ∧
      Starter.ofToken? false u.kind = some starter ∧ starter.resolve? value = some k ∧
      (fault.code = .restrictionsConflict → (b.progress.after? strict b.kind k).isSome) := by
  rcases Block.expected_of_receive refused with ⟨apart, unlisted | all⟩ | ⟨shape, progress, all⟩
  · rw [unlisted] at listed
    contradiction
  · rw [all, Fault.quoted_mem_expectedIn] at listed
    rcases listed with ⟨k, permitted, core, rfl⟩ | rfl
    · obtain ⟨starter, value, starts, resolved⟩ := exists_starter_of_word? named core
      exact .inr ⟨k, starter, value, core, permitted, starts, resolved,
        fun conflict => absurd conflict apart⟩
    · exact .inl (Token.Kind.eq_rightBrace_of_word? named)
  · rw [all, Fault.quoted_mem_expectedInShape] at listed
    rcases listed with ⟨k, joins, core, rfl⟩ | rfl
    · obtain ⟨starter, value, starts, resolved⟩ := exists_starter_of_word? named core
      obtain ⟨next, joined⟩ := Option.isSome_iff_exists.mp joins
      have suits := ready.suits
      rw [progress] at suits
      have type : b.kind = .core .type := suits
      refine .inr ⟨k, starter, value, core, ?_, starts, resolved, fun _ => ?_⟩
      · rw [type]
        exact TypeShape.permits_of_behind?
          (show TypeShape.behind? (some shape) k = some next from joined)
      · simp [progress, Progress.after?, core, joined]
    · exact .inl (Token.Kind.eq_rightBrace_of_word? named)

/-- A unit or a type excludes no form of `deviate`, which neither admits. -/
theorem Block.not_excludes_deviate {f : DeviateForm}
    (permitted : permits (rule b.kind).substatements (.deviate f)) :
    ¬ b.Excludes strict (.deviate f) := by
  have deviation := eq_deviation_of_permits permitted
  rintro (⟨isUnit, _⟩ | ⟨type, _⟩)
  · rw [deviation] at isUnit
    contradiction
  · rw [deviation] at type
    contradiction

/-- Which of the tokens that a block expects it takes. -/
theorem Block.Ready.exists_step_iff (ready : b.Ready strict)
    (refused : b.receive strict t = .error fault) (named : u.kind.word? = some word)
    (listed : Fault.quoted word ∈ fault.expected) :
    ((∃ next, (⟨enclosing, .content b⟩ : State).step strict u = .ok next) ↔
      ∀ k, u.kind.statementKind? = some k → ¬ b.Excludes strict k) ∧
      (fault.code = .restrictionsConflict → ∃ next,
        (⟨enclosing, .content b⟩ : State).step strict u = .ok next) := by
  rcases ready.exists_kind_of_expected refused named listed with
    brace | ⟨k, starter, value, core, permitted, starts, resolved, joins⟩
  · have closed : ∃ next, (⟨enclosing, .content b⟩ : State).step strict u = .ok next :=
      ⟨_, State.step_eq_ok_iff.mpr (.closed brace)⟩
    exact ⟨iff_of_true closed (by simp [brace, Token.Kind.statementKind?]), fun _ => closed⟩
  · have inside := Starter.ne_rightBrace_of_ofToken? starts
    have other : b.kind ≠ .extension := by
      intro same
      rw [same, permits_iff] at permitted
      obtain ⟨r, member, rfl⟩ := permitted
      obtain rfl := List.mem_singleton.mp member
      exact core rfl
    have taken : (∃ next, (⟨enclosing, .content b⟩ : State).step strict u = .ok next) ↔
        (b.progress.after? strict b.kind k).isSome := by
      rw [← ready.exists_receive_iff other starts resolved]
      simp only [State.step, inside, if_false]
      cases b.receive strict u <;> simp
    rw [taken]
    refine ⟨?_, joins⟩
    rw [ready.isSome_after?_iff core permitted]
    -- The keyword tells the kind, but for `deviate`, no form of which is ever excluded.
    rcases Starter.ofToken?_eq_some.mp starts with ⟨deviate, rfl⟩ | ⟨l, alone, rfl⟩
    · obtain ⟨f, _, rfl⟩ := Option.map_eq_some_iff.mp resolved
      exact iff_of_true (Block.not_excludes_deviate permitted)
        (by simp [deviate, Token.Kind.statementKind?])
    · cases resolved
      simp [alone]

namespace State

theorem isRefusal_of_ending (faulty : σ.ending = .error fault) : fault.code.isRefusal = false := by
  obtain ⟨enclosing, phase⟩ := σ
  cases phase with
  | piece h first value =>
    simp only [ending, resolve] at faulty
    cases resolved : h.starter.resolve? value with
    | none | some k =>
      rw [resolved] at faulty
      cases faulty
      rfl
  | _ =>
    simp only [ending] at faulty
    repeat' split at faulty
    all_goals cases faulty
    all_goals rfl

/-- Only an open block refuses a token. -/
theorem exists_receive_of_isRefusal (refusal : fault.code.isRefusal)
    (faulty : σ.step strict t = .error fault) :
    ∃ enclosing b, σ = ⟨enclosing, .content b⟩ ∧ b.receive strict t = .error fault := by
  rcases fault_of_step faulty with refused | ⟨noForm, _⟩ | missing
  · exact refused
  · rw [noForm.code] at refusal
    contradiction
  · simp only [List.mem_cons, List.not_mem_nil, or_false] at missing
    rcases missing with code | code | code | code | code | code <;>
      (rw [code] at refusal; contradiction)

end State

theorem read_le_advances (options : Options) (σ : State) (found : Array StructuralError)
    (read : Nat) (tokens : TokenStream) : read ≤ (run options σ found read tokens).advances := by
  obtain ⟨n, τ, es, _, _, halt⟩ := exists_halt options σ found read tokens
  generalize run options σ found read tokens = p at *
  cases halt with
  | ended last => exact Nat.le_add_right _ _
  | failed more faulty => exact Nat.le_add_right _ _
  | stopped fast closed wrong => exact Nat.le_add_right_of_le (Nat.le_add_right _ _)

/-- A parse that has read some tokens reads the next just when that is a step. -/
theorem lt_advances_iff (reads : (State.initial entry).Reads options.strictHeaderOrder ts σ es)
    (clean : options.failFast → es = []) (more : u.isEnd = false) :
    ts.length < (parseTokens entry options (.ofList (ts ++ u :: later))).advances ↔
      ∃ next, σ.step options.strictHeaderOrder u = .ok next := by
  obtain ⟨taken, skipped⟩ := TokenStream.taken_ofList reads.isEnd u later
  rw [parseTokens, run_of_reads (taken.symm ▸ reads) clean, skipped, Nat.zero_add, run,
    dif_neg (by simp [TokenStream.ofList, more])]
  simp only [TokenStream.ofList]
  cases stepped : σ.step options.strictHeaderOrder u with
  | error fault => simp
  | ok next =>
    refine iff_of_true ?_ ⟨next, rfl⟩
    simp only
    split
    · exact Nat.lt_succ_self _
    · exact read_le_advances _ _ _ _ _

end Parse

variable {entry : Entry} {options : Options} {tokens : TokenStream} {n : Nat} {e : SyntaxError}

/-- Where an open block refuses a token, the parse would have read the tokens that it says were
expected, but for those which the substatements of a unit or of a type so far exclude. All of them
would have been read in blocks of another kind, and in a type where it reports a conflict. -/
theorem expected_of_parse (read : (parseTokens entry options tokens).advances = n)
    (failed : (parseTokens entry options tokens).result = .error (.syntactic e))
    (refusal : e.code.isRefusal) :
    ∃ enclosing b es,
      (State.initial entry).Reads options.strictHeaderOrder
        (tokens.taken n) ⟨enclosing, .content b⟩ es ∧
        ∀ u later, e.Expects u →
          (n < (parseTokens entry options (.ofList (tokens.taken n ++ u :: later))).advances ↔
            ∀ k, u.kind.statementKind? = some k → ¬ b.Excludes options.strictHeaderOrder k) ∧
          (e.code = .restrictionsConflict →
            n < (parseTokens entry options (.ofList (tokens.taken n ++ u :: later))).advances) := by
  obtain ⟨m, σ, es, reads, clean, halt⟩ := exists_halt_parseTokens entry options tokens
  obtain ⟨same, fault, faulty, rfl⟩ := halt.exists_fault failed
  obtain rfl : m = n := same.symm.trans read
  have code : fault.code = (fault.toError (tokens.skip m).next).code := by
    apply Fault.code_of_toError <;> (intro other; rw [other] at refusal; contradiction)
  rw [← code] at refusal
  have stepped := faulty.resolve_right fun ended => by
    simp [State.isRefusal_of_ending ended] at refusal
  obtain ⟨enclosing, b, rfl, refused⟩ := State.exists_receive_of_isRefusal refusal stepped
  obtain ⟨_, ready, _⟩ := (State.sound_initial entry).reads reads
  refine ⟨enclosing, b, es, reads, ?_⟩
  rintro u later ⟨word, named, listed⟩
  rw [Fault.expected_toError] at listed
  have more : u.isEnd = false := by
    rw [Token.isEnd, decide_eq_false_iff_not]
    intro ended
    rw [ended] at named
    contradiction
  have taken : (tokens.taken m).length <
    (parseTokens entry options (.ofList (tokens.taken m ++ u :: later))).advances ↔ _ :=
    lt_advances_iff reads clean more
  rw [TokenStream.length_taken] at taken
  rw [← code, taken]
  exact ready.exists_step_iff refused named listed

namespace Sample

open Parse.Sample

/-- A module whose prefix comes behind a revision. -/
def regressed : TokenStream :=
  .ofList [word .module, string "m", left, word .revision, string "r", semicolon, word .prefixStmt,
    string "p", semicolon]

def regressedError : SyntaxError :=
  (Fault.regionOrder .header (.core .module) (some "m")).toError (word .prefixStmt)

theorem parseTokens_regressed : (parseTokens .module {} regressed).advances = 6 ∧
    (parseTokens .module {} regressed).result = .error (.syntactic regressedError) := by
  have reads : (State.initial .module).Reads true (regressed.taken 6) _ [] :=
    State.readAll_eq_ok.mp rfl
  have parsed : parseTokens .module {} regressed = _ :=
    parseTokens_of_halt reads (by simp) (.failed rfl rfl)
  rw [parsed]
  exact ⟨rfl, rfl⟩

theorem expects_regressed (k : Keyword)
    (permitted : permits (rule (.core .module)).substatements (.core k)) :
    regressedError.Expects (word k) :=
  ⟨k.name, rfl, Fault.quoted_mem_expectedIn.mpr (.inl ⟨.core k, permitted, by simp, rfl⟩)⟩

end Sample

/-- Behind a revision, a leaf is expected and would be read. -/
theorem expected_of_parse_sample : (parseTokens .module {} Sample.regressed).advances = 6 ∧
    (parseTokens .module {} Sample.regressed).result = .error (.syntactic Sample.regressedError) ∧
    Sample.regressedError.code.isRefusal ∧ Sample.regressedError.Expects (Parse.Sample.word .leaf) ∧
    ∀ later, 6 < (parseTokens .module {}
      (.ofList (Sample.regressed.taken 6 ++ Parse.Sample.word .leaf :: later))).advances := by
  obtain ⟨read, failed⟩ := Sample.parseTokens_regressed
  have expects := Sample.expects_regressed .leaf (by decide +kernel)
  obtain ⟨_, b, _, reads, taken⟩ := expected_of_parse read failed rfl
  obtain ⟨same, _⟩ := reads.unique (State.readAll_eq_ok.mp rfl)
  cases same
  refine ⟨read, failed, rfl, expects, fun later => (taken _ later expects).1.mpr ?_⟩
  rintro _ ⟨⟩
  decide +kernel

/-- Behind a revision, a prefix is expected too, but whatever comes behind it, it would not be read.
-/
theorem exists_expected_unread : ∃ tokens n e u, (parseTokens .module {} tokens).advances = n ∧
    (parseTokens .module {} tokens).result = .error (.syntactic e) ∧ e.code = .outOfOrder ∧
      e.Expects u ∧
    ∀ later, ¬ n < (parseTokens .module {} (.ofList (tokens.taken n ++ u :: later))).advances := by
  obtain ⟨read, failed⟩ := Sample.parseTokens_regressed
  refine ⟨Sample.regressed, 6, _, Parse.Sample.word .prefixStmt, read, failed, rfl,
    Sample.expects_regressed _ (by decide +kernel), ?_⟩
  intro later
  have reads : (State.initial .module).Reads true (Sample.regressed.taken 6) _ [] :=
    State.readAll_eq_ok.mp rfl
  have taken : (Sample.regressed.taken 6).length < (parseTokens .module {}
      (.ofList (Sample.regressed.taken 6 ++ Parse.Sample.word .prefixStmt :: later))).advances ↔
        _ :=
    lt_advances_iff reads (fun _ => rfl) rfl
  intro read
  obtain ⟨_, stepped⟩ := taken.mp read
  cases stepped

end Yang
