import Yang.Proofs.Parse.Completeness
import Yang.Proofs.Parse.Consumption

/-! What has been read can be completed. Any open block can be closed, and any statement that has
begun can be given an argument and a block, so a syntax error is found at the first token that makes
the difference. The one thing that no more tokens may mend is an argument that no form of `deviate`
begins with. -/
namespace Yang

open Grammar Parse

namespace Parse

variable {strict : Bool} {root : Statement.Kind → Prop} {enclosing : List Block} {phase : Phase}
  {h : Head} {k parent : Statement.Kind} {keyword t : Token} {argument : Option String}
  {value : String} {first : Span} {fault : Fault} {p q : Progress} {σ τ : State}
  {es : List StructuralError}

namespace State

/-- Some tokens lead from a state to a complete statement with nothing around it. -/
def Completable (strict : Bool) (σ : State) : Prop :=
  ∃ ts s es, σ.Reads strict ts ⟨[], .complete s⟩ es

theorem Completable.of_move (move : Move strict σ t τ es) (completable : τ.Completable strict) :
    σ.Completable strict := by
  obtain ⟨ts, s, fs, reads⟩ := completable
  exact ⟨t :: ts, s, es ++ fs, .next (step_eq_ok_iff.mpr move) reads⟩

def leftBrace : Token := .unplaced .leftBrace "\x7b"

def rightBrace : Token := .unplaced .rightBrace "\x7d"

/-- Open blocks can be closed, whatever is in them. -/
theorem completable_complete (strict : Bool) (enclosing : List Block) (s : Statement) :
    (complete enclosing s).Completable strict := by
  induction enclosing generalizing s with
  | nil => exact ⟨[], s, [], .none⟩
  | cons b outer ih => exact .of_move (t := rightBrace) (.closed rfl) (ih _)

theorem completable_content (strict : Bool) (enclosing : List Block) (b : Block) :
    (⟨enclosing, .content b⟩ : State).Completable strict :=
  .of_move (t := rightBrace) (.closed rfl) (completable_complete strict enclosing _)

/-- Any statement can have a block. -/
theorem completable_of_named (named : Named phase k keyword argument) :
    (⟨enclosing, phase⟩ : State).Completable strict :=
  .of_move (t := leftBrace) (.opened named rfl) (completable_content strict enclosing _)

/-- The argument `add` serves every keyword that takes one. -/
theorem completable_head (strict : Bool) (enclosing : List Block) (h : Head) :
    (⟨enclosing, .head h⟩ : State).Completable strict := by
  obtain ⟨starter, keyword⟩ := h
  have argued (takes : Head.TakesArgument ⟨starter, keyword⟩) :
      (⟨enclosing, .head ⟨starter, keyword⟩⟩ : State).Completable strict := by
    obtain ⟨k, resolved⟩ : ∃ k, starter.resolve? "add" = some k := by
      cases starter with
      | kind k => exact ⟨k, rfl⟩
      | deviate => exact ⟨.deviate .add, by decide +kernel⟩
    exact .of_move (t := .unplaced .string "add") (.argument takes rfl)
      (completable_of_named (.argued resolved))
  cases starter with
  | deviate => exact argued fun k same => nomatch same
  | kind k =>
    by_cases bare : (rule k).argument = .none
    · exact completable_of_named (.bare (by simp [bare]))
    · apply argued
      rintro _ ⟨⟩
      exact bare

theorem completable_joining (starts : h.starter = .kind k) :
    (⟨enclosing, .joining h first value⟩ : State).Completable strict := by
  have resolved (text : String) : h.starter.resolve? text = some k := by rw [starts]; rfl
  exact .of_move (t := .unplaced .string "") (.piece rfl)
    (completable_of_named (.argued (resolved _)))

theorem completable_start (strict : Bool) (enclosing : List Block) (entry : Entry) :
    (⟨enclosing, .start entry⟩ : State).Completable strict := by
  obtain ⟨word, accepted⟩ : ∃ word, word ∈ entry.accepted := by
    cases entry <;> exact ⟨_, List.mem_cons_self⟩
  exact .of_move (t := .unplaced (.keyword word) word.name) (.unit rfl accepted)
    (completable_head strict enclosing _)

/-- What the parser has read can be completed, but for an argument of `deviate` that names no form
or breaks off. -/
theorem Sound.completable (sound : σ.Sound strict root) : σ.Completable strict ∨
    (∃ h first value, σ.phase = .piece h first value ∧ h.starter.resolve? value = none) ∨
      ∃ h first value, σ.phase = .joining h first value ∧ h.starter = .deviate := by
  obtain ⟨enclosing, phase⟩ := σ
  cases phase with
  | start entry => exact .inl (completable_start strict enclosing entry)
  | head h => exact .inl (completable_head strict enclosing h)
  | piece h first value =>
    cases resolved : h.starter.resolve? value with
    | none => exact .inr (.inl ⟨h, first, value, rfl, resolved⟩)
    | some k => exact .inl (completable_of_named (.argued resolved))
  | joining h first value =>
    cases starts : h.starter with
    | kind k => exact .inl (completable_joining starts)
    | deviate => exact .inr (.inr ⟨h, first, value, rfl, starts⟩)
  | content b => exact .inl (completable_content strict enclosing b)
  | complete s =>
    obtain rfl : enclosing = [] := sound.1
    exact .inl (completable_complete strict [] s)

/-- An argument of `deviate` that names no form is at fault for good, whatever comes behind it. -/
theorem code_of_unresolved (phase : σ.phase = .piece h first value)
    (unresolved : h.starter.resolve? value = none)
    (faulty : σ.step strict t = .error fault ∨ σ.ending = .error fault) :
    (fault.toError t).code = .deviateArgument := by
  have selects : resolve h first value = .error (.deviateArgument value first) := by
    simp [resolve, unresolved]
  have same : fault = .deviateArgument value first := by
    rcases faulty with stepped | ended
    · simp only [step, phase, selects] at stepped
      split at stepped
      · contradiction
      · exact (Except.error.inj stepped).symm
    · simp only [ending, phase, selects] at ended
      exact (Except.error.inj ended).symm
  rw [same]
  rfl

end State

/-- No block but that of a deviation takes a `deviate`. -/
theorem Progress.eq_deviation_of_after? {f : DeviateForm} (suits : p.Suits parent)
    (taken : p.after? strict parent (.deviate f) = some q) : parent = .core .deviation := by
  cases p with
  | plain =>
    simp only [after?, Option.ite_none_right_eq_some] at taken
    exact eq_deviation_of_permits taken.1
  | restrictions shape =>
    rw [show parent = _ from suits, after?_deviate strict _ _ f .add] at taken
    cases shape with
    | none => contradiction
    | some known => cases known <;> contradiction
  | unit present highest => simp [after?, region?_deviate] at taken

theorem Head.Sound.deviation (sound : h.Sound strict root enclosing)
    (deviates : h.starter = .deviate) (unit : ∀ f, ¬ root (.deviate f)) :
    h.keyword.kind = .deviate ∧ ∃ b outer, enclosing = b :: outer ∧ b.kind = .core .deviation := by
  have place := sound.place "add" (.deviate .add) (by rw [deviates]; decide +kernel)
  cases enclosing with
  | nil => exact absurd place (unit .add)
  | cons b outer =>
    obtain ⟨_, awaits, _⟩ := place
    rw [Block.Awaits, Progress.afterAll?_append] at awaits
    obtain ⟨p, ready, taken⟩ := Option.bind_eq_some_iff.mp awaits
    have kind := Progress.eq_deviation_of_after? (Progress.suits_of_afterAll? ready) taken
    refine ⟨?_, b, outer, rfl, kind⟩
    have starts := sound.starts
    rw [deviates] at starts
    simp only [insideExtension, kind] at starts
    rcases Starter.ofToken?_eq_some.mp starts with ⟨same, _⟩ | ⟨_, _, ⟨⟩⟩
    exact same

/-- Tokens that end with a `+` in the argument of a `deviate`, which stands in a deviation. -/
def JoinsDeviate (ts : List Token) : Prop :=
  ∃ b outer before d arg value p, ts = before ++ d :: arg ++ [p] ∧
    WrittenBlocks (b :: outer) before ∧
    b.kind = .core .deviation ∧ d.kind = .deviate ∧ Spells value arg ∧ p.kind = .plus

theorem State.joinsDeviate {ts : List Token} (sound : σ.Sound strict root)
    (unit : ∀ f, ¬ root (.deviate f)) (written : σ.Written ts)
    (phase : σ.phase = .joining h first value) (deviates : h.starter = .deviate) :
    JoinsDeviate ts := by
  obtain ⟨enclosing, _⟩ := σ
  obtain rfl := phase
  obtain ⟨keyword, b, outer, rfl, kind⟩ := sound.1.deviation deviates unit
  obtain ⟨before, _, rfl, blocks, arg, p, rfl, spells, plus⟩ := written
  exact ⟨b, outer, before, h.keyword, arg, value, p, by simp, blocks, kind, keyword, spells, plus⟩

/-- A unit that can be read up to the end is accepted, or its counts are wrong. -/
theorem conclusive_of_pending {entry : Entry} {tokens : TokenStream} {s : Statement}
    (reads : (State.initial entry).Reads strict tokens.pending ⟨[], .complete s⟩ es) :
    (parseTokens entry ⟨strict, false⟩ tokens).Conclusive ⟨strict, false⟩ := by
  rw [parseTokens_of_halt (tokens.taken_pending.symm ▸ reads) (by simp)
    (.ended tokens.isEnd_skip_pending)]
  by_cases clean : es = []
  · exact .inl ⟨s, by simp [conclude, State.ending, clean]⟩
  · exact .inr ⟨rfl, es, by simp [conclude, State.ending, clean]⟩

theorem conclusive_of_reads {entry : Entry} {ts : List Token} {s : Statement}
    (reads : (State.initial entry).Reads strict ts ⟨[], .complete s⟩ es) :
    (parseTokens entry ⟨strict, false⟩ (.ofList ts)).Conclusive ⟨strict, false⟩ :=
  conclusive_of_pending ((TokenStream.pending_ofList reads.isEnd).symm ▸ reads)

end Parse

variable {entry : Entry} {strict : Bool} {tokens : TokenStream} {n : Nat} {e : SyntaxError}

/-- The tokens that a parse has read when it comes upon a syntax error can be completed, unless they
end in an argument of `deviate` that names no form or breaks off. With the token at fault they
cannot: the error stays what it is. -/
theorem exists_continuation (read : (parseTokens entry ⟨strict, false⟩ tokens).advances = n)
    (failed : (parseTokens entry ⟨strict, false⟩ tokens).result = .error (.syntactic e)) :
    (e.code = .deviateArgument ∨ JoinsDeviate (tokens.taken n) ∨
      ∃ more, (parseTokens entry ⟨strict, false⟩ (.ofList (tokens.taken n ++ more))).Conclusive
        ⟨strict, false⟩) ∧
      ∀ later,
        (parseTokens entry ⟨strict, false⟩ (.ofList (tokens.taken (n + 1) ++ later))).result =
        .error (.syntactic e) := by
  obtain ⟨m, τ, es, reads, clean, halt⟩ := exists_halt_parseTokens entry ⟨strict, false⟩ tokens
  obtain ⟨same, fault, faulty, error⟩ := halt.exists_fault failed
  obtain rfl : m = n := same.symm.trans read
  constructor
  · have initial : (State.initial entry).Sound strict _ := State.sound_initial entry
    have sound := initial.reads reads
    have written := (State.written_initial entry).reads initial reads
    rcases sound.completable with completable | ⟨h, first, value, phase, unresolved⟩ |
      ⟨h, first, value, phase, deviates⟩
    · obtain ⟨more, s, fs, later⟩ := completable
      exact .inr (.inr ⟨more, conclusive_of_reads (reads.append later)⟩)
    · exact .inl (error ▸ State.code_of_unresolved phase unresolved faulty)
    · exact .inr (.inl (State.joinsDeviate sound (by simp) written phase deviates))
  · intro later
    rw [TokenStream.taken_succ, List.append_assoc, List.singleton_append]
    obtain ⟨taken, skipped⟩ := TokenStream.taken_ofList reads.isEnd (tokens.skip m).next later
    rw [TokenStream.length_taken] at taken skipped
    obtain ⟨_, result⟩ := parseTokens_eq_of_halt reads clean halt taken (by rw [skipped]; rfl)
    exact result.trans failed

namespace Sample

def path : Token := .unplaced (.keyword .path) "path"

/-- A type whose second restriction does not go with its first. -/
def conflict : TokenStream :=
  let word (k : Keyword) : Token := .unplaced (.keyword k) k.name
  let string : String → Token := .unplaced .string
  let left : Token := .unplaced .leftBrace "\x7b"
  .ofList [word .module, string "m", left, word .typedef, string "t", left, word .type,
    string "u", left, word .range, string "0..1", .unplaced .semicolon ";", path, string "/p"]

def conflictError : SyntaxError :=
  (Fault.restrictionsConflict (.core .path) .numerical (.core .type) "u").toError path

theorem parseTokens_conflict : (parseTokens .module ⟨true, false⟩ conflict).advances = 12 ∧
    (parseTokens .module ⟨true, false⟩ conflict).result = .error (.syntactic conflictError) := by
  have reads : (State.initial .module).Reads true (conflict.taken 12) _ [] :=
    State.readAll_eq_ok.mp rfl
  have parsed : parseTokens .module ⟨true, false⟩ conflict = _ :=
    parseTokens_of_halt reads (by simp) (.failed rfl rfl)
  rw [parsed]
  exact ⟨rfl, rfl⟩

end Sample

theorem exists_continuation_sample :
    (parseTokens .module ⟨true, false⟩ Sample.conflict).advances = 12 ∧
    (parseTokens .module ⟨true, false⟩ Sample.conflict).result =
      .error (.syntactic Sample.conflictError) ∧
    (Sample.conflictError.code = .deviateArgument ∨
      JoinsDeviate (Sample.conflict.taken 12) ∨ ∃ more,
      (parseTokens .module ⟨true, false⟩ (.ofList (Sample.conflict.taken 12 ++ more))).Conclusive
        ⟨true, false⟩) ∧
    ∀ later,
      (parseTokens .module ⟨true, false⟩ (.ofList (Sample.conflict.taken 13 ++ later))).result =
      .error (.syntactic Sample.conflictError) := by
  obtain ⟨read, failed⟩ := Sample.parseTokens_conflict
  exact ⟨read, failed, exists_continuation read failed⟩

end Yang
