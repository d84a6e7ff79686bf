import Yang.Proofs.Diagnostic.Fault
import Yang.Proofs.Parse.Continuation
import Yang.Proofs.Parse.Faults

/-! Where errors point. A syntax error is that of the next token, which has not been read, but for
an argument of `deviate` that names no form: it is found at its end, and points back to its
beginning. -/
namespace Yang

open Grammar Parse

namespace Parse

variable {strict : Bool} {root : Statement.Kind → Prop} {t : Token} {fault : Fault} {σ τ : State}
  {ts us : List Token} {es : List StructuralError}

/-- The tokens end with those of the statement that has begun. -/
def Phase.Follows (ts : List Token) : Phase → Prop
  | .head h => ∃ before, ts = before ++ [h.keyword]
  | .piece h first value => ∃ before t later, ts = before ++ h.keyword :: t :: later ∧
    t.span = first ∧
      Spells value (t :: later)
  | .joining h first value => ∃ before t later p, ts = before ++ h.keyword :: t :: later ++ [p] ∧
    t.span = first ∧
      Spells value (t :: later) ∧ p.kind = .plus
  | _ => True

namespace State

theorem follows_complete (enclosing : List Block) (s : Statement) (ts : List Token) :
    (complete enclosing s).phase.Follows ts := by
  cases enclosing <;> trivial

theorem follows_move (follows : σ.phase.Follows ts) (move : Move strict σ t τ es) :
    τ.phase.Follows (ts ++ [t]) := by
  cases move with
  | unit word accepted => exact ⟨ts, rfl⟩
  | argument takes begins =>
    obtain ⟨before, rfl⟩ := follows
    exact ⟨before, t, [], by simp, rfl, .piece begins⟩
  | plus join =>
    obtain ⟨before, u, later, rfl, span, spells⟩ := follows
    exact ⟨before, u, later, t, rfl, span, spells, join⟩
  | piece joined =>
    obtain ⟨before, u, later, p, rfl, span, spells, plus⟩ := follows
    exact ⟨before, u, later ++ [p, t], by simp, span, .join spells plus joined⟩
  | ended named semicolon allowed => exact follows_complete _ _ _
  | opened named brace => trivial
  | closed brace => exact follows_complete _ _ _
  | begun inside received => exact ⟨ts, rfl⟩

theorem follows_reads (follows : σ.phase.Follows ts) (reads : σ.Reads strict us τ es) :
    τ.phase.Follows (ts ++ us) := by
  induction reads generalizing ts with
  | none => simpa using follows
  | next stepped later ih => simpa using ih (follows_move follows (step_eq_ok_iff.mp stepped))

end State

/-- The tokens end with a `deviate` and all of an argument, which `e` quotes and is located at and
which is the name of no form. -/
def EndsInDeviateArgument (ts : List Token) (e : SyntaxError) : Prop :=
  ∃ before keyword first pieces value, ts = before ++ keyword :: first :: pieces ∧
    keyword.kind = .deviate ∧
    Spells value (first :: pieces) ∧ (∀ f : DeviateForm, f.argument ≠ value) ∧
    e.span = first.span ∧ e.found = s!"string \"{value}\""

theorem State.endsInDeviateArgument (sound : σ.Sound strict root) (unit : ∀ f, ¬ root (.deviate f))
    (follows : σ.phase.Follows ts) (noForm : σ.NamesNoForm fault) :
    EndsInDeviateArgument ts (fault.toError t) := by
  obtain ⟨h, first, value, phase, unresolved, rfl⟩ := noForm
  obtain ⟨enclosing, _⟩ := σ
  obtain rfl := phase
  obtain ⟨before, u, later, rfl, span, spells⟩ := follows
  have deviates : h.starter = .deviate := by
    cases starts : h.starter with
    | deviate => rfl
    | kind k =>
      rw [starts] at unresolved
      contradiction
  rw [deviates] at unresolved
  refine ⟨before, h.keyword, u, later, value, rfl, (sound.1.deviation deviates unit).1, spells, ?_,
    span.symm, rfl⟩
  intro f same
  rw [Starter.resolve?, DeviateForm.ofArgument?_eq_some.mpr same] at unresolved
  contradiction

theorem conclude_structural_ne_nil {found : Array StructuralError} {last : Token}
    (failed : conclude σ found last = .error (.structural es)) : es ≠ [] := by
  unfold conclude at failed
  split at failed
  · cases failed
  · split at failed
    · contradiction
    · rename_i nonempty
      cases failed
      simpa using nonempty

/-- Where a parse ends with a syntax error, the error tells where it has come to. -/
theorem Halt.locates {options : Options} {found : Array StructuralError} {read : Nat}
    {tokens : TokenStream} {p : Parse} {e : SyntaxError} (halt : Halt options found read σ tokens p)
    (failed : p.result = .error (.syntactic e)) :
    p.advances = read ∧ p.rest = tokens ∧
      ∃ fault, fault.toError tokens.next = e ∧
        (fault.code = .inputEnds → tokens.next.kind = .endOfInput) ∧
        (fault.code = .deviateArgument → σ.NamesNoForm fault ∧ tokens.next.kind ≠ .plus) := by
  cases halt with
  | ended last =>
    have kind : tokens.next.kind = .endOfInput := by simpa [Token.isEnd] using last
    obtain ⟨fault, faulty, rfl⟩ := conclude_eq_syntactic failed
    refine ⟨rfl, rfl, fault, rfl, fun _ => kind, ?_⟩
    intro code
    exact ⟨State.namesNoForm_of_ending faulty code, by simp [kind]⟩
  | failed more faulty =>
    cases failed
    obtain ⟨ends, deviate⟩ := State.code_of_step faulty
    exact ⟨rfl, rfl, _, rfl, fun code => absurd code ends, deviate⟩
  | stopped fast closed wrong => cases failed

end Parse

variable {entry : Entry} {options : Options} {tokens : TokenStream} {p : Parse}

/-- A syntax error points at the next token, which is the first that has not been read, unless what
has been read ends with an argument of `deviate` that names no form: then it points at the beginning
of this. Structural errors are about counts, and if they are what a parse ends with, there are some.
-/
theorem parseTokens_error_located (parsed : parseTokens entry options tokens = p) :
    p.rest = tokens.skip p.advances ∧
      (∀ e, p.result = .error (.syntactic e) →
        (e.code ≠ .deviateArgument → e.PointsAt p.rest.next) ∧
        (e.code = .deviateArgument →
          EndsInDeviateArgument (tokens.taken p.advances) e ∧ p.rest.next.kind ≠ .plus) ∧
        e.code ≠ .closingBraceMissing ∧ e.code.isStructural = false) ∧
      ∀ es, p.result = .error (.structural es) →
        es ≠ [] ∧ ∀ v ∈ es, v.code ∈
          [.substatementMissing, .substatementRepeated, .blockEmpty] := by
  obtain ⟨_, _, _, rest⟩ := exists_reads_parseTokens entry options tokens
  obtain ⟨n, τ, found, reads, _, halt⟩ := exists_halt_parseTokens entry options tokens
  rw [parsed] at rest halt
  refine ⟨rest, ?_, ?_⟩
  · intro e failed
    obtain ⟨rfl, next, fault, rfl, ended, deviate⟩ := halt.locates failed
    rw [next]
    refine ⟨?_, ?_, fault.code_toError_ne _⟩
    · intro code
      exact Fault.pointsAt_toError (mt Fault.code_toError_eq_deviateArgument.mpr code) ended
    · intro code
      obtain ⟨noForm, last⟩ := deviate (Fault.code_toError_eq_deviateArgument.mp code)
      have initial : (State.initial entry).Sound options.strictHeaderOrder _ :=
        State.sound_initial entry
      have nothing : (State.initial entry).phase.Follows [] := trivial
      exact ⟨State.endsInDeviateArgument (initial.reads reads) (by simp)
        (State.follows_reads nothing reads) noForm, last⟩
  · intro es failed
    constructor
    · cases halt with
      | ended last => exact conclude_structural_ne_nil failed
      | failed more faulty => cases failed
      | stopped fast closed wrong =>
        cases failed
        exact wrong
    · intro v _
      unfold StructuralError.code
      split <;> simp

namespace Sample

/-- A deviation with an argument of `deviate` in two pieces, which together name no form. -/
def deviating : TokenStream :=
  let word (k : Keyword) : Token := .unplaced (.keyword k) k.name
  let string : String → Token := .unplaced .string
  let left : Token := .unplaced .leftBrace "\x7b"
  .ofList [word .module, string "m", left, word .deviation, string "/d", left,
    .unplaced .deviate "deviate", string "rep", .unplaced .plus "+", string "lacing",
      .unplaced .semicolon ";"]

def deviatingError : SyntaxError :=
  (Fault.deviateArgument "replacing" (.empty .origin)).toError (.unplaced .semicolon ";")

end Sample

theorem parseTokens_error_located_sample : ∃ p, parseTokens .module {} Sample.deviating = p ∧
    p.result = .error (.syntactic Sample.deviatingError) ∧
    EndsInDeviateArgument (Sample.deviating.taken p.advances) Sample.deviatingError := by
  have reads : (State.initial .module).Reads true (Sample.deviating.taken 10) _ [] :=
    State.readAll_eq_ok.mp rfl
  have parsed : parseTokens .module {} Sample.deviating = _ :=
    parseTokens_of_halt reads (by simp) (.failed rfl rfl)
  obtain ⟨_, located, _⟩ := parseTokens_error_located parsed
  exact ⟨_, parsed, rfl, ((located _ rfl).2.1 rfl).1⟩

end Yang
