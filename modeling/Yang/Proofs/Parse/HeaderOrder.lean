import Yang.Proofs.Diagnostic.Fault
import Yang.Proofs.Parse.Completeness
import Yang.Proofs.Parse.Halt

/-! A strict reading of a unit against one that takes the statements of its header in any order. The
two go the same way until a header statement comes behind one that it should precede; the strict one
ends there. -/
namespace Yang

open Grammar Parse

/-- Tokens that write a unit as far as the statements of its header go. -/
structure WritesHeader (unit : Statement.Kind) (header : List Statement)
    (ts : List Token) : Prop where
  isUnit : unit.isUnit
  kinds : ∀ c ∈ header, c.kind ∈ headerKinds unit
  written : ∃ keyword name arg left inner, ts = keyword :: arg ++ left :: inner ∧
    keyword.kind.statementKind? = some unit ∧ Spells name arg ∧ left.kind = .leftBrace ∧
    RendersAll false header inner

/-- A statement of the kind should come before one of those that stand in the header. -/
def BelongsBefore (unit k : Statement.Kind) (header : List Statement) : Prop :=
  k ∈ headerKinds unit ∧ ∃ c ∈ header, headerRank unit k < headerRank unit c.kind

namespace Parse

variable {root : Statement.Kind → Prop} {strict failFast : Bool}
  {parent k previous : Statement.Kind} {p : Progress} {present : Region}
  {highest : Option Statement.Kind} {kinds : List Statement.Kind} {enclosing : List Block}
  {b : Block} {t : Token} {ts : List Token} {σ τ υ : State} {es fs : List StructuralError}
  {found : Array StructuralError} {read : Nat} {tokens : TokenStream} {q : Parse}

namespace Progress

/-- Units stand in no block. -/
theorem not_isUnit_of_after? (suits : p.Suits parent) (taken : (p.after? strict parent k).isSome) :
    k.isUnit = false := by
  cases p with
  | plain =>
    simp only [after?] at taken
    split at taken
    · exact not_isUnit_of_permits ‹_›
    · contradiction
  | restrictions shape =>
    by_cases extension : k = .extension
    · rw [extension]
      rfl
    · simp only [after?, extension, if_false, Option.isSome_map] at taken
      obtain ⟨next, joined⟩ := Option.isSome_iff_exists.mp taken
      exact not_isUnit_of_permits (TypeShape.permits_of_behind? joined)
  | unit present highest =>
    obtain ⟨q, taken⟩ := Option.isSome_iff_exists.mp taken
    obtain ⟨region, found, _⟩ := Option.bind_eq_some_iff.mp taken
    have permitted : permits (rule parent).substatements k := by
      rw [← isSome_region? parent k suits, found]
      rfl
    exact not_isUnit_of_permits permitted

theorem highestAfter?_eq_some {next : Statement.Kind}
    (raised : highestAfter? strict parent highest k = some next) :
    next = k ∨ highest = some next := by
  unfold highestAfter? at raised
  split at raised
  · exact .inl (Option.some.inj raised).symm
  · split at raised
    · split at raised
      · contradiction
      · exact .inr raised
    · exact .inl (Option.some.inj raised).symm

/-- A unit that is still in its header has nothing but header statements, and the highest is among
them. -/
theorem foldlM_header
    (taken : kinds.foldlM (after? strict parent) (unit present highest) =
      some (unit .header (some previous))) :
    present = .header ∧ (∀ k ∈ kinds, k ∈ headerKinds parent) ∧
      (highest = some previous ∨ previous ∈ kinds) := by
  induction kinds generalizing present highest with
  | nil =>
    cases taken
    exact ⟨rfl, by simp, .inl rfl⟩
  | cons k kinds ih =>
    obtain ⟨_, joined, later⟩ := Option.bind_eq_some_iff.mp taken
    obtain ⟨region, found, joined⟩ := Option.bind_eq_some_iff.mp joined
    split at joined
    · contradiction
    rename_i ahead
    split at joined
    · rename_i header
      subst header
      obtain ⟨next, raised, rfl⟩ := Option.map_eq_some_iff.mp joined
      obtain ⟨_, each, last⟩ := ih later
      have first : k ∈ headerKinds parent := by simpa using region?_eq_header.mp found
      refine ⟨?_, List.forall_mem_cons.mpr ⟨first, each⟩, ?_⟩
      · cases present with
        | header => rfl
        | linkage | metadata | revisions | body => exact absurd ahead (by decide)
      · rcases last with last | earlier
        · obtain rfl := Option.some.inj last
          rcases highestAfter?_eq_some raised with rfl | kept
          · exact .inr List.mem_cons_self
          · exact .inl kept
        · exact .inr (List.mem_cons_of_mem _ earlier)
    · rename_i other
      cases joined
      exact absurd (ih later).1 other

end Progress

/-- Nothing stands around a unit. -/
theorem Encloses.eq_nil (place : Encloses strict root enclosing k) (unit : k.isUnit) :
    enclosing = [] := by
  cases enclosing with
  | nil => rfl
  | cons b outer =>
    obtain ⟨_, awaits, _⟩ := place
    rw [Block.Awaits, Progress.afterAll?_append] at awaits
    obtain ⟨p, ready, taken⟩ := Option.bind_eq_some_iff.mp awaits
    have suits := Progress.suits_of_afterAll? ready
    cases unit.symm.trans (Progress.not_isUnit_of_after? suits (Option.isSome_of_eq_some taken))

/-- A token starts a header statement that should come before the highest so far. -/
structure Block.HeaderBreaks (b : Block) (previous k : Statement.Kind) (t : Token) : Prop where
  progress : b.progress = .unit .header (some previous)
  starts : t.kind.statementKind? = some k
  header : k ∈ headerKinds b.kind
  lower : headerRank b.kind k < headerRank b.kind previous

/-- Strictness makes a difference only where the order of a header breaks. -/
theorem Block.receive_strict (b : Block) (t : Token) : b.receive true t = b.receive false t ∨
    ∃ previous k, b.HeaderBreaks previous k t ∧
      b.receive true t = .error (.headerOrder k previous b.kind b.argument) := by
  cases progress : b.progress with
  | plain => simp [receive, progress]
  | restrictions shape => simp [receive, progress]
  | unit present highest =>
    simp only [receive, progress, receiveInUnit]
    cases starts : t.kind.statementKind? with
    | none => exact .inl rfl
    | some k =>
      cases found : region? b.kind k with
      | none => simp [found]
      | some region =>
        simp only [found]
        by_cases left : region.index < present.index
        · simp [left]
        by_cases header : region = .header
        · subst header
          simp only [left, if_false, if_true, receiveHeader]
          cases highest with
          | none => exact .inl rfl
          | some previous =>
            by_cases lower : headerRank b.kind k < headerRank b.kind previous
            · have still : present = .header := by
                cases present with
                | header => rfl
                | linkage | metadata | revisions | body => exact absurd left (by decide)
              refine .inr ⟨previous, k, ⟨still ▸ progress, starts, ?_, lower⟩, by simp [lower]⟩
              simpa using region?_eq_header.mp found
            · simp [lower]
        · simp [left, header]

namespace State

theorem step_strict (σ : State) (t : Token) : σ.step true t = σ.step false t ∨
    ∃ b previous k, σ.phase = .content b ∧ b.HeaderBreaks previous k t ∧
      σ.step true t = .error (.headerOrder k previous b.kind b.argument) := by
  cases phase : σ.phase with
  | content b =>
    simp only [step, phase]
    by_cases brace : t.kind = .rightBrace
    · simp [brace]
    · rcases b.receive_strict t with same | ⟨previous, k, breaks, refused⟩
      · simp [same]
      · exact .inr ⟨b, previous, k, rfl, breaks, by simp [brace, refused]⟩
  | start entry => simp [step, phase]
  | head h => simp [step, phase]
  | piece h first value => simp [step, phase]
  | joining h first value => simp [step, phase]
  | complete s => simp [step, phase]

theorem step_lenient (stepped : σ.step true t = .ok (τ, es)) : σ.step false t = .ok (τ, es) := by
  rcases σ.step_strict t with same | ⟨b, previous, k, _, _, refused⟩
  · exact same ▸ stepped
  · cases stepped.symm.trans refused

theorem Reads.lenient (reads : σ.Reads true ts τ es) : σ.Reads false ts τ es := by
  induction reads with
  | none => exact .none
  | next stepped later ih => exact .next (step_lenient stepped) ih

theorem head_of_initial {entry : Entry} (move : Move strict (initial entry) t τ es) :
    ∃ word ∈ entry.accepted, t.kind = .keyword word ∧ τ = ⟨[], .head ⟨.kind (.core word), t⟩⟩ := by
  cases move with
  | unit keyword accepted => exact ⟨_, accepted, keyword, rfl⟩
  | ended named => cases named
  | opened named => cases named

/-- Where the order of a header breaks, the header of a unit has been written in order so far. -/
theorem writesHeader_of_breaks {entry : Entry}
    (reads : (initial entry).Reads true ts ⟨enclosing, .content b⟩ es)
    (breaks : b.HeaderBreaks previous k t) :
    WritesHeader b.kind b.children.toList ts ∧ HeaderInOrder b.kind b.kinds ∧
      BelongsBefore b.kind k b.children.toList := by
  have initial : (State.initial entry).Sound true _ := sound_initial entry
  obtain ⟨sound, ready, place⟩ := initial.reads reads
  have suits := ready.suits
  rw [breaks.progress] at suits
  have unit : b.kind.isUnit := suits
  obtain rfl := place.eq_nil unit
  obtain ⟨_, _, rfl, rfl, arg, left, inner, rfl, opens, spells, brace, body⟩ :=
    (written_initial entry).reads initial reads
  -- The kinds of the block's substatements tell how far it has come.
  have taken : Progress.afterAll? true b.kind b.kinds = _ := ready
  have first : Progress.first b.kind = .unit .header none := by simp [Progress.first, unit]
  have ordered := ((Progress.isSome_afterAll?_unit unit).mp (Option.isSome_of_eq_some taken)).2.2
    rfl
  rw [Progress.afterAll?, first, breaks.progress] at taken
  obtain ⟨_, header, highest⟩ := Progress.foldlM_header taken
  have extension : (b.kind = .extension) = False := eq_false (Statement.Kind.ne_of_isUnit unit).2
  have keyword : b.keyword.kind.statementKind? = some b.kind := by
    rcases opens with alone | ⟨_, f, _, same⟩
    · exact alone
    · rw [same] at unit
      contradiction
  obtain ⟨name, argument⟩ : ∃ name, b.argument = some name :=
    Option.isSome_iff_exists.mp (sound.argument.present (argument_unit unit))
  rw [argument] at spells
  simp only [extension, decide_false] at body
  refine ⟨⟨unit, ?_, b.keyword, name, arg, left, inner, rfl, keyword, spells, brace, body⟩, ordered,
    breaks.header, ?_⟩
  · intro c member
    exact header c.kind (List.mem_map_of_mem member)
  · rcases highest with unset | earlier
    · contradiction
    · obtain ⟨c, member, same⟩ := List.mem_map.mp earlier
      exact ⟨c, member, same ▸ breaks.lower⟩

end State

/-- Where a strict parse ends, a lenient one ends in the same way, unless it is the order of a
header that breaks. -/
theorem Halt.lenient_or_breaks (halt : Halt ⟨true, failFast⟩ found read σ tokens q) :
    Halt ⟨false, failFast⟩ found read σ tokens q ∨
      ∃ b previous k, σ.phase = .content b ∧ b.HeaderBreaks previous k tokens.next ∧
        q = ⟨.error
          (.syntactic ((Fault.headerOrder k previous b.kind b.argument).toError tokens.next)), read,
            tokens⟩ := by
  cases halt with
  | ended last => exact .inl (.ended last)
  | failed more faulty =>
    rcases σ.step_strict tokens.next with same | ⟨b, previous, k, phase, breaks, refused⟩
    · exact .inl (.failed more (same ▸ faulty))
    · cases faulty.symm.trans refused
      exact .inr ⟨b, previous, k, phase, breaks, rfl⟩
  | stopped fast closed wrong => exact .inl (.stopped fast (State.step_lenient closed) wrong)

theorem parseTokens_strict_or_breaks (entry : Entry) (failFast : Bool) (tokens : TokenStream) :
    parseTokens entry ⟨true, failFast⟩ tokens = parseTokens entry ⟨false, failFast⟩ tokens ∨
      ∃ n enclosing b es previous k,
        (State.initial entry).Reads true (tokens.taken n) ⟨enclosing, .content b⟩ es ∧
        b.HeaderBreaks previous k (tokens.skip n).next ∧
        parseTokens entry ⟨true, failFast⟩ tokens =
          ⟨.error (.syntactic
            ((Fault.headerOrder k previous b.kind b.argument).toError (tokens.skip n).next)), n,
            tokens.skip n⟩ := by
  obtain ⟨n, ⟨enclosing, phase⟩, es, reads, clean, halt⟩ :=
    exists_halt_parseTokens entry ⟨true, failFast⟩ tokens
  rcases halt.lenient_or_breaks with same | ⟨b, previous, k, rfl, breaks, parsed⟩
  · have lenient : parseTokens entry ⟨false, failFast⟩ tokens = _ :=
      parseTokens_of_halt reads.lenient clean same
    exact .inl lenient.symm
  · exact .inr ⟨n, enclosing, b, es, previous, k, reads, breaks, parsed⟩

/-- What a lenient parse accepts is accepted strictly, if its header is in order. -/
theorem parseTokens_strict_of_inOrder {entry : Entry} {s : Statement}
    (accepted : (parseTokens entry ⟨false, failFast⟩ tokens).result = .ok s)
    (ordered : HeaderInOrder s.kind s.kinds) :
    (parseTokens entry ⟨true, failFast⟩ tokens).result = .ok s := by
  have reads := parseTokens_result_eq_ok.mp accepted
  obtain ⟨readable, ⟨word, asked, kind⟩, clean⟩ := State.complete_of_reads reads
  have conforms : s.Conforms false :=
    Statement.conforms_iff.mpr ⟨kind ▸ isUnit_of_accepted asked, readable, clean⟩
  have strictly : s.Conforms true :=
    ⟨conforms.unit, conforms.fits, conforms.regions, fun _ => ordered⟩
  obtain ⟨_, _, split, rfl, renders⟩ := (State.written_initial entry).reads
    (State.sound_initial entry) reads
  obtain ⟨t, rest, rfl, _, back⟩ :=
    State.reads_back (Statement.conforms_iff.mp strictly).2.1 conforms.fits renders
  rw [List.nil_append, List.nil_append] at split
  rw [split] at reads
  obtain ⟨_, _, _, first, _, _⟩ := State.reads_cons.mp reads
  obtain ⟨word, accepted, keyword, rfl⟩ := State.head_of_initial (State.step_eq_ok_iff.mp first)
  have starts : Starter.ofToken? false t.kind = some (.kind (.core word)) := by
    rw [keyword]
    rfl
  obtain ⟨s', es, _, again⟩ := back _ [] starts
  have whole := (State.reads_of_move (.unit keyword accepted)).append again
  -- There is only one way to read the tokens, and the lenient parse has gone it.
  obtain ⟨same, rfl⟩ := whole.lenient.unique reads
  cases same
  exact parseTokens_result_eq_ok.mpr (split ▸ whole)

end Parse

/-- A strict parse is a lenient one, unless it comes to a header statement that should come before
another one that it has read. It ends at the keyword of the first such statement. So it accepts what
the lenient parse accepts, if the header is in order. -/
theorem parseTokens_strict_or_headerOrder (entry : Entry) (failFast : Bool) (tokens : TokenStream) :
    (parseTokens entry ⟨true, failFast⟩ tokens = parseTokens entry ⟨false, failFast⟩ tokens ∨
      ∃ e n unit header k, parseTokens entry ⟨true, failFast⟩ tokens =
        ⟨.error (.syntactic e), n, tokens.skip n⟩ ∧
        e.code = .outOfOrder ∧ e.hint.isSome ∧ e.span = (tokens.skip n).next.span ∧
        WritesHeader unit header (tokens.taken n) ∧ HeaderInOrder unit (header.map (·.kind)) ∧
        (tokens.skip n).next.kind.statementKind? = some k ∧ BelongsBefore unit k header) ∧
      (∀ s, (parseTokens entry ⟨true, failFast⟩ tokens).result = .ok s →
        (parseTokens entry ⟨false, failFast⟩ tokens).result = .ok s) ∧
      ∀ s, (parseTokens entry ⟨false, failFast⟩ tokens).result = .ok s →
        ((parseTokens entry ⟨true, failFast⟩ tokens).result = .ok s ↔
          HeaderInOrder s.kind s.kinds) := by
  have split := parseTokens_strict_or_breaks entry failFast tokens
  refine ⟨?_, ?_, ?_⟩
  · rcases split with same | ⟨n, enclosing, b, es, previous, k, reads, breaks, parsed⟩
    · exact .inl same
    · obtain ⟨written, ordered, before⟩ := State.writesHeader_of_breaks reads breaks
      refine .inr ⟨_, n, b.kind, b.children.toList, k, parsed, ?_, rfl, rfl, written, ordered,
        breaks.starts, before⟩
      have starts := breaks.starts
      apply Fault.code_toError <;> (intro same; simp [same, Token.Kind.statementKind?] at starts)
  · intro s accepted
    rcases split with same | ⟨_, _, _, _, _, _, _, _, parsed⟩
    · exact same ▸ accepted
    · rw [parsed] at accepted
      contradiction
  · intro s accepted
    refine ⟨?_, parseTokens_strict_of_inOrder accepted⟩
    intro strictly
    obtain ⟨readable, ⟨word, asked, kind⟩, clean⟩ :=
      State.complete_of_reads (parseTokens_result_eq_ok.mp strictly)
    have conforms : s.Conforms true :=
      Statement.conforms_iff.mpr ⟨kind ▸ isUnit_of_accepted asked, readable, clean⟩
    exact conforms.header rfl

namespace Sample

/-- A module with its prefix before its namespace. -/
def disordered : TokenStream :=
  let word (k : Keyword) : Token := .unplaced (.keyword k) k.name
  let string : String → Token := .unplaced .string
  let semicolon : Token := .unplaced .semicolon ";"
  .ofList [word .module, string "m", .unplaced .leftBrace "\x7b", word .prefixStmt,
    string "m", semicolon, word .namespaceStmt, string "urn:m", semicolon,
      .unplaced .rightBrace "\x7d"]

end Sample

theorem parseTokens_strict_or_headerOrder_sample :
    (∃ s, (parseTokens .module ⟨false, false⟩ Sample.disordered).result = .ok s ∧
      ¬ HeaderInOrder s.kind s.kinds) ∧
      ∃ e, (parseTokens .module ⟨true, false⟩ Sample.disordered).result = .error (.syntactic e) ∧
        e.code = .outOfOrder ∧
        (parseTokens .module ⟨true, false⟩ Sample.disordered).advances = 6 := by
  obtain ⟨split, _, agree⟩ := parseTokens_strict_or_headerOrder .module false Sample.disordered
  have strict : (parseTokens .module ⟨true, false⟩ Sample.disordered).advances = 6 := by
    decide +kernel
  have lenient : (parseTokens .module ⟨false, false⟩ Sample.disordered).advances = 10 := by
    decide +kernel
  rcases split with same | ⟨e, n, _, _, _, parsed, code, _⟩
  · rw [same, lenient] at strict
    contradiction
  · obtain ⟨s, accepted⟩ : ∃ s, (parseTokens .module ⟨false, false⟩ Sample.disordered).result =
      .ok s :=
      ⟨_, parseTokens_result_eq_ok.mpr (State.readAll_eq_ok.mp rfl)⟩
    have failed : (parseTokens .module ⟨true, false⟩ Sample.disordered).result =
      .error (.syntactic e) := by rw [parsed]
    refine ⟨⟨s, accepted, ?_⟩, e, failed, code, strict⟩
    intro ordered
    rw [(agree s accepted).mpr ordered] at failed
    contradiction

end Yang
