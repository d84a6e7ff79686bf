import Mathlib.Data.List.Induction
import Yang.Proofs.Diagnostic.Fault
import Yang.Proofs.Parse.Continuation
import Yang.Proofs.Parse.Rearrangement

/-! The order of a unit's body. Whole substatements that the unit takes somewhere are read just when
none of them belongs before an earlier one, in the regions or, for a strict reader, in the header.
Otherwise the parse ends at the first that does. -/
namespace Yang

namespace Grammar

variable {strict : Bool} {unit k : Statement.Kind} {kinds : List Statement.Kind}

/-- The regions of a unit's body are in order, and for a strict reader the statements of its header
too. -/
def UnitInOrder (strict : Bool) (unit : Statement.Kind) (kinds : List Statement.Kind) : Prop :=
  RegionsInOrder unit kinds ∧ (strict → HeaderInOrder unit kinds)

/-- A statement of kind `k` belongs before one of kind `j`: its region comes first, or a strict
reader wants it first in the header. -/
def SortsBefore (strict : Bool) (unit k j : Statement.Kind) : Prop :=
  (∃ r ∈ region? unit k, ∃ q ∈ region? unit j, r.index < q.index) ∨
    strict ∧ k ∈ headerKinds unit ∧ j ∈ headerKinds unit ∧ headerRank unit k < headerRank unit j

instance (strict : Bool) (unit k j : Statement.Kind) : Decidable (SortsBefore strict unit k j) :=
  inferInstanceAs (Decidable (_ ∨ _))

instance (strict : Bool) (unit : Statement.Kind) (kinds : List Statement.Kind) :
    Decidable (UnitInOrder strict unit kinds) := inferInstanceAs (Decidable (_ ∧ _))

theorem unitInOrder_iff : UnitInOrder strict unit kinds ↔
    kinds.Pairwise fun j k => ¬ SortsBefore strict unit k j := by
  -- Both orders are conditions on any two substatements, so they can be taken together pair by
  -- pair.
  have each (j k : Statement.Kind) : ¬ SortsBefore strict unit k j ↔
      (∀ q, region? unit j = some q → ∀ r, region? unit k = some r → q.index ≤ r.index) ∧
        (strict → (headerKinds unit).contains j → (headerKinds unit).contains k →
          headerRank unit j ≤ headerRank unit k) := by
    simp only [SortsBefore, List.contains_iff_mem, Option.mem_def]
    grind
  simp only [each, List.pairwise_and_iff, UnitInOrder, RegionsInOrder, HeaderInOrder,
    List.pairwise_filterMap, List.pairwise_filter]
  cases strict with
  | true => simp
  | false =>
    simp only [Bool.false_eq_true, false_implies, and_true, iff_self_and]
    exact fun _ => List.pairwise_of_forall fun _ _ => trivial

theorem unitInOrder_nil : UnitInOrder strict unit [] := unitInOrder_iff.mpr .nil

/-- What is in order stays so unless the next belongs before one that is there. -/
theorem unitInOrder_append : UnitInOrder strict unit (kinds ++ [k]) ↔
    UnitInOrder strict unit kinds ∧ ∀ j ∈ kinds, ¬ SortsBefore strict unit k j := by
  simp [unitInOrder_iff, List.pairwise_append]

end Grammar

open Grammar Parse

/-- Tokens that write a unit whose body is a row of whole substatements, each of which it takes in
one of its regions. -/
structure WritesUnit (strict : Bool) (unit : Statement.Kind) (ps : List Passage)
    (ts : List Token) : Prop where
  each : ∀ p ∈ ps, p.IsStatement strict false
  regions : ∀ p ∈ ps, (region? unit p.statement.kind).isSome
  written : ∃ keyword name arg left right, ts = keyword :: arg ++ left ::
    (ps.flatMap (·.tokens) ++ [right]) ∧
    keyword.kind.statementKind? = some unit ∧ Spells name arg ∧ left.kind = .leftBrace ∧
      right.kind = .rightBrace

/-- The error stands at the keyword of the first substatement that belongs before one of those in
front of it. -/
def SyntaxError.PointsAtDescent (strict : Bool) (unit : Statement.Kind) (ps : List Passage)
    (e : SyntaxError) : Prop :=
  ∃ before p after t ts, ps = before ++ p :: after ∧ p.tokens = t :: ts ∧ e.span = t.span ∧
    UnitInOrder strict unit (before.map (·.statement.kind)) ∧
    ∃ q ∈ before, SortsBefore strict unit p.statement.kind q.statement.kind

namespace Parse

variable {strict : Bool} {unit k : Statement.Kind} {kinds : List Statement.Kind} {ps : List Passage}
  {p : Passage} {b : Block} {t keyword left : Token} {entry : Entry} {word : Keyword}
  {arg before later : List Token} {name : String} {argument : Option String} {tokens : TokenStream}
  {σ : State} {es : List StructuralError} {fault : Fault}

/-- Substatements that are not in order have a first one that belongs before one of those in front
of it. -/
theorem exists_first_sortsBefore (broken : ¬ UnitInOrder strict unit (ps.map (·.statement.kind))) :
    ∃ before p after, ps = before ++ p :: after ∧ UnitInOrder strict unit
      (before.map (·.statement.kind)) ∧
      ∃ q ∈ before, SortsBefore strict unit p.statement.kind q.statement.kind := by
  -- From behind, because it is the first that counts: one behind a broken part is not looked at.
  induction ps using List.reverseRecOn with
  | nil => exact absurd unitInOrder_nil broken
  | append_singleton ps p ih =>
    by_cases ordered : UnitInOrder strict unit (ps.map (·.statement.kind))
    · rw [List.map_append, List.map_singleton, unitInOrder_append] at broken
      exact ⟨ps, p, [], rfl, ordered, by simpa [ordered] using broken⟩
    · obtain ⟨before, q, after, rfl, first⟩ := ih ordered
      exact ⟨before, q, after ++ [p], by simp, first⟩

/-- A unit admits statements of its regions just when they are in order. -/
theorem Progress.isSome_afterAll?_of_regions (isUnit : unit.isUnit)
    (inside : ∀ k ∈ kinds, (region? unit k).isSome) :
    (afterAll? strict unit kinds).isSome ↔ UnitInOrder strict unit kinds := by
  rw [isSome_afterAll?_unit isUnit, UnitInOrder, and_iff_right]
  intro k member
  rw [← isSome_region? unit k isUnit]
  exact inside k member

theorem Block.exists_headerOutOfOrder {highest : Option Statement.Kind}
    (stuck : Progress.highestAfter? strict b.kind highest k = none) :
    ∃ fault, b.receiveHeader strict highest k = .error fault ∧ fault.code = .outOfOrder := by
  unfold Progress.highestAfter? at stuck
  unfold receiveHeader
  cases highest with
  | none => contradiction
  | some previous =>
    by_cases lower : headerRank b.kind k < headerRank b.kind previous
    · cases strict with
      | true => exact ⟨_, if_pos lower, rfl⟩
      | false => simp [lower] at stuck
    · simp [lower] at stuck

/-- Statements in order take a unit to where it does not take one that belongs before some of them.
-/
theorem Progress.exists_stuck (isUnit : unit.isUnit)
    (inside : ∀ j ∈ kinds ++ [k], (region? unit j).isSome) (ordered : UnitInOrder strict unit kinds)
    (broken : ¬ UnitInOrder strict unit (kinds ++ [k])) :
    ∃ q, afterAll? strict unit kinds = some q ∧ q.after? strict unit k = none := by
  have before : ∀ j ∈ kinds, (region? unit j).isSome :=
    fun j member => inside j (List.mem_append_left _ member)
  obtain ⟨q, admitted⟩ := Option.isSome_iff_exists.mp
    ((isSome_afterAll?_of_regions isUnit before).mpr ordered)
  have stuck := mt (isSome_afterAll?_of_regions isUnit inside).mp broken
  rw [afterAll?_append, admitted] at stuck
  exact ⟨q, admitted, Option.not_isSome_iff_eq_none.mp stuck⟩

/-- What a unit takes somewhere but not here is out of order. -/
theorem Block.exists_outOfOrder (isUnit : b.kind.isUnit) (suits : b.progress.Suits b.kind)
    (starts : t.kind.statementKind? = some k) (inside : (region? b.kind k).isSome)
    (stuck : b.progress.after? strict b.kind k = none) :
    ∃ fault, b.receive strict t = .error fault ∧ fault.code = .outOfOrder := by
  obtain ⟨region, found⟩ := Option.isSome_iff_exists.mp inside
  cases progress : b.progress with
  | plain =>
    rw [progress] at suits
    exact absurd isUnit suits.1
  | restrictions shape =>
    rw [progress] at suits
    exact absurd suits (Statement.Kind.ne_of_isUnit isUnit).1
  | unit present highest =>
    simp only [receive, progress, receiveInUnit, starts, found]
    simp only [progress, Progress.after?, found, Option.bind_some] at stuck
    by_cases left : region.index < present.index
    · rw [if_pos left]
      exact ⟨_, rfl, rfl⟩
    · rw [if_neg left] at stuck ⊢
      by_cases header : region = .header
      · rw [if_pos header, Option.map_eq_none_iff] at stuck
        rw [if_pos header]
        exact exists_headerOutOfOrder stuck
      · rw [if_neg header] at stuck
        contradiction

/-- A statement that a unit takes begins with a token that tells its kind. -/
theorem Passage.IsStatement.exists_statementKind? (whole : p.IsStatement strict false)
    (inside : (region? unit p.statement.kind).isSome) :
    ∃ t ts, p.tokens = t :: ts ∧ t.kind.statementKind? = some p.statement.kind := by
  obtain ⟨t, ts, starter, split, starts, reads⟩ := whole
  obtain ⟨value, resolved⟩ := reads.exists_resolve
  refine ⟨t, ts, split, ?_⟩
  rcases Starter.ofToken?_eq_some.mp starts with ⟨_, rfl⟩ | ⟨k, alone, rfl⟩
  · obtain ⟨f, _, deviate⟩ := Option.map_eq_some_iff.mp resolved
    rw [← deviate, region?_deviate] at inside
    contradiction
  · exact alone.trans resolved

namespace State

/-- A unit is opened by its keyword, its argument and a brace. -/
theorem reads_opened (accepted : word ∈ entry.accepted) (kind : keyword.kind = .keyword word)
    (spells : Spells name arg) (brace : left.kind = .leftBrace) :
    (initial entry).Reads strict (keyword :: arg ++ [left])
      ⟨[], .content (.opened (.core word) keyword (some name))⟩ [] := by
  have takes : Head.TakesArgument ⟨.kind (.core word), keyword⟩ := by
    rintro k ⟨⟩
    rw [argument_unit (isUnit_of_accepted accepted)]
    simp
  obtain ⟨first, argument⟩ : ∃ first, Reads strict ⟨[], .head ⟨.kind (.core word), keyword⟩⟩ arg
    ⟨[], .piece ⟨.kind (.core word), keyword⟩ first name⟩ [] := reads_of_spells takes spells
  exact ((reads_of_move (.unit kind accepted)).append argument).append
    (reads_of_move (.opened (.argued rfl) brace))

end State

/-- A parse ends where it has read what comes before a token that is at fault. -/
theorem parseTokens_of_faulty (reads : (State.initial entry).Reads strict before σ es)
    (split : tokens.pending = before ++ t :: later) (faulty : σ.step strict t = .error fault) :
    (parseTokens entry ⟨strict, false⟩ tokens).result = .error (.syntactic (fault.toError t)) := by
  obtain ⟨taken, next⟩ := TokenStream.taken_of_append_cons (tokens.taken_pending.trans split)
  have more : t.isEnd = false := TokenStream.isEnd_of_mem_pending (by rw [split]; simp)
  rw [← taken] at reads
  rw [parseTokens_of_halt reads (by simp) (.failed (next ▸ more) (next ▸ faulty)), next]

/-- Behind whole statements that leave an open unit stuck, the next is out of order. -/
theorem State.exists_outOfOrder {q : Progress} (isUnit : unit.isUnit)
    (each : ∀ p ∈ ps, p.IsStatement strict false)
    (admitted : Progress.afterAll? strict unit (ps.map (·.statement.kind)) = some q)
    (stuck : q.after? strict unit k = none) (inside : (region? unit k).isSome)
    (starts : t.kind.statementKind? = some k) :
    ∃ τ fault, (⟨[], .content (.opened unit keyword argument)⟩ : State).Reads strict
        (ps.flatMap (·.tokens)) τ (ps.flatMap (·.errors)) ∧
      τ.step strict t = .error fault ∧ fault.code = .outOfOrder := by
  have extension : decide (unit = .extension) = false :=
    decide_eq_false (Statement.Kind.ne_of_isUnit isUnit).2
  have filled : (⟨[], .content (.opened unit keyword argument)⟩ : State).Reads strict _ _ _ :=
    (reads_filled (extension.symm ▸ each)).mpr ⟨q, admitted, rfl, rfl⟩
  obtain ⟨fault, refused, code⟩ := Block.exists_outOfOrder
    (b := .filled unit keyword argument ps q) (t := t)
    isUnit (Progress.suits_of_afterAll? admitted) starts inside stuck
  refine ⟨_, fault, filled, ?_, code⟩
  have brace : t.kind ≠ .rightBrace := by
    intro same
    rw [same] at starts
    contradiction
  simp [step, brace, refused]

/-- A unit whose substatements are in order is read to its end. -/
theorem parseTokens_of_ordered (writes : WritesUnit strict (.core word) ps tokens.pending)
    (accepted : word ∈ entry.accepted)
    (ordered : UnitInOrder strict (.core word) (ps.map (·.statement.kind))) :
    (parseTokens entry ⟨strict, false⟩ tokens).Conclusive ⟨strict, false⟩ := by
  obtain ⟨each, regions, keyword, name, arg, left, right, written, starts, spells, leftBrace,
    rightBrace⟩ := writes
  have inside : ∀ k ∈ ps.map (·.statement.kind), (region? (.core word) k).isSome := by
    simpa using regions
  obtain ⟨q, admitted⟩ := Option.isSome_iff_exists.mp
    ((Progress.isSome_afterAll?_of_regions (isUnit_of_accepted accepted) inside).mpr ordered)
  have opened : (State.initial entry).Reads strict _ _ _ :=
    State.reads_opened accepted (Token.Kind.eq_keyword starts) spells leftBrace
  have filled := opened.append ((State.reads_filled each).mpr ⟨q, admitted, rfl, rfl⟩)
  have whole :=
    filled.snoc (State.step_closed (Block.ready_filled admitted keyword (some name)) rightBrace)
  apply conclusive_of_pending
  rw [written]
  simpa using whole

/-- A unit whose substatements are not in order is read up to the first that belongs before an
earlier one. -/
theorem parseTokens_of_unordered (writes : WritesUnit strict (.core word) ps tokens.pending)
    (accepted : word ∈ entry.accepted)
    (broken : ¬ UnitInOrder strict (.core word) (ps.map (·.statement.kind))) :
    ∃ e, (parseTokens entry ⟨strict, false⟩ tokens).result = .error (.syntactic e) ∧
      e.code = .outOfOrder ∧
      e.PointsAtDescent strict (.core word) ps := by
  obtain ⟨each, regions, keyword, name, arg, left, right, written, starts, spells, leftBrace,
    rightBrace⟩ := writes
  have isUnit := isUnit_of_accepted accepted
  obtain ⟨before, p, after, rfl, ordered, q, earlier, lower⟩ := exists_first_sortsBefore broken
  rw [List.forall_mem_append, List.forall_mem_cons] at each regions
  have inside : ∀ k ∈ before.map (·.statement.kind) ++ [p.statement.kind],
    (region? (.core word) k).isSome := by
    simpa [or_imp, forall_and] using ⟨regions.1, regions.2.1⟩
  have unordered : ¬ UnitInOrder strict (.core word)
    (before.map (·.statement.kind) ++ [p.statement.kind]) := by
    rw [unitInOrder_append]
    rintro ⟨_, orderly⟩
    exact orderly _ (List.mem_map_of_mem earlier) lower
  obtain ⟨_, admitted, stuck⟩ := Progress.exists_stuck isUnit inside ordered unordered
  obtain ⟨t, ts, split, first⟩ := each.2.1.exists_statementKind? regions.2.1
  obtain ⟨τ, fault, reads, faulty, code⟩ :=
    State.exists_outOfOrder isUnit each.1 admitted stuck regions.2.1 first
  have opened : (State.initial entry).Reads strict _ _ _ :=
    State.reads_opened accepted (Token.Kind.eq_keyword starts) spells leftBrace
  have pending : tokens.pending = keyword :: arg ++ [left] ++ before.flatMap (·.tokens) ++
      t :: (ts ++ (after.flatMap (·.tokens) ++ [right])) := by
    rw [written]
    simp [split]
  have span : (fault.toError t).span = t.span := (Fault.toError_eq (by simp [code]) t).1
  refine ⟨_, parseTokens_of_faulty (opened.append reads) pending faulty, ?_, before, p, after, t,
    ts, rfl, split, span,
    ordered, q, earlier, lower⟩
  rw [← code]
  apply Fault.code_toError <;> (intro same; simp [same, Token.Kind.statementKind?] at first)

end Parse

/-- In a unit of whole substatements, each of a kind that it takes somewhere, nothing is wrong with
the syntax just when the regions, and for a strict reader the header statements, never go back.
Otherwise the parse ends with the first substatement that belongs before an earlier one, which is
out of order. -/
theorem parseTokens_of_writesUnit {strict : Bool} {entry : Entry} {word : Keyword}
    {ps : List Passage} {tokens : TokenStream}
    (writes : WritesUnit strict (.core word) ps tokens.pending) (accepted : word ∈ entry.accepted) :
    ((∀ e, (parseTokens entry ⟨strict, false⟩ tokens).result ≠ .error (.syntactic e)) ↔
      UnitInOrder strict (.core word) (ps.map (·.statement.kind))) ∧
      (¬ UnitInOrder strict (.core word) (ps.map (·.statement.kind)) →
        ∃ e, (parseTokens entry ⟨strict, false⟩ tokens).result = .error (.syntactic e) ∧
          e.code = .outOfOrder ∧
          e.PointsAtDescent strict (.core word) ps) := by
  have unordered := parseTokens_of_unordered writes accepted
  refine ⟨⟨?_, ?_⟩, unordered⟩
  · intro clean
    by_contra broken
    obtain ⟨e, failed, _⟩ := unordered broken
    exact clean e failed
  · intro ordered e failed
    have conclusive := parseTokens_of_ordered writes accepted ordered
    simp [Conclusive, failed] at conclusive

namespace Sample

open Parse.Sample

/-- Substatements of a module, whose organization comes too late. -/
def belated : List Passage :=
  [ended .namespaceStmt "urn:m", ended .prefixStmt "m", ended .revision "2024-01-01",
    ended .organization "o", ended .feature "f"]

def belatedModule : TokenStream :=
  .ofList (word .module :: [string "m"] ++ left :: (belated.flatMap (·.tokens) ++ [right]))

theorem writesUnit_belated : WritesUnit true (.core .module) belated belatedModule.pending where
  each := by
    simp only [belated, List.forall_mem_cons]
    refine ⟨?_, ?_, ?_, ?_, ?_, by simp⟩
    all_goals exact ⟨_, _, _, rfl, rfl, State.readAll_eq_ok.mp rfl⟩
  regions := by decide +kernel
  written := ⟨_, _, _, _, _, rfl, rfl, .piece rfl, rfl, rfl⟩

end Sample

theorem parseTokens_of_writesUnit_sample :
    WritesUnit true (.core .module) Sample.belated Sample.belatedModule.pending ∧
      ∃ e, (parseTokens .module ⟨true, false⟩ Sample.belatedModule).result = .error (.syntactic e) ∧
        e.code = .outOfOrder ∧ e.PointsAtDescent true (.core .module) Sample.belated := by
  have broken : ¬ UnitInOrder true (.core .module) (Sample.belated.map (·.statement.kind)) := by
    decide +kernel
  exact ⟨Sample.writesUnit_belated,
    (parseTokens_of_writesUnit Sample.writesUnit_belated (by decide)).2 broken⟩

end Yang
