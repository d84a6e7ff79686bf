import Yang.Proofs.Parse.Counting
import Yang.Proofs.Parse.Passage

/-! Bodies in another order. What a block admits and how it is counted in the end depend on which
substatements it has; their order matters to a unit only, to the regions of its body and, for a
strict reader, to its header. -/
namespace Yang.Parse

open Grammar

/-- The passages of a block in another order. In a unit each region stays where it is, and a strict
reader's header is left in its order. -/
structure Rearranges (strict : Bool) (parent : Statement.Kind) (ps qs : List Passage) : Prop where
  perm : ps.Perm qs
  regions : parent.isUnit →
    ps.map (region? parent ·.statement.kind) = qs.map (region? parent ·.statement.kind)
  header : parent.isUnit → strict →
    (ps.map (·.statement.kind)).filter (headerKinds parent).contains =
      (qs.map (·.statement.kind)).filter (headerKinds parent).contains

variable {strict : Bool} {parent k : Statement.Kind} {ps qs : List Passage} {h : Head}
  {front : List Token} {r : Token} {argument : Option String} {s : Statement}
  {es : List StructuralError}

namespace Rearranges

theorem kinds (rearranges : Rearranges strict parent ps qs) :
    (ps.map (·.statement.kind)).Perm (qs.map (·.statement.kind)) := rearranges.perm.map _

theorem regionsInOrder (rearranges : Rearranges strict parent ps qs) (unit : parent.isUnit) :
    RegionsInOrder parent (ps.map (·.statement.kind)) ↔
      RegionsInOrder parent (qs.map (·.statement.kind)) := by
  have regions (ps : List Passage) : (ps.map (·.statement.kind)).filterMap (region? parent) =
      (ps.map (region? parent ·.statement.kind)).filterMap id := by
    rw [List.filterMap_map, List.filterMap_map]
    rfl
  rw [RegionsInOrder, RegionsInOrder, regions, regions, rearranges.regions unit]

/-- A block admits its substatements in the one order just when it admits them in the other. -/
theorem isSome_afterAll? (rearranges : Rearranges strict parent ps qs) :
    (Progress.afterAll? strict parent (ps.map (·.statement.kind))).isSome ↔
      (Progress.afterAll? strict parent (qs.map (·.statement.kind))).isSome := by
  have permitted : (∀ k ∈ ps.map (·.statement.kind), permits (rule parent).substatements k) ↔
      ∀ k ∈ qs.map (·.statement.kind), permits (rule parent).substatements k := by
    simp only [rearranges.kinds.mem_iff]
  cases unit : parent.isUnit with
  | true =>
    rw [Progress.isSome_afterAll?_unit unit, Progress.isSome_afterAll?_unit unit, permitted,
      rearranges.regionsInOrder unit]
    refine and_congr_right' (and_congr_right' (imp_congr_right fun strict => ?_))
    rw [HeaderInOrder, rearranges.header unit strict, ← HeaderInOrder]
  | false =>
    by_cases type : parent = .core .type
    · subst type
      have among : TypeShape.restrictionsAmong (ps.map (·.statement.kind)) = [] ↔
          TypeShape.restrictionsAmong (qs.map (·.statement.kind)) = [] := by
        simp only [TypeShape.restrictionsAmong, List.filter_eq_nil_iff, rearranges.kinds.mem_iff]
      simp only [Option.isSome_iff_exists, Progress.afterAll?_type, exists_and_left, exists_eq',
        and_true, among, TypeShape.ofRestrictions?_restrictionsAmong_perm rearranges.kinds]
    · simp only [Option.isSome_iff_exists, Progress.afterAll?_plain unit type, exists_and_left,
        exists_eq', and_true, permitted]

end Rearranges

/-- A block that holds the statements of passages. -/
def Block.filled (k : Statement.Kind) (keyword : Token) (argument : Option String)
    (ps : List Passage)
    (progress : Progress) : Block :=
  ⟨k, keyword, argument, (ps.map (·.statement)).toArray, progress⟩

theorem Block.ready_filled {q : Progress}
    (admitted : Progress.afterAll? strict k (ps.map (·.statement.kind)) = some q) (keyword : Token)
    (argument : Option String) : (filled k keyword argument ps q).Ready strict := by
  simpa [Ready, kinds, filled, Function.comp_def] using admitted

namespace State

theorem reads_filled {keyword : Token} {τ : State}
    (each : ∀ p ∈ ps, p.IsStatement strict (k = .extension)) :
    (⟨[], .content (.opened k keyword argument)⟩ : State).Reads strict
      (ps.flatMap (·.tokens)) τ es ↔
      ∃ q, Progress.afterAll? strict k (ps.map (·.statement.kind)) = some q ∧
        ⟨[], .content (.filled k keyword argument ps q)⟩ = τ ∧ ps.flatMap (·.errors) = es := by
  have suits : (Block.opened k keyword argument).progress.Suits k := Progress.suits_first k
  rw [reads_passages (b := .opened k keyword argument) each suits]
  simp [Block.opened, Block.filled, Progress.afterAll?]

theorem step_closed {b : Block} (ready : b.Ready strict) (brace : r.kind = .rightBrace) :
    (⟨[], .content b⟩ : State).step strict r =
      .ok (⟨[], .complete (b.statement r)⟩, (b.statement r).ownViolations) := by
  rw [← ready.violations_eq]
  exact step_eq_ok_iff.mpr (.closed brace)

/-- A statement whose block is a row of passages is read just when its block admits them; it reports
what they report and behind that what is wrong with its own counts. -/
theorem reads_block
    (opened : (ofHead h).Reads strict front ⟨[], .content (.opened k h.keyword argument)⟩ [])
    (each : ∀ p ∈ ps, p.IsStatement strict (k = .extension)) (brace : r.kind = .rightBrace) :
    (ofHead h).Reads strict (front ++ (ps.flatMap (·.tokens) ++ [r])) ⟨[], .complete s⟩ es ↔
      (Progress.afterAll? strict k (ps.map (·.statement.kind))).isSome ∧
        s = ⟨k, h.keyword.text, argument, ps.map (·.statement), h.keyword.span.cover r.span⟩ ∧
        es = ps.flatMap (·.errors) ++ s.ownViolations := by
  have closed {q : Progress}
    (admitted : Progress.afterAll? strict k (ps.map (·.statement.kind)) = some q) :=
    step_closed (Block.ready_filled admitted h.keyword argument) brace
  constructor
  · intro whole
    obtain ⟨_, _, _, first, later, rfl⟩ := reads_append.mp whole
    obtain ⟨rfl, rfl⟩ := opened.unique first
    obtain ⟨_, _, _, inner, last, rfl⟩ := reads_append.mp later
    obtain ⟨q, admitted, rfl, rfl⟩ := (reads_filled each).mp inner
    obtain ⟨same, rfl⟩ := last.unique (.next (closed admitted) .none)
    cases same
    exact ⟨Option.isSome_of_eq_some admitted, rfl, by simp⟩
  · rintro ⟨admitted, rfl, rfl⟩
    obtain ⟨q, admitted⟩ := Option.isSome_iff_exists.mp admitted
    exact opened.append (((reads_filled each).mpr ⟨q, admitted, rfl, rfl⟩).snoc (closed admitted))

theorem exists_reads_block
    (opened : (ofHead h).Reads strict front ⟨[], .content (.opened k h.keyword argument)⟩ [])
    (each : ∀ p ∈ ps, p.IsStatement strict (k = .extension)) (brace : r.kind = .rightBrace) :
    (∃ s es, (ofHead h).Reads strict (front ++ (ps.flatMap (·.tokens) ++ [r]))
      ⟨[], .complete s⟩ es) ↔
      (Progress.afterAll? strict k (ps.map (·.statement.kind))).isSome := by
  simp only [reads_block opened each brace, exists_and_left, exists_eq, and_true]

end State

/-- The body of a statement can be read in one order just when it can be read in another. Either way
it makes the same statement but for the order of its substatements, the same of its own counts are
wrong, and the structural errors are the same but for their order. -/
theorem Rearranges.reads_in_either_order (rearranges : Rearranges strict k ps qs)
    (opened : (State.ofHead h).Reads strict front ⟨[], .content (.opened k h.keyword argument)⟩ [])
    (each : ∀ p ∈ ps, p.IsStatement strict (k = .extension)) (brace : r.kind = .rightBrace) :
    ((∃ s es, (State.ofHead h).Reads strict (front ++ (ps.flatMap (·.tokens) ++ [r]))
      ⟨[], .complete s⟩ es) ↔
        ∃ s es, (State.ofHead h).Reads strict (front ++ (qs.flatMap (·.tokens) ++ [r]))
          ⟨[], .complete s⟩ es) ∧
      ∀ s es s' es',
        (State.ofHead h).Reads strict (front ++ (ps.flatMap (·.tokens) ++ [r]))
          ⟨[], .complete s⟩ es →
        (State.ofHead h).Reads strict (front ++ (qs.flatMap (·.tokens) ++ [r]))
          ⟨[], .complete s'⟩ es' →
        s'.kind = s.kind ∧ s'.keyword = s.keyword ∧ s'.argument = s.argument ∧ s'.span = s.span ∧
          s.children = ps.map (·.statement) ∧ s'.children = qs.map (·.statement) ∧
          (∃ own, es = ps.flatMap (·.errors) ++ own ∧ es' = qs.flatMap (·.errors) ++ own ∧
            own = s.ownViolations ∧ own = s'.ownViolations) ∧
          es.Perm es' := by
  have others : ∀ q ∈ qs, q.IsStatement strict (k = .extension) :=
    fun q member => each q (rearranges.perm.mem_iff.mpr member)
  constructor
  · rw [State.exists_reads_block opened each brace, State.exists_reads_block opened others brace]
    exact rearranges.isSome_afterAll?
  · intro s es s' es' reads reads'
    obtain ⟨_, made, rfl⟩ := (State.reads_block opened each brace).mp reads
    obtain ⟨_, made', rfl⟩ := (State.reads_block opened others brace).mp reads'
    have reordered : s' = { s with children := qs.map (·.statement) } := by rw [made, made']
    have children : s.children = ps.map (·.statement) := by rw [made]
    have own : s'.ownViolations = s.ownViolations := by
      have perm : s.children.Perm (qs.map (·.statement)) := children ▸ rearranges.perm.map _
      rw [reordered]
      exact Statement.ownViolations_of_perm perm
    subst reordered
    refine ⟨rfl, rfl, rfl, rfl, children, rfl, ⟨s.ownViolations, rfl, own ▸ rfl, rfl, own.symm⟩, ?_⟩
    rw [own]
    exact (rearranges.perm.flatMap_right _).append_right _

namespace Sample

/-- Restrictions that make a type decimal: the `range` breaks a count of its own, and
`fraction-digits` stands twice. -/
def restrictions : List Passage :=
  [⟨[word .range, string "1", left, word .description, string "a", semicolon, word .description,
    string "b", semicolon, right],
      ⟨.core .range, "range", some "1",
        [⟨.core .description, "description", some "a", [], nowhere⟩,
          ⟨.core .description, "description", some "b", [], nowhere⟩], nowhere⟩,
      [⟨.core .range, some "1", .tooMany (.core .description) 2, nowhere⟩]⟩,
    ended .fractionDigits "2", ended .fractionDigits "3"]

def typeHead : Head := ⟨.kind (.core .type), word .type⟩

def typeFront : List Token := [string "t", left]

theorem isStatement_restrictions : ∀ p ∈ restrictions, p.IsStatement true false := by
  simp only [restrictions, List.forall_mem_cons]
  refine ⟨?_, ?_, ?_, by simp⟩
  all_goals exact ⟨_, _, _, rfl, rfl, State.readAll_eq_ok.mp rfl⟩

end Sample

/-- A decimal type can begin with its `range` or with its `fraction-digits`. -/
theorem Rearranges.reads_in_either_order_sample :
    Rearranges true (.core .type) Sample.restrictions Sample.restrictions.reverse ∧
      ∃ s es s' es',
        (State.ofHead Sample.typeHead).Reads true
          (Sample.typeFront ++ (Sample.restrictions.flatMap (·.tokens) ++ [Sample.right]))
            ⟨[], .complete s⟩ es ∧
        (State.ofHead Sample.typeHead).Reads true
          (Sample.typeFront ++ (Sample.restrictions.reverse.flatMap (·.tokens) ++ [Sample.right]))
          ⟨[], .complete s'⟩ es' ∧
        s'.children = s.children.reverse ∧ s'.ownViolations = s.ownViolations ∧
        s.breaches = [.tooMany (.core .fractionDigits) 2] ∧ es.Perm es' := by
  have rearranges : Rearranges true (.core .type) Sample.restrictions Sample.restrictions.reverse :=
    ⟨(List.reverse_perm _).symm, nofun, nofun⟩
  have opened : (State.ofHead Sample.typeHead).Reads true Sample.typeFront
      ⟨[], .content (.opened (.core .type) Sample.typeHead.keyword (some "t"))⟩ [] :=
        State.readAll_eq_ok.mp rfl
  obtain ⟨either, same⟩ :=
    rearranges.reads_in_either_order (r := Sample.right) opened Sample.isStatement_restrictions rfl
  have admitted :
    (Progress.afterAll? true (.core .type)
      (Sample.restrictions.map (·.statement.kind))).isSome := by
    decide
  obtain ⟨s, es, reads⟩ :=
    (State.exists_reads_block (r := Sample.right) opened Sample.isStatement_restrictions
    rfl).mpr admitted
  obtain ⟨s', es', reads'⟩ := either.mp ⟨s, es, reads⟩
  obtain ⟨_, _, _, _, children, children', ⟨own, _, _, own_s, own_s'⟩, perm⟩ :=
    same s es s' es' reads reads'
  refine ⟨rearranges, s, es, s', es', reads, reads', ?_, own_s'.symm.trans own_s, ?_, perm⟩
  · rw [children, children', List.map_reverse]
  · obtain ⟨_, rfl, _⟩ := (State.reads_block opened Sample.isStatement_restrictions rfl).mp reads
    decide +kernel

end Yang.Parse
