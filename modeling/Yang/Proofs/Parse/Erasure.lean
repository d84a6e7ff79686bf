import Yang.Proofs.Parse.Admission
import Yang.Proofs.Parse.Passage

/-! Any statement can stand in an extension statement. There it is read by the one rule of extension
statements, whatever rules it is read by elsewhere: the same tokens make the same tree with its
kinds forgotten, and no count in it is wrong. -/
namespace Yang

namespace Statement

mutual

/-- A tree in which every statement is an extension statement. -/
def erased : Statement → Statement
  | ⟨_, keyword, argument, children, span⟩ =>
    ⟨.extension, keyword, argument, erasedAll children, span⟩

def erasedAll : List Statement → List Statement
  | [] => []
  | s :: rest => erased s :: erasedAll rest

end

theorem erasedAll_eq_map (ss : List Statement) : erasedAll ss = ss.map erased := by
  induction ss with
  | nil => rfl
  | cons s ss ih => simp [erasedAll, ih]

theorem erased_eq (s : Statement) :
    s.erased = ⟨.extension, s.keyword, s.argument, s.children.map erased, s.span⟩ := by
  obtain ⟨kind, keyword, argument, children, span⟩ := s
  rw [erased, erasedAll_eq_map]

end Statement

namespace Parse

open Grammar

variable {strict : Bool} {enclosing : List Block} {phase : Phase} {k : Statement.Kind}
  {keyword t : Token} {argument : Option String} {s : Statement} {σ τ : State} {ts : List Token}
  {es : List StructuralError} {P : Statement.Kind → Prop} {starter : Starter} {ps : List Passage}

def Head.erased (h : Head) : Head := ⟨.kind .extension, h.keyword⟩

def Block.erased (b : Block) : Block :=
  ⟨.extension, b.keyword, b.argument, b.children.map Statement.erased, .plain⟩

def Phase.erased : Phase → Phase
  | start entry => start entry
  | head h => head h.erased
  | piece h first value => piece h.erased first value
  | joining h first value => joining h.erased first value
  | content b => content b.erased
  | complete s => complete s.erased

/-- A state in which all statements, complete or not, are extension statements. -/
def State.erased (σ : State) : State := ⟨σ.enclosing.map Block.erased, σ.phase.erased⟩

theorem Named.erased (named : Named phase k keyword argument) :
    Named phase.erased .extension keyword argument := by
  cases named with
  | bare dispensable => exact .bare (by decide)
  | argued resolved => exact .argued rfl

/-- Extension statements hold no more than they may. -/
theorem Block.violations_erased (b : Block) (close : Token) : b.erased.violations close = [] := by
  have rules : b.erased.countingRules = [extensions] := rfl
  rw [violations, rules, List.map_eq_nil_iff, Violation.ofBlock_eq_nil]
  exact ⟨by simp [erased, rule, extensionRule], by simp [extensions, Cardinality.admits]⟩

theorem Block.statement_erased (b : Block) (close : Token) :
    b.erased.statement close = (b.statement close).erased := by
  rw [Statement.erased_eq]
  simp [statement, erased]

namespace State

theorem complete_erased (enclosing : List Block) (s : Statement) :
    (complete enclosing s).erased = complete (enclosing.map Block.erased) s.erased := by
  cases enclosing with
  | nil => rfl
  | cons b outer => simp [complete, erased, Phase.erased, Block.erased, Block.push]

/-- Once a statement has begun, each token moves the parser as it would inside an extension
statement. -/
theorem move_erased (begun : σ.Outermost P) (move : Move strict σ t τ es) :
    Move strict σ.erased t τ.erased [] := by
  cases move with
  | unit word accepted => exact begun.elim
  | argument takes begins =>
    refine .argument ?_ begins
    rintro _ ⟨⟩
    decide
  | plus join => exact .plus join
  | piece joined => exact .piece joined
  | ended named semicolon allowed =>
    rw [complete_erased, Statement.erased_eq]
    exact .ended named.erased semicolon rfl
  | @opened _ k keyword argument _ _ named brace =>
    have opened : (Block.opened k keyword argument).erased =
      .opened .extension keyword argument := by
      simp [Block.opened, Block.erased, Progress.first, Statement.Kind.isUnit]
    simp only [erased, Phase.erased, opened]
    exact .opened named.erased brace
  | @closed _ b _ brace =>
    rw [complete_erased, ← Block.statement_erased, ← Block.violations_erased b t]
    exact .closed brace
  | begun inside received =>
    have starts := Block.startsStatement_of_receive received
    have suits : Progress.plain.Suits .extension := Progress.suits_first .extension
    exact .begun inside
      ((Block.receive_eq_ok suits).mpr ⟨if_pos starts, Starter.takes_kind.mpr rfl⟩)

theorem reads_erased (begun : σ.Outermost P) (reads : σ.Reads strict ts τ es) :
    σ.erased.Reads strict ts τ.erased [] := by
  induction reads with
  | none => exact .none
  | next stepped later ih =>
    have move := step_eq_ok_iff.mp stepped
    exact .next (step_eq_ok_iff.mpr (move_erased begun move)) (ih (begun.move move))

end State

namespace Passage

/-- The same tokens as they are read inside an extension statement. -/
def erased (p : Passage) : Passage := ⟨p.tokens, p.statement.erased, []⟩

theorem IsStatement.erased {inExtension : Bool} {p : Passage}
    (whole : p.IsStatement strict inExtension) :
    p.erased.IsStatement strict true := by
  obtain ⟨t, ts, starter, split, starts, reads⟩ := whole
  have begun : (State.ofHead ⟨starter, t⟩).Outermost fun _ => True := fun _ _ _ => trivial
  exact ⟨t, ts, .kind .extension, split, if_pos (Starter.startsStatement_of_ofToken? starts),
    State.reads_erased begun reads⟩

/-- Whatever is read as a statement, of any kind and whatever is wrong with its counts, is read
inside an extension statement too: with the same tokens, as the same tree but for the kinds, and
without structural errors. So statements of all kinds, in any number and order, are content of an
extension statement, wherever this stands. -/
theorem reads_in_extension (each : ∀ p ∈ ps, ∃ inExtension, p.IsStatement strict inExtension) :
    (∀ p ∈ ps, p.erased.IsStatement strict true) ∧
      ∀ enclosing keyword argument children,
        (⟨enclosing, .content ⟨.extension, keyword, argument, children, .plain⟩⟩ : State).Reads
          strict
          (ps.flatMap (·.tokens))
          ⟨enclosing, .content
            ⟨.extension, keyword, argument, children ++ (ps.map (·.statement.erased)).toArray,
            .plain⟩⟩ [] := by
  have erased : ∀ p ∈ ps, p.erased.IsStatement strict true := by
    intro p member
    obtain ⟨_, whole⟩ := each p member
    exact whole.erased
  refine ⟨erased, ?_⟩
  intro enclosing keyword argument children
  have tokens : (ps.map Passage.erased).flatMap (·.tokens) = ps.flatMap (·.tokens) :=
    List.flatMap_map ..
  have errors : (ps.map Passage.erased).flatMap (·.errors) = [] := by simp [Passage.erased]
  have kinds : ∀ k ∈ (ps.map Passage.erased).map (·.statement.kind),
    permits (rule .extension).substatements k := by
    simp [Passage.erased, Statement.erased_eq, permits, rule, extensionRule, extensions]
  have admitted : ((ps.map Passage.erased).map (·.statement.kind)).foldlM
    (Progress.after? strict .extension) .plain =
      some .plain :=
    Progress.foldlM_plain.mpr ⟨kinds, rfl⟩
  rw [← tokens, ← errors]
  have suits : Progress.plain.Suits .extension := Progress.suits_first .extension
  refine (reads_passages (b := ⟨.extension, keyword, argument, children, .plain⟩) ?_ suits).mpr
    ⟨.plain, admitted, ?_, rfl⟩
  · exact List.forall_mem_map.mpr erased
  · rw [List.map_map]
    rfl

end Passage

namespace Sample

/-- A type with two restrictions, an `input` that lacks its data definitions, and a module that
lacks all. -/
def passages : List Passage :=
  let error (parent : Statement.Kind) (argument : Option String) (violation : Violation) :
    StructuralError :=
    ⟨parent, argument, violation, nowhere⟩
  [⟨[word .type, string "t", left, word .range, string "1", semicolon, word .fractionDigits,
    string "2", semicolon, right],
      ⟨.core .type, "type", some "t",
        [⟨.core .range, "range", some "1", [], nowhere⟩,
          ⟨.core .fractionDigits, "fraction-digits", some "2", [], nowhere⟩], nowhere⟩, []⟩,
    ⟨[word .input, left, right], ⟨.core .input, "input", none, [], nowhere⟩,
      [error (.core .input) none .emptyBlock]⟩,
    ⟨[.unplaced .deviate "deviate", string "add", semicolon],
      ⟨.deviate .add, "deviate", some "add", [], nowhere⟩, []⟩,
    ⟨[word .module, string "m", left, right], ⟨.core .module, "module", some "m", [], nowhere⟩,
      [error (.core .module) "m" (.missing (.core .namespaceStmt)),
        error (.core .module) "m" (.missing (.core .prefixStmt))]⟩]

theorem isStatement_passages : ∀ p ∈ passages, p.IsStatement true false := by
  simp only [passages, List.forall_mem_cons]
  refine ⟨?_, ?_, ?_, ?_, by simp⟩
  all_goals exact ⟨_, _, _, rfl, rfl, State.readAll_eq_ok.mp rfl⟩

end Sample

theorem Passage.reads_in_extension_sample :
    (∀ p ∈ Sample.passages, ∃ inExtension, p.IsStatement true inExtension) ∧
      (∀ p ∈ Sample.passages, p.erased.IsStatement true true) ∧
      (⟨[], .content ⟨.extension, .unplaced .identifier "x:y", none, #[], .plain⟩⟩ : State).Reads
        true
        (Sample.passages.flatMap (·.tokens))
        ⟨[], .content ⟨.extension, .unplaced .identifier "x:y", none,
          (Sample.passages.map (·.statement.erased)).toArray, .plain⟩⟩ [] := by
  have each : ∀ p ∈ Sample.passages, ∃ inExtension, p.IsStatement true inExtension :=
    fun p member => ⟨false, Sample.isStatement_passages p member⟩
  obtain ⟨erased, content⟩ := reads_in_extension each
  exact ⟨each, erased, by simpa using content [] (.unplaced .identifier "x:y") none #[]⟩

end Parse
end Yang
