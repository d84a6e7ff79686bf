import Yang.Proofs.Parse.Counting
import Yang.Proofs.Statement.Rendering

/-! A tree conforms to the grammar just when it can be read and its counts are in order. So whatever
a parse accepts conforms. -/
namespace Yang

open Grammar Parse

namespace Statement

variable {strict : Bool} {s : Statement}

/-- Below the root, a statement fits when it can be read and its own counts are in order. -/
theorem fits_iff (unit : s.kind.isUnit = false) :
    s.Fits ↔ (ArgumentFits s.kind s.argument ∧ s.Orderly strict) ∧ s.ownViolations = [] := by
  have body : s.BodyFits ↔ s.Orderly strict ∧ s.ownViolations = [] := by
    by_cases type : s.kind = .core .type
    · exact bodyFits_type type
    · exact bodyFits_plain unit type
  constructor
  · intro fits
    exact ⟨⟨fits.argument, (body.mp fits.body).1⟩, (body.mp fits.body).2⟩
  · rintro ⟨⟨argument, orderly⟩, clean⟩
    exact ⟨argument, body.mpr ⟨orderly, clean⟩⟩

theorem fits_of_orderly (argument : ArgumentFits s.kind s.argument) (orderly : s.Orderly strict)
    (clean : s.ownViolations = []) : s.Fits := by
  cases unit : s.kind.isUnit with
  | true => exact ⟨argument, ((bodyFits_unit unit).mpr ⟨orderly, clean⟩).1⟩
  | false => exact (fits_iff unit).mpr ⟨⟨argument, orderly⟩, clean⟩

theorem conforms_iff :
    s.Conforms strict ↔ s.kind.isUnit ∧ s.Readable strict ∧ s.violations = [] := by
  rw [violations_eq_nil]
  constructor
  · intro conforms
    have top := (bodyFits_unit conforms.unit).mp
      ⟨(conforms.fits s s.self_mem_preorder).body, conforms.regions, conforms.header⟩
    have each : ∀ n ∈ s.preorder, (ArgumentFits n.kind n.argument ∧ n.Orderly strict) ∧
      n.ownViolations = [] := by
      intro n inside
      have fits := conforms.fits n inside
      rcases mem_preorder.mp inside with rfl | below
      · exact ⟨⟨fits.argument, top.1⟩, top.2⟩
      · exact (fits_iff (isUnit_below conforms.fits n below)).mp fits
    exact ⟨conforms.unit, fun n inside => (each n inside).1, fun n inside => (each n inside).2⟩
  · rintro ⟨unit, readable, clean⟩
    have self := s.self_mem_preorder
    obtain ⟨_, regions, header⟩ := (bodyFits_unit unit).mpr ⟨(readable s self).2, clean s self⟩
    refine ⟨unit, ?_, regions, header⟩
    intro n inside
    exact fits_of_orderly (readable n inside).1 (readable n inside).2 (clean n inside)

end Statement

variable {entry : Entry} {options : Options} {tokens : TokenStream} {s : Statement}

/-- What a parse makes of the tokens that it accepts. -/
theorem parseTokens_result_eq_ok : (parseTokens entry options tokens).result = .ok s ↔
    (State.initial entry).Reads options.strictHeaderOrder tokens.pending ⟨[], .complete s⟩ [] := by
  rw [parseTokens, run_result_eq_ok]
  constructor
  · rintro ⟨_, ⟨enclosing, phase⟩, reads, rfl⟩
    obtain ⟨rfl, _⟩ := (State.sound_initial entry).reads reads
    exact reads
  · intro reads
    exact ⟨rfl, _, reads, rfl⟩

theorem isUnit_of_accepted {word : Keyword} (accepted : word ∈ entry.accepted) :
    (Statement.Kind.core word).isUnit := by
  revert accepted
  cases entry <;> cases word <;> decide

theorem Parse.State.complete_of_reads {strict : Bool} {ts : List Token} {es : List StructuralError}
    (reads : (State.initial entry).Reads strict ts ⟨[], .complete s⟩ es) :
    s.Readable strict ∧ (∃ word ∈ entry.accepted, s.kind = .core word) ∧ s.violations = es := by
  have sound : (State.initial entry).Sound strict _ := State.sound_initial entry
  obtain ⟨_, readable, unit⟩ := sound.reads reads
  exact ⟨readable, unit, sound.violations_reads reads⟩

/-- A parse accepts nothing but units that conform to the grammar, of a kind that was asked for.
There are no units below them, and nothing but extension statements below an extension statement. -/
theorem conforms_of_parseTokens (accepted : (parseTokens entry options tokens).result = .ok s) :
    s.Conforms options.strictHeaderOrder ∧ (∃ word ∈ entry.accepted, s.kind = .core word) ∧
      (∀ n ∈ s.descendants, n.kind.isUnit = false) ∧
      ∀ n ∈ s.preorder, n.isExtension → ∀ m ∈ n.descendants, m.isExtension := by
  obtain ⟨readable, ⟨word, asked, kind⟩, clean⟩ :=
    State.complete_of_reads (parseTokens_result_eq_ok.mp accepted)
  have conforms : s.Conforms options.strictHeaderOrder :=
    Statement.conforms_iff.mpr ⟨kind ▸ isUnit_of_accepted asked, readable, clean⟩
  refine ⟨conforms, ⟨word, asked, kind⟩, Statement.isUnit_below conforms.fits, ?_⟩
  intro n inside extension
  apply Statement.isExtension_below ?_ extension
  intro m deeper
  exact conforms.fits m (Statement.preorder_trans inside deeper)

namespace Sample

/-- A module with an argument in two pieces, a type whose second restriction makes it decimal, and a
keyword inside an extension statement. -/
def tree : Statement :=
  let node (kind : Statement.Kind) (keyword : String) (argument : Option String)
    (children : List Statement) :=
    Statement.mk kind keyword argument children (.empty .origin)
  node (.core .module) "module" "m" [
    node (.core .namespaceStmt) "namespace" "urn:m" [],
    node (.core .prefixStmt) "prefix" "m" [],
    node (.core .typedef) "typedef" "t" [
      node (.core .type) "type" "decimal64" [
        node (.core .range) "range" "0..1" [],
        node (.core .fractionDigits) "fraction-digits" "2" []]],
    node .extension "m:note" none [node .extension "leaf" none []]]

def supply : TokenStream :=
  let word (k : Keyword) : Token := .unplaced (.keyword k) k.name
  let string : String → Token := .unplaced .string
  let left : Token := .unplaced .leftBrace "\x7b"
  let right : Token := .unplaced .rightBrace "\x7d"
  let semicolon : Token := .unplaced .semicolon ";"
  .ofList [word .module, string "m", left,
    word .namespaceStmt, string "urn:", .unplaced .plus "+", string "m", semicolon,
    word .prefixStmt, .unplaced .identifier "m", semicolon,
    word .typedef, string "t", left,
    word .type, string "decimal64", left,
    word .range, string "0..1", semicolon,
    word .fractionDigits, string "2", semicolon, right, right,
    .unplaced .identifier "m:note", left, word .leaf, semicolon, right, right]

theorem accepted : (parseTokens .module {} supply).result = .ok tree := by
  rw [parseTokens_result_eq_ok, ← State.readAll_eq_ok]
  rfl

end Sample

theorem conforms_of_parseTokens_sample :
    (parseTokens .module {} Sample.supply).result = .ok Sample.tree ∧
    Sample.tree.Conforms true ∧ (∃ word ∈ Entry.module.accepted, Sample.tree.kind = .core word) ∧
      (∀ n ∈ Sample.tree.descendants, n.kind.isUnit = false) ∧
      ∀ n ∈ Sample.tree.preorder, n.isExtension → ∀ m ∈ n.descendants, m.isExtension :=
  ⟨Sample.accepted, conforms_of_parseTokens Sample.accepted⟩

end Yang
