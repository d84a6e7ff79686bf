import Yang.Proofs.Grammar.Conformance
import Yang.Token.Stream

/-! Written statements. A statement is written as its keyword, its argument in one or more pieces,
and a semicolon or its substatements in braces. -/
namespace Yang

open Grammar

/-- The pieces of an argument, joined by `+`. -/
inductive Spells : String → List Token → Prop where
  | piece (begins : t.kind.isArgument) : Spells t.text [t]
  | join (spells : Spells value ts) (plus : p.kind = .plus) (string : t.kind = .string) :
    Spells (value ++ t.text) (ts ++ [p, t])

def SpellsArgument : Option String → List Token → Prop
  | none, ts => ts = []
  | some value, ts => Spells value ts

/-- The kind of token that starts a statement: in an extension statement any that can start one,
elsewhere that of the statement's kind, which for `deviate` the argument selects. -/
def Opens (inExtension : Bool) (t : Token.Kind) (k : Statement.Kind)
    (argument : Option String) : Prop :=
  if inExtension then t.startsStatement ∧ k = .extension
  else t.statementKind? = some k ∨
    t = .deviate ∧ ∃ f, argument.bind DeviateForm.ofArgument? = some f ∧ k = .deviate f

mutual

/-- Tokens that write a statement, inside an extension statement or not. Only one without
substatements can end with a semicolon. -/
inductive Renders : Bool → Statement → List Token → Prop where
  | ended (opens : Opens inExtension t.kind s.kind s.argument) (keyword : t.text = s.keyword)
      (spells : SpellsArgument s.argument arg) (childless : s.children = [])
        (semicolon : e.kind = .semicolon) :
    Renders inExtension s (t :: (arg ++ [e]))
  | block (opens : Opens inExtension t.kind s.kind s.argument) (keyword : t.text = s.keyword)
      (spells : SpellsArgument s.argument arg) (left : l.kind = .leftBrace)
      (body : RendersAll s.isExtension s.children content) (right : r.kind = .rightBrace) :
    Renders inExtension s (t :: (arg ++ l :: content ++ [r]))

inductive RendersAll : Bool → List Statement → List Token → Prop where
  | nil : RendersAll inExtension [] []
  | cons (first : Renders inExtension s ts) (rest : RendersAll inExtension ss us) :
    RendersAll inExtension (s :: ss) (ts ++ us)

end

variable {inExtension : Bool} {s : Statement} {ss : List Statement} {ts us : List Token}
  {k : Statement.Kind} {argument : Option String}

theorem RendersAll.snoc (all : RendersAll inExtension ss ts) (last : Renders inExtension s us) :
    RendersAll inExtension (ss ++ [s]) (ts ++ us) := by
  induction ss generalizing ts with
  | nil =>
    cases all
    simpa using RendersAll.cons last .nil
  | cons c ss ih =>
    cases all with
    | cons first rest =>
      rw [List.append_assoc]
      exact .cons first (ih rest)

def Statement.Kind.opener : Statement.Kind → Token.Kind
  | core word => .keyword word
  | deviate _ => .deviate
  | extension => .identifier

/-- A token that stands nowhere in particular. -/
def Token.unplaced (kind : Token.Kind) (text : String) : Token :=
  ⟨kind, text, .empty .origin, .empty 0⟩

namespace Statement

mutual

/-- One way to write a statement: its argument is one string, and it always has a block. -/
def write : Statement → List Token
  | ⟨kind, keyword, argument, children, _⟩ =>
    .unplaced kind.opener keyword :: (argument.toList.map (.unplaced .string) ++
      .unplaced .leftBrace "\x7b" :: writeAll children ++ [.unplaced .rightBrace "\x7d"])

def writeAll : List Statement → List Token
  | [] => []
  | s :: rest => write s ++ writeAll rest

end

theorem write_eq (s : Statement) : s.write =
    .unplaced s.kind.opener s.keyword :: (s.argument.toList.map (.unplaced .string) ++
      .unplaced .leftBrace "\x7b" :: writeAll s.children ++ [.unplaced .rightBrace "\x7d"]) := by
  cases s
  rfl

end Statement

theorem opens_opener (fits : ArgumentFits k argument) (inside : inExtension → k = .extension) :
    Opens inExtension k.opener k argument := by
  cases inExtension with
  | true =>
    rw [inside rfl]
    exact ⟨rfl, rfl⟩
  | false =>
    cases k with
    | core word => exact .inl rfl
    | deviate f => exact .inr ⟨rfl, f, fits.form f rfl, rfl⟩
    | extension => exact .inl rfl

theorem spellsArgument_string (argument : Option String) :
    SpellsArgument argument (argument.toList.map (.unplaced .string)) := by
  cases argument with
  | none => rfl
  | some value =>
    have begins : (Token.unplaced .string value).kind.isArgument := rfl
    exact .piece begins

theorem rendersAll_writeAll (each : ∀ c ∈ ss, Renders inExtension c c.write) :
    RendersAll inExtension ss (Statement.writeAll ss) := by
  induction ss with
  | nil => exact .nil
  | cons c ss ih =>
    rw [List.forall_mem_cons] at each
    exact .cons each.1 (ih each.2)

/-- Whatever conforms can be written. -/
theorem renders_write (fits : ∀ n ∈ s.preorder, n.Fits) (inside : inExtension → s.isExtension) :
    Renders inExtension s s.write := by
  induction s generalizing inExtension with
  | node s ih =>
    have children : RendersAll s.isExtension s.children (Statement.writeAll s.children) := by
      apply rendersAll_writeAll
      intro c child
      apply ih c child
      · intro n found
        exact fits n (Statement.mem_preorder_of_child child found)
      · intro extension
        exact Statement.isExtension_below fits extension c
          (Statement.mem_descendants_of_child child c.self_mem_preorder)
    have opens := opens_opener (fits s s.self_mem_preorder).argument
      (by simpa [Statement.isExtension] using inside)
    rw [Statement.write_eq]
    exact .block opens rfl (spellsArgument_string s.argument) rfl children rfl

end Yang
