import Yang.Proofs.Parse.Move
import Yang.Proofs.Parse.Progress
import Yang.Proofs.Parse.Reads
import Yang.Proofs.Statement.Rendering

/-! Whole statements as passages of tokens. What is read as a statement where nothing encloses it is
read in the same way inside any blocks, so passages one behind another fill the block around them,
as far as this admits their kinds. -/
namespace Yang.Parse

open Grammar

/-- Tokens, the statement that they are read as, and the structural errors that come to light on the
way. -/
structure Passage where
  tokens : List Token
  statement : Statement
  errors : List StructuralError

/-- The tokens are a whole statement, in an extension statement or anywhere else: the first of them
tells what it is read as, and with the last it is complete. -/
def Passage.IsStatement (strict inExtension : Bool) (p : Passage) : Prop :=
  ∃ t ts starter, p.tokens = t :: ts ∧ Starter.ofToken? inExtension t.kind = some starter ∧
    (State.ofHead ⟨starter, t⟩).Reads strict ts ⟨[], .complete p.statement⟩ p.errors

variable {strict inExtension : Bool} {enclosing outer : List Block} {phase : Phase} {b : Block}
  {h : Head} {k : Statement.Kind} {keyword t : Token} {argument : Option String} {value : String}
  {s : Statement} {σ τ : State} {ts : List Token} {es : List StructuralError}
  {P : Statement.Kind → Prop} {p q : Progress} {starter : Starter} {passage : Passage}
  {ps : List Passage}

namespace State

/-- A state with more blocks around it. -/
def within (outer : List Block) : State → State
  | ⟨enclosing, .complete s⟩ => complete (enclosing ++ outer) s
  | ⟨enclosing, phase⟩ => ⟨enclosing ++ outer, phase⟩

theorem within_complete (outer enclosing : List Block) (s : Statement) :
    (complete enclosing s).within outer = complete (enclosing ++ outer) s := by
  cases enclosing <;> rfl

theorem within_of_named (named : Named phase k keyword argument) :
    (⟨enclosing, phase⟩ : State).within outer = ⟨enclosing ++ outer, phase⟩ := by
  cases named <;> rfl

/-- A token does not look at the blocks further out. -/
theorem move_within (move : Move strict σ t τ es) (outer : List Block) :
    Move strict (σ.within outer) t (τ.within outer) es := by
  cases move with
  | unit word accepted => exact .unit word accepted
  | argument takes begins => exact .argument takes begins
  | plus join => exact .plus join
  | piece joined => exact .piece joined
  | ended named semicolon allowed =>
    rw [within_of_named named, within_complete]
    exact .ended named semicolon allowed
  | opened named brace =>
    rw [within_of_named named]
    exact .opened named brace
  | closed brace =>
    rw [within_complete]
    exact .closed brace
  | begun inside received => exact .begun inside received

theorem Reads.within (reads : σ.Reads strict ts τ es) (outer : List Block) :
    (σ.within outer).Reads strict ts (τ.within outer) es := by
  induction reads with
  | none => exact .none
  | next stepped later ih =>
    exact .next (step_eq_ok_iff.mpr (move_within (step_eq_ok_iff.mp stepped) outer)) ih

/-- A statement that is complete where nothing encloses it is complete inside any blocks. -/
theorem Reads.enclosed (reads : (ofHead h).Reads strict ts ⟨[], .complete s⟩ es)
    (outer : List Block) :
    (⟨outer, .head h⟩ : State).Reads strict ts (complete outer s) es := reads.within outer

end State

/-- If a statement of the kind stands inside the blocks, the outermost of all is of a kind that is
looked for. -/
def Outermost (P : Statement.Kind → Prop) : List Block → Statement.Kind → Prop
  | [], k => P k
  | b :: outer, _ => Outermost P outer b.kind

namespace State

/-- The outermost statement of a state is of a kind that is looked for. -/
def Outermost (P : Statement.Kind → Prop) (σ : State) : Prop :=
  match σ.phase with
  | .start _ => False
  | .head h | .piece h _ _ | .joining h _ _ =>
    ∀ value k, h.starter.resolve? value = some k → Parse.Outermost P σ.enclosing k
  | .content b => Parse.Outermost P σ.enclosing b.kind
  | .complete s => Parse.Outermost P σ.enclosing s.kind

theorem outermost_complete (outermost : Parse.Outermost P enclosing s.kind) :
    (complete enclosing s).Outermost P := by
  cases enclosing <;> exact outermost

theorem Outermost.named (outermost : (⟨enclosing, phase⟩ : State).Outermost P)
    (named : Named phase k keyword argument) : Parse.Outermost P enclosing k := by
  cases named with
  | bare dispensable => exact outermost "" k rfl
  | argued resolved => exact outermost _ k resolved

theorem Outermost.move (outermost : σ.Outermost P) (move : Move strict σ t τ es) :
    τ.Outermost P := by
  cases move with
  | unit word accepted => exact outermost.elim
  | argument takes begins => exact outermost
  | plus join => exact outermost
  | piece joined => exact outermost
  | ended named semicolon allowed => exact outermost_complete (outermost.named named)
  | opened named brace => exact outermost.named named
  | closed brace => exact outermost_complete outermost
  | begun inside received => exact fun _ _ _ => outermost

theorem Outermost.reads (outermost : σ.Outermost P) (reads : σ.Reads strict ts τ es) :
    τ.Outermost P := by
  induction reads with
  | none => exact outermost
  | next stepped later ih => exact ih (outermost.move (step_eq_ok_iff.mp stepped))

/-- A statement is of a kind that its first token can start. -/
theorem Reads.exists_resolve (reads : (ofHead h).Reads strict ts ⟨[], .complete s⟩ es) :
    ∃ value, h.starter.resolve? value = some s.kind := by
  have sought : (ofHead h).Outermost fun k => ∃ value, h.starter.resolve? value = some k :=
    fun value k resolved => ⟨value, resolved⟩
  exact sought.reads reads

end State

/-- What a starter does to a block does not depend on the kind of statement that it turns out to
start. -/
theorem Starter.takes_iff (resolved : starter.resolve? value = some k) :
    starter.Takes strict b.kind p q ↔ p.after? strict b.kind k = some q := by
  cases starter with
  | kind l =>
    cases resolved
    exact takes_kind
  | deviate =>
    obtain ⟨f, _, rfl⟩ := Option.map_eq_some_iff.mp resolved
    rw [takes_deviate]
    constructor
    · intro takes
      exact takes f
    · intro taken g
      rw [Progress.after?_deviate strict b.kind p g f, taken]

namespace Passage.IsStatement

/-- A passage is read in a block just when the block admits a statement of its kind, which it then
holds. -/
theorem reads_iff (whole : passage.IsStatement strict (b.kind = .extension))
    (suits : b.progress.Suits b.kind) :
    (⟨enclosing, .content b⟩ : State).Reads strict passage.tokens τ es ↔
      ∃ q, b.progress.after? strict b.kind passage.statement.kind = some q ∧
        ⟨enclosing, .content ({ b with progress := q }.push passage.statement)⟩ = τ ∧
          passage.errors = es := by
  obtain ⟨t, ts, starter, split, starts, reads⟩ := whole
  obtain ⟨value, resolved⟩ := reads.exists_resolve
  have inside := Starter.ne_rightBrace_of_ofToken? starts
  rw [split]
  constructor
  · intro whole
    obtain ⟨_, _, gs, stepped, later, rfl⟩ := State.reads_cons.mp whole
    cases State.step_eq_ok_iff.mp stepped with
    | ended named | opened named => cases named
    | closed brace => exact absurd brace inside
    | begun _ received =>
      obtain ⟨same, takes⟩ := (Block.receive_eq_ok suits).mp received
      cases starts.symm.trans same
      obtain ⟨rfl, rfl⟩ := (reads.enclosed _).unique later
      exact ⟨_, (Starter.takes_iff resolved).mp takes, rfl, rfl⟩
  · rintro ⟨q, taken, rfl, rfl⟩
    have received := (Block.receive_eq_ok suits).mpr
      ⟨starts, (Starter.takes_iff resolved).mpr taken⟩
    exact .next (State.step_eq_ok_iff.mpr (.begun inside received)) (reads.enclosed _)

end Passage.IsStatement

/-- Passages one behind another are read in a block just when it admits statements of their kinds
one after another. -/
theorem reads_passages (each : ∀ p ∈ ps, p.IsStatement strict (b.kind = .extension))
    (suits : b.progress.Suits b.kind) :
    (⟨enclosing, .content b⟩ : State).Reads strict (ps.flatMap (·.tokens)) τ es ↔
      ∃ q, (ps.map (·.statement.kind)).foldlM (Progress.after? strict b.kind) b.progress = some q ∧
        ⟨enclosing, .content
          { b with children := b.children ++ (ps.map (·.statement)).toArray, progress := q }⟩ = τ ∧
        ps.flatMap (·.errors) = es := by
  induction ps generalizing b es with
  | nil => simp [eq_comm]
  | cons p ps ih =>
    rw [List.forall_mem_cons] at each
    rw [List.flatMap_cons, State.reads_append]
    constructor
    · rintro ⟨_, _, gs, first, later, rfl⟩
      obtain ⟨q, taken, rfl, rfl⟩ := (each.1.reads_iff suits).mp first
      obtain ⟨r, admitted, rfl, rfl⟩ := (ih (b := { b with progress := q }.push p.statement) each.2
        (suits.after taken)).mp later
      exact ⟨r, Option.bind_eq_some_iff.mpr ⟨q, taken, admitted⟩, by simp [Block.push], rfl⟩
    · rintro ⟨r, admitted, rfl, rfl⟩
      obtain ⟨q, taken, admitted⟩ := Option.bind_eq_some_iff.mp admitted
      refine ⟨_, _, _, (each.1.reads_iff suits).mpr ⟨q, taken, rfl, rfl⟩, ?_, rfl⟩
      exact (ih (b := { b with progress := q }.push p.statement) each.2 (suits.after taken)).mpr
        ⟨r, admitted, by simp [Block.push], rfl⟩

namespace Sample

def word (k : Keyword) : Token := .unplaced (.keyword k) k.name

def string : String → Token := .unplaced .string

def left : Token := .unplaced .leftBrace "\x7b"

def right : Token := .unplaced .rightBrace "\x7d"

def semicolon : Token := .unplaced .semicolon ";"

def nowhere : Span := .empty .origin

/-- A statement without a block. -/
def ended (k : Keyword) (argument : String) : Passage :=
  ⟨[word k, string argument, semicolon], ⟨.core k, k.name, some argument, [], nowhere⟩, []⟩

end Sample

end Yang.Parse
