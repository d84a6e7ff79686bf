import Yang.Proofs.Parse.Admission
import Yang.Proofs.Parse.Move
import Yang.Proofs.Parse.Reads

/-! The invariant of the parser. Whatever has been read, the statements that are complete can stand
where they stand, and each open block has come as far as its substatements take it, the one that is
being read included. -/
namespace Yang

open Grammar Parse

/-- Every statement of a tree has an argument its kind takes, and its substatements can be read one
after another. -/
def Statement.Readable (strict : Bool) (s : Statement) : Prop :=
  ∀ n ∈ s.preorder, ArgumentFits n.kind n.argument ∧ n.Orderly strict

namespace Parse

variable {strict : Bool} {root : Statement.Kind → Prop} {enclosing : List Block} {phase : Phase}
  {h : Head} {k : Statement.Kind} {keyword t : Token} {argument : Option String} {b : Block}
  {s : Statement} {σ τ : State} {ts : List Token} {es : List StructuralError}

namespace Block

def kinds (b : Block) : List Statement.Kind := b.children.toList.map (·.kind)

/-- The argument and the substatements of a block are as they should be. -/
structure Sound (strict : Bool) (b : Block) : Prop where
  argument : ArgumentFits b.kind b.argument
  children : ∀ c ∈ b.children.toList, c.Readable strict

/-- A block has come as far as its substatements take it. -/
def Ready (strict : Bool) (b : Block) : Prop :=
  Progress.afterAll? strict b.kind b.kinds = some b.progress

/-- A block has come as far as one more substatement of the given kind will take it. -/
def Awaits (strict : Bool) (b : Block) (k : Statement.Kind) : Prop :=
  Progress.afterAll? strict b.kind (b.kinds ++ [k]) = some b.progress

theorem Ready.suits (ready : b.Ready strict) : b.progress.Suits b.kind :=
  Progress.suits_of_afterAll? ready

end Block

/-- A statement of the kind can come next in the innermost of the enclosing blocks; if there is
none, it has to be what the root is to be. -/
def Encloses (strict : Bool) (root : Statement.Kind → Prop) : List Block → Statement.Kind → Prop
  | [], k => root k
  | b :: outer, k => b.Sound strict ∧ b.Awaits strict k ∧ Encloses strict root outer b.kind

def insideExtension : List Block → Bool
  | [] => false
  | b :: _ => b.kind = .extension

/-- The keyword starts what its head says, and that can come next. -/
structure Head.Sound (strict : Bool) (root : Statement.Kind → Prop) (enclosing : List Block)
    (h : Head) : Prop where
  starts : Starter.ofToken? (insideExtension enclosing) h.keyword.kind = some h.starter
  place : ∀ value k, h.starter.resolve? value = some k → Encloses strict root enclosing k

theorem Head.Sound.argumentFits {value : String} (sound : h.Sound strict root enclosing)
    (takes : h.TakesArgument) (resolved : h.starter.resolve? value = some k) :
    ArgumentFits k (some value) := by
  obtain ⟨starter, keyword⟩ := h
  cases starter with
  | kind l =>
    cases resolved
    refine ⟨fun _ => rfl, fun use => absurd use (takes k rfl), ?_⟩
    rintro f rfl
    have := Starter.isDeviate_of_ofToken? sound.starts
    contradiction
  | deviate =>
    obtain ⟨f, selected, rfl⟩ := Option.map_eq_some_iff.mp resolved
    refine ⟨fun _ => rfl, ?_, ?_⟩
    · intro use
      rw [argument_deviate f] at use
      contradiction
    · rintro _ ⟨⟩
      exact selected

namespace State

def Sound (strict : Bool) (root : Statement.Kind → Prop) (σ : State) : Prop :=
  match σ.phase with
  | .start entry => σ.enclosing = [] ∧ ∀ k ∈ entry.accepted, root (.core k)
  | .head h => h.Sound strict root σ.enclosing
  | .piece h _ _ | .joining h _ _ => h.Sound strict root σ.enclosing ∧ h.TakesArgument
  | .content b => b.Sound strict ∧ b.Ready strict ∧ Encloses strict root σ.enclosing b.kind
  | .complete s => σ.enclosing = [] ∧ s.Readable strict ∧ root s.kind

theorem sound_initial (entry : Entry) :
    (initial entry).Sound strict (fun k => ∃ word ∈ entry.accepted, k = .core word) :=
  ⟨rfl, fun k member => ⟨k, member, rfl⟩⟩

theorem Sound.named (sound : (⟨enclosing, phase⟩ : State).Sound strict root)
    (named : Named phase k keyword argument) : ArgumentFits k argument ∧
      Encloses strict root enclosing k := by
  cases named with
  | bare dispensable =>
    refine ⟨⟨fun use => absurd use dispensable, fun _ => rfl, ?_⟩, sound.place "" k rfl⟩
    rintro f rfl
    exact absurd (argument_deviate f) dispensable
  | argued resolved => exact ⟨sound.1.argumentFits sound.2 resolved, sound.1.place _ k resolved⟩

theorem sound_complete (place : Encloses strict root enclosing s.kind)
    (readable : s.Readable strict) :
    (complete enclosing s).Sound strict root := by
  cases enclosing with
  | nil => exact ⟨rfl, readable, place⟩
  | cons b outer =>
    obtain ⟨sound, awaits, place⟩ := place
    refine ⟨⟨sound.argument, ?_⟩, ?_, place⟩
    · intro c member
      rw [Block.push, Array.toList_push] at member
      rcases List.mem_append.mp member with earlier | last
      · exact sound.children c earlier
      · rw [List.mem_singleton.mp last]
        exact readable
    · simpa [Block.Ready, Block.Awaits, Block.kinds, Block.push] using awaits

theorem readable_statement (sound : b.Sound strict) (ready : b.Ready strict) (close : Token) :
    (b.statement close).Readable strict := by
  intro n member
  rw [Statement.preorder_eq] at member
  rcases List.mem_cons.mp member with rfl | inside
  · exact ⟨sound.argument, Option.isSome_of_eq_some ready⟩
  · rw [Statement.preorderAll_eq_flatMap] at inside
    obtain ⟨c, member, inside⟩ := List.mem_flatMap.mp inside
    exact sound.children c member n inside

theorem Sound.move (sound : σ.Sound strict root) (move : Move strict σ t τ es) :
    τ.Sound strict root := by
  cases move with
  | unit word accepted =>
    obtain ⟨rfl, places⟩ := sound
    refine ⟨by simp [Starter.ofToken?, insideExtension, word, Token.Kind.statementKind?], ?_⟩
    rintro value _ ⟨⟩
    exact places _ accepted
  | argument takes begins => exact ⟨sound, takes⟩
  | plus join => exact sound
  | piece joined => exact sound
  | ended named semicolon allowed =>
    obtain ⟨takes, place⟩ := sound.named named
    refine sound_complete place ?_
    intro n member
    obtain rfl := List.mem_singleton.mp member
    exact ⟨takes, rfl⟩
  | opened named brace =>
    obtain ⟨takes, place⟩ := sound.named named
    exact ⟨⟨takes, fun _ member => absurd member List.not_mem_nil⟩, rfl, place⟩
  | closed brace =>
    obtain ⟨sound, ready, place⟩ := sound
    exact sound_complete place (readable_statement sound ready _)
  | begun inside received =>
    obtain ⟨sound, ready, place⟩ := sound
    obtain ⟨starts, takes⟩ := (Block.receive_eq_ok ready.suits).mp received
    refine ⟨starts, ?_⟩
    -- The block has moved on for a statement whose kind may only be known from its argument.
    intro value k resolved
    refine ⟨⟨sound.argument, sound.children⟩, ?_, place⟩
    have behind := takes value k resolved
    rw [Block.Awaits, Progress.afterAll?_append]
    exact Option.bind_eq_some_iff.mpr ⟨_, ready, behind⟩

theorem Sound.reads (sound : σ.Sound strict root) (reads : σ.Reads strict ts τ es) :
    τ.Sound strict root := by
  induction reads with
  | none => exact sound
  | next stepped later ih => exact ih (sound.move (step_eq_ok_iff.mp stepped))

end State

end Parse

end Yang
