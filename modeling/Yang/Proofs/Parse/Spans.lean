import Yang.Proofs.Parse.Halt
import Yang.Proofs.Parse.Written
import Yang.Proofs.Statement.Nesting
import Yang.Proofs.Token.Placement

/-! The spans of the statements that a parse returns. Each runs from the keyword of its statement to
the token that closes it; as the tokens follow one another in the text, the spans are nested as the
statements are. -/
namespace Yang

open Parse

variable {s c : Statement} {b : Block} {ts us : List Token} {p q : Position} {strict : Bool}
  {root : Statement.Kind → Prop} {enclosing : List Block} {phase : Phase} {k : Statement.Kind}
  {keyword t : Token} {argument : Option String} {σ τ : State} {es : List StructuralError}

/-- A statement is written by some of the tokens, and its span runs from its keyword to the token
that closes it. -/
def Statement.StandsAmong (ts : List Token) (s : Statement) : Prop :=
  ∃ inExtension before keyword inside close behind,
    ts = before ++ (keyword :: (inside ++ [close])) ++ behind ∧
    Renders inExtension s (keyword :: (inside ++ [close])) ∧ keyword.text = s.keyword ∧
    (close.kind = .semicolon ∨ close.kind = .rightBrace) ∧
      s.span = ⟨keyword.span.start, close.span.stop⟩

/-- All statements of a tree stand among the tokens, nested as they should be. -/
def Statement.Placed (ts : List Token) (s : Statement) : Prop :=
  ∀ n ∈ s.preorder, n.StandsAmong ts ∧ n.Nested

namespace Statement

theorem StandsAmong.append (stands : s.StandsAmong ts) (us : List Token) :
    s.StandsAmong (ts ++ us) := by
  obtain ⟨inExtension, before, keyword, inside, close, behind, rfl, stands⟩ := stands
  exact ⟨inExtension, before, keyword, inside, close, behind ++ us, by simp, stands⟩

theorem Placed.append (placed : s.Placed ts) (us : List Token) : s.Placed (ts ++ us) :=
  fun n inside => ⟨(placed n inside).1.append us, (placed n inside).2⟩

theorem placed_of_children (stands : s.StandsAmong ts) (nested : s.Nested)
    (placed : ∀ c ∈ s.children, c.Placed ts) :
    s.Placed ts := by
  intro n inside
  rcases mem_preorder.mp inside with rfl | below
  · exact ⟨stands, nested⟩
  · obtain ⟨c, child, inside⟩ := mem_descendants.mp below
    exact placed c child n inside

end Statement

namespace Parse

/-- The substatements of an open block stand among the tokens, one behind another between its
keyword and a position. -/
structure Block.Laid (ts : List Token) (p : Position) (b : Block) : Prop where
  forward : b.keyword.span.start < b.keyword.span.stop
  before : b.keyword.span.stop ≤ p
  placed : ∀ c ∈ b.children.toList, c.Placed ts
  inside : ∀ c ∈ b.children.toList, b.keyword.span.stop ≤ c.span.start ∧ c.span.stop ≤ p
  apart : b.children.toList.Pairwise (·.span.stop ≤ ·.span.start)

/-- Enclosing blocks are laid out up to a position, each up to the keyword of the next one inside
it. -/
def LaidBlocks (ts : List Token) : Position → List Block → Prop
  | _, [] => True
  | p, b :: outer => b.Laid ts p ∧ LaidBlocks ts b.keyword.span.start outer

theorem Block.Laid.later (laid : b.Laid ts p) (behind : p ≤ q) (us : List Token) :
    b.Laid (ts ++ us) q :=
  ⟨laid.forward, laid.before.trans behind, fun c child => (laid.placed c child).append us,
    fun c child => ⟨(laid.inside c child).1, (laid.inside c child).2.trans behind⟩, laid.apart⟩

theorem LaidBlocks.later (laid : LaidBlocks ts p enclosing) (behind : p ≤ q) (us : List Token) :
    LaidBlocks (ts ++ us) q enclosing := by
  induction enclosing generalizing p q with
  | nil => trivial
  | cons b outer ih => exact ⟨laid.1.later behind us, ih laid.2 le_rfl⟩

theorem Block.laid_opened (k : Statement.Kind) (argument : Option String)
    (forward : keyword.span.start < keyword.span.stop) (before : keyword.span.stop ≤ p) :
    (opened k keyword argument).Laid ts p :=
  ⟨forward, before, nofun, nofun, .nil⟩

theorem Block.Laid.push (laid : b.Laid ts s.span.start) (placed : s.Placed ts)
    (stop : s.span.stop ≤ p) :
    (b.push s).Laid ts p := by
  have forward := (placed s s.self_mem_preorder).2.forward
  have behind : s.span.start ≤ p := forward.le.trans stop
  refine ⟨laid.forward, laid.before.trans behind, ?_, ?_, ?_⟩
  all_goals rw [Block.push, Array.toList_push]
  · exact List.forall_mem_append.mpr ⟨laid.placed, List.forall_mem_singleton.mpr placed⟩
  · refine List.forall_mem_append.mpr ⟨?_, List.forall_mem_singleton.mpr ⟨laid.before, stop⟩⟩
    intro c child
    exact ⟨(laid.inside c child).1, (laid.inside c child).2.trans behind⟩
  · refine List.pairwise_append.mpr ⟨laid.apart, List.pairwise_singleton _ _, ?_⟩
    intro c child d last
    rw [List.mem_singleton.mp last]
    exact (laid.inside c child).2

namespace State

/-- What has been read stands among the tokens, which reach up to a position. -/
def Laid (ts : List Token) (p : Position) (σ : State) : Prop :=
  match σ.phase with
  | .start _ => LaidBlocks ts p σ.enclosing
  | .head h | .piece h _ _ | .joining h _ _ =>
    h.keyword.span.start < h.keyword.span.stop ∧ h.keyword.span.stop ≤ p ∧
      LaidBlocks ts h.keyword.span.start σ.enclosing
  | .content b => b.Laid ts p ∧ LaidBlocks ts b.keyword.span.start σ.enclosing
  | .complete s => s.Placed ts

theorem Laid.named (laid : (⟨enclosing, phase⟩ : State).Laid ts p)
    (named : Named phase k keyword argument) :
    keyword.span.start < keyword.span.stop ∧ keyword.span.stop ≤ p ∧
      LaidBlocks ts keyword.span.start enclosing := by
  cases named <;> exact laid

theorem laid_complete (blocks : LaidBlocks ts s.span.start enclosing) (placed : s.Placed ts)
    (stop : s.span.stop ≤ p) : (complete enclosing s).Laid ts p := by
  cases enclosing with
  | nil => exact placed
  | cons b outer => exact ⟨blocks.1.push placed stop, blocks.2⟩

/-- A token that closes a block, or ends a statement without one, is the last of the statement's
tokens. -/
theorem laid_closed {inExtension : Bool} {earlier inside : List Token} (laid : b.Laid ts p)
    (blocks : LaidBlocks ts b.keyword.span.start enclosing)
    (split : ts = earlier ++ b.keyword :: inside)
    (renders : Renders inExtension (b.statement t) (b.keyword :: (inside ++ [t])))
    (closes : t.kind = .semicolon ∨ t.kind = .rightBrace) (behind : p ≤ t.span.start)
    (forward : t.span.start < t.span.stop) :
    (complete enclosing (b.statement t)).Laid (ts ++ [t]) t.span.stop := by
  have cover : (b.statement t).span = ⟨b.keyword.span.start, t.span.stop⟩ :=
    Span.cover_eq (laid.forward.le.trans (laid.before.trans behind))
      (laid.before.trans (behind.trans forward.le))
  have stands : (b.statement t).StandsAmong (ts ++ [t]) :=
    ⟨inExtension, earlier, b.keyword, inside, t, [], by simp [split], renders, rfl, closes, cover⟩
  have nested : (b.statement t).Nested := by
    refine ⟨?_, ?_, laid.apart⟩
    · rw [cover]
      exact laid.forward.trans_le (laid.before.trans (behind.trans forward.le))
    · intro c child
      obtain ⟨starts, stops⟩ := laid.inside c child
      rw [cover]
      exact ⟨laid.forward.trans_le starts, stops.trans_lt (behind.trans_lt forward)⟩
  have placed : (b.statement t).Placed (ts ++ [t]) :=
    Statement.placed_of_children stands nested fun c child => (laid.placed c child).append [t]
  refine laid_complete ?_ placed ?_
  · rw [cover]
    exact blocks.later le_rfl [t]
  · rw [cover]

/-- A token behind all that has been read leaves everything in its place, and closes what it closes
behind it. -/
theorem Laid.move (laid : σ.Laid ts p) (written : σ.Written ts) (sound : σ.Sound strict root)
    (move : Move strict σ t τ es) (behind : p ≤ t.span.start)
    (forward : t.span.start < t.span.stop) :
    τ.Laid (ts ++ [t]) t.span.stop := by
  have past : p ≤ t.span.stop := behind.trans forward.le
  cases move with
  | unit word accepted => exact ⟨forward, le_rfl, LaidBlocks.later laid behind [t]⟩
  | argument takes begins | plus join | piece joined =>
    exact ⟨laid.1, laid.2.1.trans past, laid.2.2.later le_rfl [t]⟩
  | @ended _ k keyword argument _ _ named semicolon allowed =>
    obtain ⟨wide, before, blocks⟩ := laid.named named
    obtain ⟨earlier, arg, split, _, opens, spells⟩ := written.named sound named
    -- It is closed as a block that holds nothing would be.
    exact laid_closed (Block.laid_opened k argument wide before) blocks split
      (.ended opens rfl spells rfl semicolon)
      (.inl semicolon) behind forward
  | @opened _ k keyword argument _ _ named brace =>
    obtain ⟨wide, before, blocks⟩ := laid.named named
    exact ⟨Block.laid_opened k argument wide (before.trans past), blocks.later le_rfl [t]⟩
  | @closed _ b _ brace =>
    obtain ⟨earlier, _, rfl, _, arg, left, inner, rfl, opens, spells, open_, body⟩ := written
    exact laid_closed laid.1 laid.2 rfl (.block opens rfl spells open_ body brace)
      (.inr brace) behind forward
  | @begun b _ starter progress _ inside received =>
    obtain ⟨wide, before, placed, inside, apart⟩ := laid.1.later behind [t]
    exact ⟨forward, le_rfl, ⟨wide, before, placed, inside, apart⟩, laid.2.later le_rfl [t]⟩

theorem Laid.reads (laid : σ.Laid ts p) (written : σ.Written ts) (sound : σ.Sound strict root)
    (reads : σ.Reads strict us τ es) (order : Token.InOrder p us) : ∃ q, τ.Laid (ts ++ us) q := by
  induction reads generalizing ts p with
  | none => exact ⟨p, by simpa using laid⟩
  | next stepped later ih =>
    have move := step_eq_ok_iff.mp stepped
    obtain ⟨behind, forward, order⟩ := order
    have next := laid.move written sound move behind (forward (isEnd_of_step stepped))
    obtain ⟨q, laid⟩ := ih next (written.move sound move) (sound.move move) order
    exact ⟨q, by simpa using laid⟩

end State

end Parse

variable {entry : Entry} {options : Options} {text : String}

/-- The statements that a parse makes of tokens in order stand among them. -/
theorem placed_of_parseTokens {tokens : TokenStream}
    (accepted : (parseTokens entry options tokens).result = .ok s)
    (order : Token.InOrder p tokens.pending) : s.Placed tokens.pending := by
  have initial : (State.initial entry).Laid [] p := trivial
  obtain ⟨_, placed⟩ := initial.reads (State.written_initial entry) (State.sound_initial entry)
    (parseTokens_result_eq_ok.mp accepted) order
  exact placed

/-- Every statement of the tree that a text of fewer than `2 ^ 32` bytes is parsed to has its span
from where its keyword begins to where its semicolon or its brace ends; the span of a token is that
of its bytes. Substatements lie inside, one behind another. So statements begin in the order of a
walk through the tree, no two have the same span, and of two one lies inside the other just when it
is a descendant of it. -/
theorem spans_of_parse (short : Text.byteLength text.toList < UInt32.size)
    (accepted : parse entry options text = .ok s) :
    (∀ n ∈ s.preorder, n.StandsAmong (Token.ofText text) ∧
      n.span.start < n.span.stop ∧
      (∀ c ∈ n.children, n.span.start < c.span.start ∧ c.span.stop < n.span.stop) ∧
      n.children.Pairwise (·.span.stop ≤ ·.span.start)) ∧
    (∀ t ∈ Token.ofText text, t.StandsFor text.toList) ∧
    s.preorder.Pairwise (·.span.start < ·.span.start) ∧ (s.preorder.map (·.span)).Nodup ∧
    ∀ m ∈ s.preorder, ∀ n ∈ s.preorder, m ≠ n → (m.span.Within n.span ↔ m ∈ n.descendants) := by
  have split := TokenStream.pending_append_dropWhile (Token.ofText text)
  have order := Token.inOrder_ofText short
  rw [← split] at order
  have placed := (placed_of_parseTokens accepted order.of_append).append
    ((Token.ofText text).dropWhile (!·.isEnd))
  rw [split] at placed
  have nested : ∀ n ∈ s.preorder, n.Nested := fun n inside => (placed n inside).2
  refine ⟨?_, fun t => Token.standsFor_of_mem_ofText short,
    Statement.preorder_pairwise_start nested, Statement.preorder_nodup_span nested, ?_⟩
  · intro n inside
    obtain ⟨stands, forward, inside, apart⟩ := placed n inside
    exact ⟨stands, forward, inside, apart⟩
  · intro m inside_m n inside_n other
    exact Statement.within_iff_mem_descendants nested inside_m inside_n other

namespace Sample

/-- Two lines, with characters of two bytes in the first. -/
def lines : String := "module é \x7b namespace 'ü';\nprefix p; \x7d"

def linesTree : Statement :=
  ⟨.core .module, "module", some "é",
    [⟨.core .namespaceStmt, "namespace", some "ü", [], ⟨⟨0, 11⟩, ⟨0, 25⟩⟩⟩,
      ⟨.core .prefixStmt, "prefix", some "p", [], ⟨⟨1, 0⟩, ⟨1, 9⟩⟩⟩],
    ⟨⟨0, 0⟩, ⟨1, 11⟩⟩⟩

theorem parse_lines : parse .module {} lines = .ok linesTree := by
  with_unfolding_all rfl

end Sample

theorem spans_of_parse_sample : Text.byteLength Sample.lines.toList < UInt32.size ∧
    parse .module {} Sample.lines = .ok Sample.linesTree ∧
    (∀ n ∈ Sample.linesTree.preorder, n.StandsAmong (Token.ofText Sample.lines)) ∧
    (Sample.linesTree.preorder.map (·.span)).Nodup ∧
    ∀ m ∈ Sample.linesTree.preorder, ∀ n ∈ Sample.linesTree.preorder, m ≠ n →
      (m.span.Within n.span ↔ m ∈ n.descendants) := by
  have short : Text.byteLength Sample.lines.toList < UInt32.size := by decide +kernel
  obtain ⟨each, _, _, distinct, within⟩ := spans_of_parse short Sample.parse_lines
  exact ⟨short, Sample.parse_lines, fun n inside => (each n inside).1, distinct, within⟩

namespace Sample

/-- Characters of two bytes each. -/
def accents (n : Nat) : List Char := .replicate (22 + n) 'é'

def behindAccents : List Char := " module m\x7bnamespace n;prefix p;\x7d".toList

/-- A module behind a comment of `2 ^ 32 + 12` bytes. -/
def accented : String :=
  String.ofList ((Lexeme.blockComment (accents (UInt32.size / 2 - 18))).source ++ behindAccents)

/-- The part of it by which the tokens of the module are placed, as offsets that differ by `2 ^ 32`
are kept alike. -/
def accentedFront : List Char := '/' :: '*' :: .replicate 22 'é'

theorem exists_accentedFront (n : Nat) : ∃ back, '\n' ∉ accentedFront ++ back ∧
    accentedFront ++ back = (Lexeme.blockComment (accents n)).source ++ behindAccents := by
  refine ⟨.replicate n 'é' ++ ('*' :: '/' :: behindAccents), ?_, ?_⟩
  · have closing : '\n' ∉ '*' :: '/' :: behindAccents := by decide +kernel
    have opening : '\n' ∉ accentedFront := by decide +kernel
    rw [List.mem_append, List.mem_append, List.mem_replicate]
    rintro (inside | ⟨_, same⟩ | inside)
    · exact opening inside
    · exact absurd same (by decide)
    · exact closing inside
  · have parts : accents n = .replicate 22 'é' ++ .replicate n 'é' := List.replicate_add 22 n 'é'
    simp only [Lexeme.source, parts, accentedFront, List.cons_append, List.append_assoc,
      List.nil_append]

theorem ofText_accented : Token.ofText accented =
    (Token.ofLexemes (.ofText accentedFront) true 12 (Lexeme.ofText behindAccents)).map
      (.moved id UInt32.size) := by
  have unclosed (n : Nat) : Lexeme.Unclosed (accents n) :=
    Lexeme.unclosed_of_not_mem (by simp [accents])
  have length : Text.byteLength (accents (UInt32.size / 2 - 18)) + 4 = UInt32.size + 12 := by
    have wide : 'é'.utf8Size = 2 := rfl
    have counted : Text.byteLength (accents (UInt32.size / 2 - 18)) =
        (22 + (UInt32.size / 2 - 18)) * 2 := by
      rw [accents, Text.byteLength_replicate, wide]
    unfold UInt32.size at counted ⊢
    omega
  obtain ⟨back, plain, split⟩ := exists_accentedFront (UInt32.size / 2 - 18)
  rw [accented, Token.ofText_comment_append (unclosed _), length, ← split]
  refine Token.ofLexemes_moved fun before behind whole => ?_
  rw [Lexeme.flatMap_source_ofText] at whole
  have kept (k : Nat) : UInt32.ofNat (UInt32.size + k) = UInt32.ofNat k :=
    UInt32.toNat_inj.mp (by rw [UInt32.toNat_ofNat', UInt32.toNat_ofNat', Nat.add_mod_left])
  have room : Text.byteLength behindAccents + 12 ≤ Text.byteLength accentedFront := by
    decide +kernel
  rw [kept]
  refine LineIndex.position_append plain ?_
  rw [← whole, Text.byteLength_append] at room
  exact (Nat.mod_le _ _).trans (by omega)

def accentedTree : Statement :=
  ⟨.core .module, "module", some "m",
    [⟨.core .namespaceStmt, "namespace", some "n", [], ⟨⟨0, 12⟩, ⟨0, 31⟩⟩⟩,
      ⟨.core .prefixStmt, "prefix", some "p", [], ⟨⟨0, 18⟩, ⟨0, 43⟩⟩⟩],
    ⟨⟨0, 13⟩, ⟨0, 23⟩⟩⟩

theorem parse_accented : parse .anyUnit {} accented = .ok accentedTree := by
  rw [parse, ofText_accented]
  with_unfolding_all rfl

end Sample

/-- Behind `2 ^ 32` bytes tokens are placed by the characters before those, and a statement can
begin behind one that is inside it. -/
theorem not_nested_accented : parse .anyUnit {} Sample.accented = .ok Sample.accentedTree ∧
    ∃ c ∈ Sample.accentedTree.children,
      ¬ Sample.accentedTree.span.start < c.span.start := by
  refine ⟨Sample.parse_accented, _, List.mem_cons_self, ?_⟩
  decide

end Yang
