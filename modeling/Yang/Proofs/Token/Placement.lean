import Yang.Proofs.Source.LineIndex
import Yang.Proofs.Token.Tiling

/-! The positions of tokens. In a text of fewer than `2 ^ 32` bytes they are those of the parts that
the tokens stand for, and they follow one another as the tokens do. -/
namespace Yang

open Text (Short byteLength byteLength_append)

/-- A range in a text, when another text of `n` bytes stands in front of it. -/
def ByteRange.shifted (n : Nat) (r : ByteRange) : ByteRange := ⟨n + r.start, n + r.stop⟩

namespace Token

/-- A token stands for a part of a text: its range counts the bytes up to both ends of the part, and
its span runs between the positions to which reading leads there. -/
def StandsFor (text : List Char) (t : Token) : Prop :=
  ∃ before source behind, before ++ (source ++ behind) = text ∧
    t.range.bytes = ⟨byteLength before, byteLength (before ++ source)⟩ ∧
    t.span = ⟨Position.origin.advanceOver before, Position.origin.advanceOver (before ++ source)⟩

/-- Tokens that follow one another from a position on, each of some width until the end comes. -/
def InOrder : Position → List Token → Prop
  | _, [] => True
  | p, t :: ts =>
    p ≤ t.span.start ∧ (t.isEnd = false → t.span.start < t.span.stop) ∧ InOrder t.span.stop ts

/-- A token of a text whose positions and bytes are taken for others. -/
def moved (f : Position → Position) (n : Nat) (t : Token) : Token :=
  ⟨t.kind, t.text, ⟨f t.span.start, f t.span.stop⟩, t.slice.shifted n⟩

variable {index other : LineIndex} {atStatement : Bool} {offset n : Nat} {ls : List Lexeme}
  {t : Token} {ts us : List Token} {p : Position} {f : Position → Position}
  {front text whole : List Char}

theorem InOrder.of_append (order : InOrder p (ts ++ us)) : InOrder p ts := by
  induction ts generalizing p with
  | nil => trivial
  | cons t ts ih => exact ⟨order.1, order.2.1, ih order.2.2⟩

/-- The span of a token is looked up for its range, however far it stands behind in the text. -/
theorem span_of_mem_ofLexemes (member : t ∈ ofLexemes index atStatement offset ls) :
    t.span = index.span t.range := by
  induction ls generalizing atStatement offset with
  | nil =>
    obtain rfl := List.mem_singleton.mp member
    rfl
  | cons l later ih =>
    rw [ofLexemes_cons, List.mem_append, Option.mem_toList] at member
    rcases member with first | member
    · obtain ⟨_, _, rfl⟩ := Option.map_eq_some_iff.mp first
      rfl
    · exact ih member

/-- What tiles the rest of a text is in order behind what comes before. -/
theorem Tiles.inOrder (tiles : Tiles offset text ts) (start : offset = byteLength front)
    (split : front ++ text = whole) (short : Short whole)
    (spans : ∀ t ∈ ts, t.span = (LineIndex.ofText whole).span t.range) :
    InOrder (Position.origin.advanceOver front) ts := by
  induction tiles generalizing front with
  | @ended gap offset t trivia last silent slice =>
    have span := spans t (List.mem_singleton_self t)
    rw [range, slice, ByteRange.empty, start, ← byteLength_append] at span
    have place := @LineIndex.span_of_append whole (front ++ gap) [] [] short (by simpa using split)
    rw [List.append_nil] at place
    rw [InOrder, span.trans place, last, Position.advanceOver_append]
    exact ⟨Position.le_advanceOver _ _, nofun, trivial⟩
  | @token source rest gap ts offset t trivia more nonempty shown slice later ih =>
    obtain ⟨span, spans⟩ := List.forall_mem_cons.mp spans
    rw [range, slice, start, ← byteLength_append] at span
    have place := @LineIndex.span_of_append whole (front ++ gap) source rest short
      (by simpa using split)
    have stop : t.slice.stop = byteLength (front ++ gap ++ source) := by
      rw [slice, start, byteLength_append, byteLength_append]
    have further : front ++ gap ++ source ++ rest = whole := by simpa using split
    have order := ih stop further spans
    rw [InOrder, span.trans place, Position.advanceOver_append _ _ source,
      Position.advanceOver_append _ front]
    rw [Position.advanceOver_append _ _ source, Position.advanceOver_append _ front] at order
    exact ⟨Position.le_advanceOver _ _, fun _ => Position.lt_advanceOver nonempty, order⟩

theorem inOrder_ofText {text : String} (short : Short text.toList) :
    InOrder .origin (ofText text) := by
  have begins : 0 = byteLength [] := rfl
  exact (tiles_ofText text).inOrder begins rfl short fun _ => span_of_mem_ofLexemes

/-- A token of a text stands for some part of it. -/
theorem standsFor_of_mem_ofText {text : String} (short : Short text.toList)
    (member : t ∈ ofText text) : t.StandsFor text.toList := by
  obtain ⟨before, source, behind, split, slice, _⟩ := (tiles_ofText text).standsIn t member
  rw [Nat.zero_add] at slice
  refine ⟨before, source, behind, split.symm, ?_, ?_⟩
  · rw [bytes_range_of_mem_ofText short member, slice, byteLength_append]
  · rw [span_of_mem_ofLexemes member, range, slice, LineIndex.span_of_append short split.symm]

theorem moved_id (t : Token) : t.moved id 0 = t := by simp [moved, ByteRange.shifted]

/-- Where another index has moved the positions of the places between lexemes, the tokens are moved
as these are. -/
theorem ofLexemes_moved (moves : ∀ before behind, before ++ behind = ls.flatMap Lexeme.source →
      other.position (.ofNat (n + (offset + byteLength before))) =
        f (index.position (.ofNat (offset + byteLength before)))) :
    ofLexemes other atStatement (n + offset) ls =
      (ofLexemes index atStatement offset ls).map (moved f n) := by
  induction ls generalizing atStatement offset with
  | nil =>
    have here : other.position (.ofNat (n + offset)) = f (index.position (.ofNat offset)) :=
      moves [] [] rfl
    rw [ofLexemes, ofLexemes, List.map_singleton, here]
    rfl
  | cons l later ih =>
    have here : other.position (.ofNat (n + offset)) = f (index.position (.ofNat offset)) :=
      moves [] _ rfl
    have behind := moves l.source (later.flatMap Lexeme.source) rfl
    have rest := @ih (l.statementBehind atStatement) (offset + byteLength l.source) ?_
    · have made : l.tokenAt? other atStatement (n + offset) =
          (l.tokenAt? index atStatement offset).map (moved f n) := by
        simp only [Lexeme.tokenAt?, LineIndex.span, ByteRange.kept, Nat.add_assoc, here, behind,
          Option.map_map]
        rfl
      rw [ofLexemes_cons, ofLexemes_cons, List.map_append, Nat.add_assoc, rest, made]
      cases l.tokenAt? index atStatement offset <;> rfl
    · intro before behind split
      have further := moves (l.source ++ before) behind (by simp [split])
      rwa [byteLength_append, ← Nat.add_assoc offset] at further

end Token

end Yang
