import Mathlib.Data.List.DropRight
import Yang.Proofs.Source.Position
import Yang.Source.LineIndex

/-! The lines of a text, in bytes and in characters. No byte of a character is a line feed unless
the character is one, so both agree on where lines begin. -/
namespace Yang

namespace Text

variable {c : Char} {text before behind more rest : List Char} {offset k : Nat}

/-- A character begins at the offset, or the text ends there. -/
def IsBoundary (text : List Char) (offset : Nat) : Prop :=
  ∃ before behind, before ++ behind = text ∧ byteLength before = offset

/-- A text of so few bytes that every offset in it is kept as it is. -/
abbrev Short (text : List Char) : Prop := byteLength text < UInt32.size

theorem Short.of_append (short : Short (text ++ more)) : Short text ∧ Short more := by
  rw [Short, byteLength_append] at short
  exact ⟨Nat.lt_of_le_of_lt (Nat.le_add_right _ _) short,
    Nat.lt_of_le_of_lt (Nat.le_add_left _ _) short⟩

/-- The bytes behind the last line feed. -/
def lineBytes (bs : List UInt8) : List UInt8 := bs.rtakeWhile (· ≠ lineFeed)

/-- The characters behind the last line feed. -/
def lineChars (text : List Char) : List Char := text.rtakeWhile (· ≠ '\n')

/-- No byte of a character is a line feed, unless the character is one. -/
theorem lineFeed_mem_utf8EncodeChar : lineFeed ∈ String.utf8EncodeChar c ↔ c = '\n' := by
  have code : c = '\n' ↔ c.val.toNat = 10 := by
    rw [← Char.toNat_inj]
    rfl
  have bound := c.val.toNat_lt
  rw [code, String.utf8EncodeChar, lineFeed]
  repeat' split
  all_goals
    simp only [List.mem_cons, List.not_mem_nil, or_false, ← UInt8.toNat_inj, UInt8.toNat_ofNat',
      UInt8.reduceToNat]
    omega

theorem bytes_append (text more : List Char) : bytes (text ++ more) = bytes text ++ bytes more :=
  List.flatMap_append

theorem take_bytes (before behind : List Char) :
    (bytes (before ++ behind)).take (byteLength before) = bytes before := by
  rw [bytes_append, ← length_bytes, List.take_left]

theorem bytes_cons (c : Char) (text : List Char) :
    bytes (c :: text) = String.utf8EncodeChar c ++ bytes text :=
  List.flatMap_cons

theorem bytes_singleton (c : Char) : bytes [c] = String.utf8EncodeChar c := by simp [bytes]

theorem ne_lineFeed (other : c ≠ '\n') : ∀ b ∈ String.utf8EncodeChar c, b ≠ lineFeed := by
  rintro _ member rfl
  exact other (lineFeed_mem_utf8EncodeChar.mp member)

theorem rdropWhile_append_of_pos {α : Type} {p : α → Bool} {xs ys : List α} (all : ∀ y ∈ ys, p y) :
    (xs ++ ys).rdropWhile p = xs.rdropWhile p := by
  rw [List.rdropWhile, List.reverse_append, List.dropWhile_append_of_pos (by simpa using all),
    List.rdropWhile]

/-- Bytes and characters agree on where the last line begins. -/
theorem rdropWhile_bytes (text : List Char) :
    (bytes text).rdropWhile (· ≠ lineFeed) = bytes (text.rdropWhile (· ≠ '\n')) := by
  induction text using List.reverseRecOn with
  | nil => rfl
  | append_singleton text c ih =>
    rw [bytes_append, bytes_singleton]
    by_cases feed : c = '\n'
    · obtain rfl := feed
      have byte : String.utf8EncodeChar '\n' = [lineFeed] := rfl
      rw [byte, List.rdropWhile_concat_neg _ _ _ (by simp),
        List.rdropWhile_concat_neg _ _ _ (by simp), bytes_append, bytes_singleton, byte]
    · rw [rdropWhile_append_of_pos (by simpa using ne_lineFeed feed),
        List.rdropWhile_concat_pos _ _ _ (by simpa using feed), ih]

theorem length_rdropWhile_add {α : Type} (p : α → Bool) (xs : List α) :
    (xs.rdropWhile p).length + (xs.rtakeWhile p).length = xs.length := by
  rw [← List.length_append, List.rdropWhile_append_rtakeWhile]

theorem count_bytes (text : List Char) : (bytes text).count lineFeed = text.count '\n' := by
  induction text with
  | nil => rfl
  | cons c text ih =>
    rw [bytes_cons, List.count_append, ih]
    by_cases feed : c = '\n'
    · obtain rfl := feed
      rw [List.count_cons_self, Nat.add_comm]
      rfl
    · have absent := List.count_eq_zero.mpr (lineFeed_mem_utf8EncodeChar.not.mpr feed)
      rw [List.count_cons_of_ne feed, absent, Nat.zero_add]

theorem byteLength_pos (nonempty : text ≠ []) : 0 < byteLength text := by
  cases text with
  | nil => contradiction
  | cons c text => exact Nat.add_pos_left c.utf8Size_pos _

theorem byteLength_replicate (n : Nat) (c : Char) :
    byteLength (.replicate n c) = n * c.utf8Size := by
  induction n with
  | zero => rw [Nat.zero_mul]; rfl
  | succ n ih => rw [List.replicate_succ, byteLength, ih, Nat.succ_mul, Nat.add_comm]

/-- Inside a character there is no boundary. -/
theorem not_isBoundary (inside : 0 < k) (short : k < c.utf8Size) :
    ¬ IsBoundary (before ++ c :: behind) (byteLength before + k) := by
  rintro ⟨first, later, whole, length⟩
  rcases List.append_eq_append_iff.mp whole with ⟨rest, rfl, _⟩ | ⟨rest, rfl, split⟩
  · rw [byteLength_append] at length
    omega
  · rw [byteLength_append] at length
    cases rest with
    | nil => simp [byteLength] at length; omega
    | cons d rest =>
      obtain ⟨rfl, _⟩ := List.cons.inj split
      rw [byteLength] at length
      omega

/-- Of two parts from the start of a text, the longer goes on from the shorter. -/
theorem exists_append_of_le (whole : before ++ behind = more ++ rest)
    (bound : byteLength before ≤ byteLength more) : ∃ part, more = before ++ part := by
  rcases List.append_eq_append_iff.mp whole with ⟨part, split, _⟩ | ⟨part, rfl, _⟩
  · exact ⟨part, split⟩
  · have nothing : part = [] := by
      by_contra nonempty
      have width := byteLength_pos nonempty
      rw [byteLength_append] at bound
      omega
    exact ⟨[], by rw [nothing, List.append_nil, List.append_nil]⟩

/-- What is cut out of a text is told by the text up to there. -/
theorem slice?_append {start stop : Nat} (within : stop ≤ byteLength text) (more : List Char) :
    slice? (text ++ more) start stop = slice? text start stop := by
  refine Option.ext fun inside => ?_
  rw [slice?_eq_some, slice?_eq_some]
  constructor
  · rintro ⟨before, behind, whole, first, rfl⟩
    obtain ⟨part, rfl⟩ := exists_append_of_le whole within
    exact ⟨before, part, rfl, first, rfl⟩
  · rintro ⟨before, behind, rfl, first, length⟩
    exact ⟨before, behind ++ more, (List.append_assoc _ _ _).symm, first, length⟩

end Text

namespace Position

variable {before behind more rest : List Char}

theorem advanceOver_append (p : Position) (text more : List Char) :
    p.advanceOver (text ++ more) = (p.advanceOver text).advanceOver more :=
  List.foldl_append

theorem advanceOver_concat (p : Position) (text : List Char) (c : Char) :
    p.advanceOver (text ++ [c]) = (p.advanceOver text).advance c :=
  advanceOver_append p text [c]

/-- Reading leads behind the line feeds, and behind the characters after the last of them. -/
theorem advanceOver_origin (text : List Char) :
    origin.advanceOver text = ⟨text.count '\n', (Text.lineChars text).length⟩ := by
  induction text using List.reverseRecOn with
  | nil => rfl
  | append_singleton text c ih =>
    rw [advanceOver_concat, ih, advance, Text.lineChars, Text.lineChars]
    by_cases feed : c = '\n'
    · simp [feed]
    · simp [feed]

/-- Reading more of a text leads further. -/
theorem advanceOver_lt_advanceOver (p : Position) (whole : before ++ behind = more ++ rest)
    (less : Text.byteLength before < Text.byteLength more) :
    p.advanceOver before < p.advanceOver more := by
  obtain ⟨part, rfl⟩ := Text.exists_append_of_le whole less.le
  rw [advanceOver_append]
  apply lt_advanceOver
  rintro rfl
  simp at less

end Position

end Yang
