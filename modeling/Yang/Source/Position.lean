/-! Places in a source text. Lines and columns count from zero, columns in characters; they are
shown counting from one. Positions are ordered line first, and a span runs from one position to
another. -/
namespace Yang

structure Position where
  line : Nat
  column : Nat
deriving DecidableEq

namespace Position

def origin : Position := ⟨0, 0⟩

instance : Ord Position where
  compare p q := (compare p.line q.line).then (compare p.column q.column)

instance : LE Position where
  le p q := p.line < q.line ∨ p.line = q.line ∧ p.column ≤ q.column

instance : LT Position where
  lt p q := p.line < q.line ∨ p.line = q.line ∧ p.column < q.column

theorem le_iff {p q : Position} :
    p ≤ q ↔ p.line < q.line ∨ p.line = q.line ∧ p.column ≤ q.column := Iff.rfl

theorem lt_iff {p q : Position} :
    p < q ↔ p.line < q.line ∨ p.line = q.line ∧ p.column < q.column := Iff.rfl

theorem compare_eq_lt {p q : Position} : compare p q = .lt ↔ p < q := by
  change (compare p.line q.line).then (compare p.column q.column) = .lt ↔ _
  rw [Ordering.then_eq_lt, Nat.compare_eq_lt, Nat.compare_eq_eq, Nat.compare_eq_lt, lt_iff]

theorem compare_eq_eq {p q : Position} : compare p q = .eq ↔ p = q := by
  change (compare p.line q.line).then (compare p.column q.column) = .eq ↔ _
  rw [Ordering.then_eq_eq, Nat.compare_eq_eq, Nat.compare_eq_eq]
  cases p; cases q; simp

instance (p q : Position) : Decidable (p ≤ q) := decidable_of_iff _ le_iff.symm

instance (p q : Position) : Decidable (p < q) := decidable_of_iff _ lt_iff.symm

instance : Min Position where
  min p q := if p ≤ q then p else q

instance : Max Position where
  max p q := if p ≤ q then q else p

/-- Where the text goes on after a character: a line feed starts a line, any other character takes a
column. -/
def advance (p : Position) (c : Char) : Position :=
  if c = '\n' then ⟨p.line + 1, 0⟩ else ⟨p.line, p.column + 1⟩

def advanceOver (p : Position) (text : List Char) : Position := text.foldl advance p

instance : ToString Position where
  toString p := s!"{p.line + 1}:{p.column + 1}"

end Position

structure Span where
  start : Position
  stop : Position
deriving DecidableEq

namespace Span

def empty (p : Position) : Span := ⟨p, p⟩

def cover (a b : Span) : Span := ⟨min a.start b.start, max a.stop b.stop⟩

/-- A span is shown by where it starts. -/
instance : ToString Span where
  toString s := toString s.start

end Span

/-- A range of bytes in a text's UTF-8 encoding. -/
structure ByteRange where
  start : Nat
  stop : Nat
deriving DecidableEq

def ByteRange.empty (offset : Nat) : ByteRange := ⟨offset, offset⟩

/-- A byte offset as it is kept. It has 32 bits, so one from `2 ^ 32` on is kept wrapped round. -/
abbrev TextSize := UInt32

/-- A range of offsets as they are kept. -/
structure TextRange where
  start : TextSize
  stop : TextSize
deriving DecidableEq

/-- What is kept of a range of bytes. -/
def ByteRange.kept (r : ByteRange) : TextRange := ⟨.ofNat r.start, .ofNat r.stop⟩

/-- The bytes that a range names. -/
def TextRange.bytes (r : TextRange) : ByteRange := ⟨r.start.toNat, r.stop.toNat⟩

/-- A range of offsets that have 32 bits is kept as it is. -/
theorem ByteRange.bytes_kept {r : ByteRange} (start : r.start < UInt32.size)
    (stop : r.stop < UInt32.size) : r.kept.bytes = r := by
  simp only [kept, TextRange.bytes, UInt32.toNat_ofNat_of_lt' start, UInt32.toNat_ofNat_of_lt' stop]

end Yang
