import Yang.Source.Position
import Yang.Source.Text

/-! From byte offsets to positions by a table of the offsets at which lines begin. The line of an
offset is found by halving the table, and its column by counting the characters from there. Each
look-up and each subtraction can fail, and so could the position of an offset. -/
namespace Yang

open Text (byteLength bytes slice?)

/-- The byte of a line feed. -/
def Text.lineFeed : UInt8 := 10

structure LineIndex where
  text : List Char
  lineStarts : Array TextSize

namespace LineIndex

open Text (lineFeed)

/-- The offsets behind the line feeds among bytes, of which the first stands at `offset`. -/
def startsFrom (offset : Nat) : List UInt8 → List TextSize
  | [] => []
  | b :: more =>
    let later := startsFrom (offset + 1) more
    if b = lineFeed then (.ofNat offset + 1) :: later else later

def ofText (text : List Char) : LineIndex := ⟨text, (0 :: startsFrom 0 (bytes text)).toArray⟩

def lineCount (index : LineIndex) : Nat := index.lineStarts.size

/-- Looks for an offset among sorted ones from `low` up to `high`: the index at which it stands, or
else that at which it could be put in. -/
def search (starts : Array TextSize) (offset : TextSize) (low high : Nat)
    (bound : high ≤ starts.size) : Except Nat Nat :=
  if _ : low < high then
    let middle := (low + high) / 2
    have inside : middle < starts.size := by omega
    match compare starts[middle] offset with
    | .eq => .ok middle
    | .lt => search starts offset (middle + 1) high bound
    | .gt => search starts offset low middle (by omega)
  else .error low
termination_by high - low

/-- The difference of two numbers, unless it would be negative. -/
def minus? (a b : Nat) : Option Nat := if b ≤ a then some (a - b) else none

def line? (index : LineIndex) (offset : TextSize) : Option Nat :=
  match search index.lineStarts offset 0 index.lineStarts.size (Nat.le_refl _) with
  | .ok line => some line
  | .error next => minus? next 1

/-- The position of an offset; one beyond the text is taken for its end. Where no character begins,
the column is the distance in bytes from the line start. -/
def position? (index : LineIndex) (offset : TextSize) : Option Position := do
  let line ← index.line? offset
  let start ← index.lineStarts[line]?
  let stop := min offset.toNat (byteLength index.text)
  let distance ← minus? stop start.toNat
  return ⟨line, (slice? index.text start.toNat stop).elim distance (·.length)⟩

/-- The position of an offset in an index of a text, where none fails. -/
def position (index : LineIndex) (offset : TextSize) : Position :=
  (index.position? offset).getD .origin

def span (index : LineIndex) (range : TextRange) : Span :=
  ⟨index.position range.start, index.position range.stop⟩

end LineIndex

end Yang
