/-! The inside of a string in double quotes. A backslash before `n`, `t`, a double quote or a
backslash stands with it for one character; before any other character it stands for itself. -/
namespace Yang.Lexeme.Quoted

/-- The character that a backslash and `c` stand for together. -/
def escape? (c : Char) : Option Char :=
  if c = 'n' then some '\n'
  else if c = 't' then some '\t'
  else if c = '"' then some '"'
  else if c = '\\' then some '\\'
  else none

/-- The value that the inside of a quoted string denotes. -/
def decode : List Char → List Char
  | [] => []
  | [c] => [c]
  | c :: d :: rest =>
    if c = '\\' then
      match escape? d with
      | some e => e :: decode rest
      | none => c :: d :: decode rest
    else c :: decode (d :: rest)

/-- Writes a value so that it can stand in double quotes, line breaks and tabs as they are. -/
def encode : List Char → List Char
  | [] => []
  | c :: rest => if c = '"' ∨ c = '\\' then '\\' :: c :: encode rest else c :: encode rest

/-- Cuts a text where the inside of a quoted string can go no further: before a double quote, before
a backslash that a line feed follows, before a backslash at the end, or at the end. -/
def split : List Char → List Char × List Char
  | [] => ([], [])
  | [c] => if c = '"' ∨ c = '\\' then ([], [c]) else ([c], [])
  | c :: d :: rest =>
    if c = '"' then ([], c :: d :: rest)
    else if c = '\\' then
      if d = '\n' then ([], c :: d :: rest)
      else
        let (inside, outside) := split rest
        (c :: d :: inside, outside)
    else
      let (inside, outside) := split (d :: rest)
      (c :: inside, outside)

theorem split_append (text : List Char) : (split text).1 ++ (split text).2 = text := by
  fun_induction split text <;> simp_all

theorem decode_cons {c : Char} (plain : c ≠ '\\') (rest : List Char) :
    decode (c :: rest) = c :: decode rest := by
  cases rest <;> simp [decode, plain]

/-- Every value can be written, and reads back. -/
theorem decode_encode (value : List Char) : decode (encode value) = value := by
  induction value with
  | nil => rfl
  | cons c rest ih =>
    by_cases marked : c = '"' ∨ c = '\\'
    · obtain rfl | rfl := marked <;> simp [encode, decode, escape?, ih]
    · simp only [encode, if_neg marked]
      rw [decode_cons (fun same => marked (Or.inr same)), ih]

end Yang.Lexeme.Quoted
