import Yang.Lexeme.Basic

/-! Cutting a text into lexemes, each as long as it can be. The main statement is that nothing is
lost: the lexemes of a text, put together, are the text. -/
namespace Yang.Lexeme

/-- Cuts a text behind the longest word it begins with. A slash belongs to the word if a character
that can follow it does. -/
def splitWord : List Char → List Char × List Char
  | [] => ([], [])
  | [c] => if isPlain c then ([c], []) else ([], [c])
  | c :: d :: rest =>
    if isPlain c then
      let (inside, outside) := splitWord (d :: rest)
      (c :: inside, outside)
    else if c = '/' ∧ isPlainAfterSlash d then
      let (inside, outside) := splitWord rest
      (c :: d :: inside, outside)
    else ([], c :: d :: rest)

/-- Cuts a text at the first single quote, which is in neither part. -/
def splitQuote? : List Char → Option (List Char × List Char)
  | [] => none
  | c :: rest =>
    if c = '\'' then some ([], rest)
    else (splitQuote? rest).map fun (inside, outside) => (c :: inside, outside)

/-- Cuts a text at the first `*/`, which is in neither part. -/
def splitComment? : List Char → Option (List Char × List Char)
  | [] => none
  | [_] => none
  | c :: d :: rest =>
    if c = '*' ∧ d = '/' then some ([], rest)
    else (splitComment? (d :: rest)).map fun (inside, outside) => (c :: inside, outside)

def ofWord (chars : List Char) : Lexeme := if chars = ['+'] then plus else word chars

/-- The word at the start of a text; a slash that can be part of none is a word by itself. -/
def scanWord (c : Char) (rest : List Char) : Lexeme × List Char :=
  match splitWord (c :: rest) with
  | ([], _) => (word [c], rest)
  | (w, behind) => (ofWord w, behind)

/-- The lexeme at the start of a text that opens with `c`, and the text behind it. -/
def scan (c : Char) (rest : List Char) : Lexeme × List Char :=
  if isBlank c then (blank (c :: rest.takeWhile isBlank), rest.dropWhile isBlank)
  else if c = ';' then (semicolon, rest)
  else if c = '\x7b' then (leftBrace, rest)
  else if c = '\x7d' then (rightBrace, rest)
  else if c = '"' then
    match Quoted.split rest with
    | (inside, '"' :: behind) => (doubleQuoted inside, behind)
    | (inside, behind) => (invalid (c :: inside), behind)
  else if c = '\'' then
    match splitQuote? rest with
    | some (inside, behind) => (singleQuoted inside, behind)
    | none => (invalid (c :: rest), [])
  else if c = '/' ∧ rest.head? = some '/' then
    (lineComment (rest.tail.takeWhile (· ≠ '\n')), rest.tail.dropWhile (· ≠ '\n'))
  else if c = '/' ∧ rest.head? = some '*' then
    match splitComment? rest.tail with
    | some (inside, behind) => (blockComment inside, behind)
    | none => (invalid (c :: rest), [])
  else scanWord c rest

theorem splitWord_append (text : List Char) : (splitWord text).1 ++ (splitWord text).2 = text := by
  fun_induction splitWord text <;> simp_all

theorem splitQuote?_append {text inside outside : List Char}
    (cut : splitQuote? text = some (inside, outside)) : inside ++ '\'' :: outside = text := by
  fun_induction splitQuote? text generalizing inside with
  | case1 => simp at cut
  | case2 => simp_all
  | case3 c rest _ ih =>
    obtain ⟨⟨later, _⟩, found, same⟩ := Option.map_eq_some_iff.mp cut
    obtain ⟨rfl, rfl⟩ := Prod.mk.inj same
    simpa using ih found

theorem splitComment?_append {text inside outside : List Char}
    (cut : splitComment? text = some (inside, outside)) :
    inside ++ '*' :: '/' :: outside = text := by
  fun_induction splitComment? text generalizing inside with
  | case1 => simp at cut
  | case2 => simp at cut
  | case3 c d rest closed => simp_all
  | case4 c d rest open? ih =>
    obtain ⟨⟨later, _⟩, found, same⟩ := Option.map_eq_some_iff.mp cut
    obtain ⟨rfl, rfl⟩ := Prod.mk.inj same
    simpa using ih found

theorem source_ofWord (chars : List Char) : (ofWord chars).source = chars := by
  unfold ofWord
  split
  · simp_all [source]
  · rfl

theorem scanWord_source (c : Char) (rest : List Char) :
    (scanWord c rest).1.source ++ (scanWord c rest).2 = c :: rest := by
  have whole := splitWord_append (c :: rest)
  unfold scanWord
  split
  · rfl
  · simp_all [source_ofWord]

theorem scanWord_source_ne_nil (c : Char) (rest : List Char) : (scanWord c rest).1.source ≠ [] := by
  unfold scanWord
  split
  · simp [source]
  · rename_i found _
    rw [source_ofWord]
    exact found

theorem scan_source (c : Char) (rest : List Char) :
    (scan c rest).1.source ++ (scan c rest).2 = c :: rest := by
  unfold scan
  split
  · simp [source]
  split
  · simp_all [source]
  split
  · simp_all [source]
  split
  · simp_all [source]
  split
  · have whole := Quoted.split_append rest
    split <;> simp_all [source]
  split
  · split
    · rename_i cut
      have whole := splitQuote?_append cut
      simp_all [source]
    · simp [source]
  split
  · obtain _ | ⟨d, rest⟩ := rest <;> simp_all [source]
  split
  · obtain _ | ⟨d, rest⟩ := rest
    · simp_all
    · split
      · rename_i cut
        have whole := splitComment?_append cut
        simp_all [source]
      · simp [source]
  · exact scanWord_source c rest

theorem scan_source_ne_nil (c : Char) (rest : List Char) : (scan c rest).1.source ≠ [] := by
  unfold scan
  repeat' split
  all_goals first
    | exact scanWord_source_ne_nil c rest
    | simp [source]

theorem scan_shorter (c : Char) (rest : List Char) :
    (scan c rest).2.length < (c :: rest).length := by
  have whole := congrArg List.length (scan_source c rest)
  have nonempty := List.length_pos_iff.mpr (scan_source_ne_nil c rest)
  rw [List.length_append] at whole
  omega

def ofText : List Char → List Lexeme
  | [] => []
  | c :: rest => (scan c rest).1 :: ofText (scan c rest).2
termination_by text => text.length
decreasing_by exact scan_shorter c rest

theorem flatMap_source_ofText (text : List Char) : (ofText text).flatMap source = text := by
  fun_induction ofText text with
  | case1 => rfl
  | case2 c rest ih => rw [List.flatMap_cons, ih, scan_source]

end Yang.Lexeme
