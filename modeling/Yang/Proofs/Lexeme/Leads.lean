import Yang.Proofs.Lexeme.Cuts

/-! What a text begins with. A lexeme leads a text if it is whole and the text behind it does not
make it longer; then it is the one that is cut off. Blanks alone may have more of their kind behind
them. -/
namespace Yang.Lexeme

/-- The lexeme stands in front of a text, and does not go on with it. -/
def Leads : Lexeme → List Char → Prop
  | blank chars, _ => chars ≠ [] ∧ ∀ c ∈ chars, isBlank c
  | lineComment chars, rest => '\n' ∉ chars ∧ ∀ c ∈ rest.head?, c = '\n'
  | blockComment chars, _ => Unclosed chars
  | plus, rest => StopsWord rest
  | word chars, rest =>
    chars = ['/'] ∧ (∀ c ∈ rest.head?, isBlank c ∨ isMark c) ∨
      chars ≠ [] ∧ chars ≠ ['+'] ∧ Wordlike chars ∧ StopsWord rest
  | doubleQuoted chars, _ => Quoted.Body chars
  | singleQuoted chars, _ => '\'' ∉ chars
  | invalid chars, rest =>
    (∃ run, chars = '"' :: run ∧ Quoted.Body run ∧ Quoted.Stops rest ∧ rest.head? ≠ some '"') ∨
      rest = [] ∧ ((∃ run, chars = '\'' :: run ∧ '\'' ∉ run) ∨ ∃ run,
        chars = '/' :: '*' :: run ∧ Unclosed run)
  | semicolon, _ | leftBrace, _ | rightBrace, _ => True

def isGap : Lexeme → Bool
  | blank _ => true
  | _ => false

variable {c d : Char} {text rest inside outside chars : List Char} {l : Lexeme}

/-- A character that is neither blank nor a mark, and opens no comment, begins a word. -/
theorem scan_of_word (blank : isBlank c = false) (mark : isMark c = false)
    (comment : c = '/' → rest.head? ≠ some '/' ∧ rest.head? ≠ some '*') :
    scan c rest = scanWord c rest := by
  simp only [isMark, Bool.or_eq_false_iff, decide_eq_false_iff_not] at mark
  obtain ⟨⟨⟨⟨semicolon, left⟩, right⟩, double⟩, single⟩ := mark
  have line : ¬ (c = '/' ∧ rest.head? = some '/') := fun ⟨slash, next⟩ => (comment slash).1 next
  have block : ¬ (c = '/' ∧ rest.head? = some '*') := fun ⟨slash, next⟩ => (comment slash).2 next
  simp [scan, blank, semicolon, left, right, double, single, line, block]

theorem isPlain_iff : isPlain c ↔ isBlank c = false ∧ isMark c = false ∧ c ≠ '/' := by
  simp [isPlain, and_assoc]

theorem isPlainAfterSlash_iff : isPlainAfterSlash c ↔ isPlain c ∧ c ≠ '*' := by
  simp [isPlainAfterSlash]

theorem scanWord_of_wordlike (nonempty : chars ≠ []) (body : Wordlike chars)
    (stops : StopsWord rest) (whole : chars ++ rest = c :: text) :
    scanWord c text = (ofWord chars, rest) := by
  have cut := splitWord_append_of_wordlike body stops
  rw [whole] at cut
  unfold scanWord
  rw [cut]
  cases chars with
  | nil => contradiction
  | cons first later => rfl

/-- Where a word begins, no other lexeme does. -/
theorem scan_of_wordlike (nonempty : chars ≠ []) (body : Wordlike chars) (stops : StopsWord rest)
    (whole : chars ++ rest = c :: text) : scan c text = (ofWord chars, rest) := by
  rw [← scanWord_of_wordlike nonempty body stops whole]
  cases body with
  | nil => contradiction
  | plain first later =>
    obtain ⟨rfl, rfl⟩ := List.cons.inj whole
    obtain ⟨blank, mark, slash⟩ := isPlain_iff.mp first
    exact scan_of_word blank mark fun same => absurd same slash
  | slash second later =>
    obtain ⟨rfl, rfl⟩ := List.cons.inj whole
    obtain ⟨plain, star⟩ := isPlainAfterSlash_iff.mp second
    refine scan_of_word rfl rfl fun _ => ⟨?_, ?_⟩
    · intro next
      exact (isPlain_iff.mp plain).2.2 (Option.some.inj next)
    · intro next
      exact star (Option.some.inj next)

theorem scan_slash (apart : ∀ c ∈ rest.head?, isBlank c ∨ isMark c) :
    scan '/' rest = (word ['/'], rest) := by
  have stops : StopsWord ('/' :: rest) := by
    refine ⟨rfl, fun _ d next => ?_⟩
    rcases apart d next with blank | mark
    · simp [isPlainAfterSlash, isPlain, blank]
    · simp [isPlainAfterSlash, isPlain, mark]
  rw [scan_of_word rfl rfl, scanWord, splitWord_of_stops stops]
  intro _
  constructor
  · intro next
    exact absurd (apart _ next) (by decide)
  · intro next
    exact absurd (apart _ next) (by decide)

theorem scan_double (text : List Char) : scan '"' text =
    match Quoted.split text with
    | (inside, '"' :: behind) => (doubleQuoted inside, behind)
    | (inside, behind) => (invalid ('"' :: inside), behind) := rfl

theorem scan_single (text : List Char) : scan '\'' text =
    match splitQuote? text with
    | some (inside, behind) => (singleQuoted inside, behind)
    | none => (invalid ('\'' :: text), []) := rfl

theorem scan_line (text : List Char) : scan '/' ('/' :: text) =
    (lineComment (text.takeWhile (· ≠ '\n')), text.dropWhile (· ≠ '\n')) := rfl

theorem scan_block (text : List Char) : scan '/' ('*' :: text) =
    match splitComment? text with
    | some (inside, behind) => (blockComment inside, behind)
    | none => (invalid ('/' :: '*' :: text), []) := rfl

/-- What leads a text is what is cut off it. -/
theorem scan_of_leads (leads : l.Leads rest) (solid : l.isGap = false)
    (whole : l.source ++ rest = c :: text) :
    scan c text = (l, rest) := by
  cases l with
  | blank chars => contradiction
  | lineComment chars =>
    obtain ⟨rfl, rfl⟩ : '/' = c ∧ '/' :: (chars ++ rest) = text := by simpa [source] using whole
    obtain ⟨inside, stops⟩ := leads
    have before : ∀ c ∈ chars, decide (c ≠ '\n') := by
      intro c member
      exact decide_eq_true fun same => inside (same ▸ member)
    rw [scan_line, List.takeWhile_append_of_pos before, List.dropWhile_append_of_pos before]
    cases rest with
    | nil => simp
    | cons d rest =>
      obtain rfl := stops d rfl
      simp
  | blockComment chars =>
    obtain ⟨rfl, rfl⟩ : '/' = c ∧ '*' :: (chars ++ '*' :: '/' :: rest) = text := by
      simpa [source] using whole
    rw [scan_block, splitComment?_eq_some.mpr ⟨rfl, leads⟩]
  | semicolon =>
    obtain ⟨rfl, rfl⟩ := List.cons.inj whole
    rfl
  | leftBrace =>
    obtain ⟨rfl, rfl⟩ := List.cons.inj whole
    rfl
  | rightBrace =>
    obtain ⟨rfl, rfl⟩ := List.cons.inj whole
    rfl
  | plus => exact scan_of_wordlike (by simp) (.plain rfl .nil) leads whole
  | word chars =>
    rcases leads with ⟨rfl, apart⟩ | ⟨nonempty, other, body, stops⟩
    · obtain ⟨rfl, rfl⟩ := List.cons.inj whole
      exact scan_slash apart
    · rw [scan_of_wordlike nonempty body stops whole, ofWord, if_neg other]
  | doubleQuoted chars =>
    obtain ⟨rfl, rfl⟩ : '"' = c ∧ chars ++ '"' :: rest = text := by simpa [source] using whole
    have stops : Quoted.Stops ('"' :: rest) := .inl rfl
    rw [scan_double, Quoted.split_append_of_body leads stops]
    rfl
  | singleQuoted chars =>
    obtain ⟨rfl, rfl⟩ : '\'' = c ∧ chars ++ '\'' :: rest = text := by simpa [source] using whole
    rw [scan_single, splitQuote?_eq_some.mpr ⟨rfl, leads⟩]
  | invalid chars =>
    rcases leads with ⟨run, rfl, body, stops, open_⟩ |
      ⟨rfl, ⟨run, rfl, unquoted⟩ | ⟨run, rfl, unclosed⟩⟩
    · obtain ⟨rfl, rfl⟩ : '"' = c ∧ run ++ rest = text := by simpa [source] using whole
      rw [scan_double, Quoted.split_append_of_body body stops]
      split
      · rename_i same
        cases same
        contradiction
      · rename_i same
        cases same
        rfl
    · obtain ⟨rfl, rfl⟩ : '\'' = c ∧ run = text := by simpa [source] using whole
      rw [scan_single, splitQuote?_eq_none.mpr unquoted]
    · obtain ⟨rfl, rfl⟩ : '/' = c ∧ '*' :: run = text := by simpa [source] using whole
      rw [scan_block, splitComment?_eq_none.mpr unclosed]

theorem Leads.source_ne_nil (leads : l.Leads rest) : l.source ≠ [] := by
  cases l with
  | blank chars => exact leads.1
  | word chars =>
    rcases leads with ⟨rfl, _⟩ | ⟨nonempty, _⟩
    · simp [source]
    · exact nonempty
  | invalid chars => rcases leads with ⟨_, rfl, _⟩ | ⟨_, ⟨_, rfl, _⟩ | ⟨_, rfl, _⟩⟩ <;>
    simp [source]
  | _ => simp [source]

theorem head?_dropWhile_ne {p : Char → Bool} (text : List Char) :
    ∀ c ∈ (text.dropWhile p).head?, p c = false := by
  intro c member
  have := List.head?_dropWhile_not p text
  rw [member] at this
  simpa using this

theorem leads_ofWord (nonempty : chars ≠ []) (body : Wordlike chars) (stops : StopsWord rest) :
    (ofWord chars).Leads rest := by
  unfold ofWord
  split
  · exact stops
  · exact .inr ⟨nonempty, ‹_›, body, stops⟩

theorem leads_scanWord (blank : isBlank c = false) (mark : isMark c = false)
    (comment : c = '/' → rest.head? ≠ some '/' ∧ rest.head? ≠ some '*') :
    (scanWord c rest).1.Leads (scanWord c rest).2 := by
  obtain ⟨body, stops⟩ := wordlike_splitWord (c :: rest)
  unfold scanWord
  split
  · rename_i behind cut
    -- Only a slash begins no longer word.
    have whole := splitWord_append (c :: rest)
    rw [cut] at whole stops
    obtain rfl : behind = c :: rest := whole
    obtain rfl : c = '/' := by simpa [isPlain, blank, mark] using stops.1
    obtain ⟨line, block⟩ := comment rfl
    refine .inl ⟨rfl, fun d next => ?_⟩
    have apart := stops.2 rfl d next
    have slash : d ≠ '/' := by
      rintro rfl
      exact line next
    have star : d ≠ '*' := by
      rintro rfl
      exact block next
    cases blank : isBlank d with
    | true => exact .inl rfl
    | false =>
      refine .inr ?_
      simpa [isPlainAfterSlash, isPlain, blank, slash, star] using apart
  · rename_i w behind nonempty cut
    rw [cut] at body stops
    exact leads_ofWord nonempty body stops

/-- What is cut off a text leads it. -/
theorem leads_scan (c : Char) (rest : List Char) : (scan c rest).1.Leads (scan c rest).2 := by
  unfold scan
  split
  · rename_i blank
    refine ⟨by simp, fun d member => ?_⟩
    rcases List.mem_cons.mp member with rfl | later
    · exact blank
    · exact List.all_eq_true.mp List.all_takeWhile d later
  rename_i blank
  split
  · trivial
  rename_i semicolon
  split
  · trivial
  rename_i left
  split
  · trivial
  rename_i right
  split
  · rename_i double
    obtain ⟨body, stops⟩ := Quoted.body_split rest
    split
    · rename_i cut
      rw [cut] at body
      exact body
    · rename_i inside behind apart cut
      rw [cut] at body stops
      refine .inl ⟨inside, by rw [double], body, stops, ?_⟩
      cases behind with
      | nil => simp
      | cons d behind =>
        intro next
        cases next
        exact apart behind rfl
  rename_i double
  split
  · rename_i single
    split
    · rename_i cut
      exact (splitQuote?_eq_some.mp cut).2
    · rename_i cut
      exact .inr ⟨rfl, .inl ⟨rest, by rw [single], splitQuote?_eq_none.mp cut⟩⟩
  rename_i single
  split
  · refine ⟨?_, ?_⟩
    · intro member
      simpa using List.all_eq_true.mp List.all_takeWhile _ member
    · intro d next
      simpa using head?_dropWhile_ne _ d next
  rename_i line
  split
  · rename_i block
    split
    · rename_i cut
      exact (splitComment?_eq_some.mp cut).2
    · rename_i cut
      obtain ⟨rfl, star⟩ := block
      obtain ⟨run, rfl⟩ := List.head?_eq_some_iff.mp star
      exact .inr ⟨rfl, .inr ⟨run, rfl, splitComment?_eq_none.mp cut⟩⟩
  · rename_i block
    have mark : isMark c = false := by simp [isMark, semicolon, left, right, double, single]
    exact leads_scanWord (eq_false_of_ne_true blank) mark fun slash =>
      ⟨fun next => line ⟨slash, next⟩, fun next => block ⟨slash, next⟩⟩

/-- Lexemes stand one behind the other in front of a text, each leading what is behind it. -/
def LeadAll : List Lexeme → List Char → Prop
  | [], _ => True
  | l :: later, rest => l.Leads (later.flatMap source ++ rest) ∧ LeadAll later rest

theorem leadAll_append {before later : List Lexeme} :
    LeadAll (before ++ later) rest ↔ LeadAll before (later.flatMap source ++ rest) ∧
      LeadAll later rest := by
  induction before with
  | nil => simp [LeadAll]
  | cons l before ih => simp [LeadAll, ih, and_assoc]

theorem LeadAll.exists_leads {ls : List Lexeme} (lead : LeadAll ls rest) :
    ∀ l ∈ ls, ∃ behind, l.Leads behind := by
  induction ls with
  | nil => simp
  | cons l later ih => exact List.forall_mem_cons.mpr ⟨⟨_, lead.1⟩, ih lead.2⟩

theorem LeadAll.eq_nil {ls : List Lexeme} (lead : LeadAll ls rest)
    (empty : ls.flatMap source = []) : ls = [] := by
  cases ls with
  | nil => rfl
  | cons l later =>
    rw [List.flatMap_cons, List.append_eq_nil_iff] at empty
    exact absurd empty.1 lead.1.source_ne_nil

theorem leadAll_ofText (text : List Char) : LeadAll (ofText text) [] := by
  fun_induction ofText text with
  | case1 => trivial
  | case2 c rest ih =>
    refine ⟨?_, ih⟩
    rw [flatMap_source_ofText, List.append_nil]
    exact leads_scan c rest

end Yang.Lexeme
