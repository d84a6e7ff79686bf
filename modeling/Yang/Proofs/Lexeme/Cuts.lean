import Yang.Lexeme.OfText

/-! Where the pieces of a text end. A text is cut behind a word, the inside of a string or of a
comment just when it is put together of such a piece and a text that none goes on with. -/
namespace Yang.Lexeme

namespace Quoted

/-- What can stand in double quotes: a backslash always has its character with it, which is no line
feed. -/
inductive Body : List Char → Prop where
  | nil : Body []
  | plain (quote : c ≠ '"') (backslash : c ≠ '\\') (later : Body cs) : Body (c :: cs)
  | escape (feed : d ≠ '\n') (later : Body cs) : Body ('\\' :: d :: cs)

/-- The inside of a string in double quotes does not go on with the text. -/
def Stops : List Char → Prop
  | [] => True
  | c :: rest => c = '"' ∨ c = '\\' ∧ ∀ d ∈ rest.head?, d = '\n'

variable {c d : Char} {text inside outside : List Char}

theorem split_of_stops (stops : Stops text) : split text = ([], text) := by
  rcases text with _ | ⟨c, _ | ⟨d, rest⟩⟩
  · rfl
  · rcases stops with rfl | ⟨rfl, _⟩ <;> rfl
  · rcases stops with rfl | ⟨rfl, feed⟩
    · rfl
    · obtain rfl := feed d rfl
      rfl

theorem split_plain (quote : c ≠ '"') (backslash : c ≠ '\\') (text : List Char) :
    split (c :: text) = (c :: (split text).1, (split text).2) := by
  cases text <;> simp [split, quote, backslash]

theorem split_escape (feed : d ≠ '\n') (text : List Char) :
    split ('\\' :: d :: text) = ('\\' :: d :: (split text).1, (split text).2) := by
  simp [split, feed]

theorem split_append_of_body (body : Body inside) (stops : Stops outside) :
    split (inside ++ outside) = (inside, outside) := by
  induction body with
  | nil => exact split_of_stops stops
  | plain quote backslash later ih => rw [List.cons_append, split_plain quote backslash, ih]
  | escape feed later ih => rw [List.cons_append, List.cons_append, split_escape feed, ih]

theorem body_split (text : List Char) : Body (split text).1 ∧ Stops (split text).2 := by
  fun_induction split text with
  | case1 => exact ⟨.nil, trivial⟩
  | case2 c marked => exact ⟨.nil, marked.imp_right fun same => ⟨same, by simp⟩⟩
  | case3 c plain =>
    rw [not_or] at plain
    exact ⟨.plain plain.1 plain.2 .nil, trivial⟩
  | case4 d rest => exact ⟨.nil, .inl rfl⟩
  | case5 rest => exact ⟨.nil, .inr ⟨rfl, by simp⟩⟩
  | case6 d rest feed inside outside cut _ ih =>
    rw [cut] at ih
    exact ⟨.escape feed ih.1, ih.2⟩
  | case7 c d rest quote backslash inside outside cut ih =>
    rw [cut] at ih
    exact ⟨.plain quote backslash ih.1, ih.2⟩

/-- What is written for a value can stand in double quotes. -/
theorem body_encode (value : List Char) : Body (encode value) := by
  induction value with
  | nil => exact .nil
  | cons c value ih =>
    unfold encode
    split
    · rename_i marked
      refine .escape ?_ ih
      rintro rfl
      revert marked
      decide
    · rename_i plain
      rw [not_or] at plain
      exact .plain plain.1 plain.2 ih

end Quoted

/-- The characters of a word: plain ones, and slashes that have a character with them that can
follow one. -/
inductive Wordlike : List Char → Prop where
  | nil : Wordlike []
  | plain (first : isPlain c) (later : Wordlike w) : Wordlike (c :: w)
  | slash (second : isPlainAfterSlash d) (later : Wordlike w) : Wordlike ('/' :: d :: w)

/-- No word goes on with the text. -/
def StopsWord : List Char → Prop
  | [] => True
  | c :: rest => isPlain c = false ∧ (c = '/' → ∀ d ∈ rest.head?, isPlainAfterSlash d = false)

variable {c d : Char} {text inside outside : List Char}

theorem isPlain_of_isBlank (blank : isBlank c) : isPlain c = false := by simp [isPlain, blank]

theorem stopsWord_of_isBlank (blank : isBlank c) (text : List Char) : StopsWord (c :: text) := by
  refine ⟨isPlain_of_isBlank blank, ?_⟩
  rintro rfl
  contradiction

theorem splitWord_of_stops (stops : StopsWord text) : splitWord text = ([], text) := by
  rcases text with _ | ⟨c, _ | ⟨d, rest⟩⟩
  · rfl
  · simp [splitWord, stops.1]
  · have apart : ¬ (c = '/' ∧ isPlainAfterSlash d) := by
      rintro ⟨slash, second⟩
      cases second.symm.trans (stops.2 slash d rfl)
    simp [splitWord, stops.1, apart]

theorem splitWord_plain (first : isPlain c) (text : List Char) :
    splitWord (c :: text) = (c :: (splitWord text).1, (splitWord text).2) := by
  cases text <;> simp [splitWord, first]

theorem splitWord_slash (second : isPlainAfterSlash d) (text : List Char) :
    splitWord ('/' :: d :: text) = ('/' :: d :: (splitWord text).1, (splitWord text).2) := by
  have slash : isPlain '/' = false := rfl
  simp [splitWord, slash, second]

theorem splitWord_append_of_wordlike (word : Wordlike inside) (stops : StopsWord outside) :
    splitWord (inside ++ outside) = (inside, outside) := by
  induction word with
  | nil => exact splitWord_of_stops stops
  | plain first later ih => rw [List.cons_append, splitWord_plain first, ih]
  | slash second later ih => rw [List.cons_append, List.cons_append, splitWord_slash second, ih]

theorem wordlike_splitWord (text : List Char) :
    Wordlike (splitWord text).1 ∧ StopsWord (splitWord text).2 := by
  fun_induction splitWord text with
  | case1 => exact ⟨.nil, trivial⟩
  | case2 c first => exact ⟨.plain first .nil, trivial⟩
  | case3 c first => exact ⟨.nil, eq_false_of_ne_true first, by simp⟩
  | case4 c d rest first inside outside cut ih =>
    rw [cut] at ih
    exact ⟨.plain first ih.1, ih.2⟩
  | case5 c d rest first slash inside outside cut ih =>
    rw [cut] at ih
    obtain ⟨rfl, second⟩ := slash
    exact ⟨.slash second ih.1, ih.2⟩
  | case6 c d rest first apart =>
    refine ⟨.nil, eq_false_of_ne_true first, ?_⟩
    simpa using apart

theorem splitQuote?_eq_some : splitQuote? text = some (inside, outside) ↔
    inside ++ '\'' :: outside = text ∧ '\'' ∉ inside := by
  constructor
  · intro cut
    refine ⟨splitQuote?_append cut, ?_⟩
    fun_induction splitQuote? text generalizing inside with
    | case1 => contradiction
    | case2 rest =>
      cases cut
      simp
    | case3 c rest other ih =>
      obtain ⟨⟨later, _⟩, found, same⟩ := Option.map_eq_some_iff.mp cut
      obtain ⟨rfl, rfl⟩ := Prod.mk.inj same
      rw [List.mem_cons, not_or]
      exact ⟨Ne.symm other, ih found⟩
  · rintro ⟨rfl, unquoted⟩
    induction inside with
    | nil => simp [splitQuote?]
    | cons c inside ih =>
      rw [List.mem_cons, not_or] at unquoted
      simp [splitQuote?, Ne.symm unquoted.1, ih unquoted.2]

theorem splitQuote?_eq_none : splitQuote? text = none ↔ '\'' ∉ text := by
  fun_induction splitQuote? text with
  | case1 => simp
  | case2 rest => simp
  | case3 c rest other ih => simp [ih, Ne.symm other]

/-- The inside of a comment: its end is nowhere in it. -/
def Unclosed (text : List Char) : Prop := ¬ ['*', '/'] <:+: text

theorem unclosed_of_not_mem (absent : '*' ∉ text) : Unclosed text :=
  fun closed => absent (closed.subset List.mem_cons_self)

theorem Unclosed.tail (unclosed : Unclosed (c :: text)) : Unclosed text :=
  fun closed => unclosed (closed.trans (List.suffix_cons c text).isInfix)

theorem not_closes_of_unclosed (unclosed : Unclosed (c :: d :: text)) : ¬ (c = '*' ∧ d = '/') := by
  rintro ⟨rfl, rfl⟩
  exact unclosed ⟨[], text, rfl⟩

theorem unclosed_cons (first : ¬ (c = '*' ∧ text.head? = some '/')) (later : Unclosed text) :
    Unclosed (c :: text) := by
  rintro ⟨before, behind, split⟩
  cases before with
  | nil =>
    obtain ⟨rfl, rfl⟩ := List.cons.inj split
    exact first ⟨rfl, rfl⟩
  | cons _ before => exact later ⟨before, behind, (List.cons.inj split).2⟩

theorem splitComment?_eq_some : splitComment? text = some (inside, outside) ↔
    inside ++ '*' :: '/' :: outside = text ∧ Unclosed inside := by
  constructor
  · intro cut
    refine ⟨splitComment?_append cut, ?_⟩
    fun_induction splitComment? text generalizing inside with
    | case1 => contradiction
    | case2 => contradiction
    | case3 c d rest closed =>
      cases cut
      simp [Unclosed]
    | case4 c d rest apart ih =>
      obtain ⟨⟨later, _⟩, found, same⟩ := Option.map_eq_some_iff.mp cut
      obtain ⟨rfl, rfl⟩ := Prod.mk.inj same
      refine unclosed_cons ?_ (ih found)
      rintro ⟨rfl, slash⟩
      -- The character behind is the next one of the text.
      have whole := splitComment?_append found
      cases later with
      | nil => contradiction
      | cons e later =>
        cases slash
        exact apart ⟨rfl, (List.cons.inj whole).1.symm⟩
  · rintro ⟨rfl, unclosed⟩
    induction inside with
    | nil => rfl
    | cons c inside ih =>
      have later := ih unclosed.tail
      cases inside with
      | nil =>
        have apart : ¬ (c = '*' ∧ '*' = '/') := by simp
        rw [List.singleton_append, splitComment?, if_neg apart]
        rw [List.nil_append] at later
        rw [later]
        rfl
      | cons d inside =>
        rw [List.cons_append, List.cons_append, splitComment?,
          if_neg (not_closes_of_unclosed unclosed)]
        rw [List.cons_append] at later
        rw [later]
        rfl

theorem splitComment?_eq_none : splitComment? text = none ↔ Unclosed text := by
  fun_induction splitComment? text with
  | case1 => simp [Unclosed]
  | case2 c =>
    refine iff_of_true rfl ?_
    intro closed
    exact absurd closed.length_le (by simp)
  | case3 c d rest closed =>
    refine iff_of_false (by simp) ?_
    intro unclosed
    exact not_closes_of_unclosed unclosed closed
  | case4 c d rest apart ih =>
    rw [Option.map_eq_none_iff, ih]
    exact ⟨unclosed_cons (by simpa using apart), Unclosed.tail⟩

end Yang.Lexeme
