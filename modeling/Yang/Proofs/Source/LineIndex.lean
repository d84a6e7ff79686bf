import Yang.Proofs.Source.Lines

/-! The table of line starts gives every offset in a text of fewer than `2 ^ 32` bytes the position
to which the characters before it lead. In any table that begins with zero the search comes to a
line that starts up to the offset, so no look-up fails; in one that rises it is the last such line.
What the characters are comes in only with the column. -/
namespace Yang

namespace LineIndex

open Text

variable {starts : Array TextSize} {offset start : TextSize} {low high line n : Nat}
  {bs : List UInt8} {text more : List Char}

/-- A line of a table that starts at an offset, or before it and is the last one to do so as far as
the next line tells. -/
def Finds (starts : Array TextSize) (offset : TextSize) (line : Nat) : Prop :=
  starts[line]? = some offset ∨
    (∃ start ∈ starts[line]?, start < offset) ∧ ∀ next ∈ starts[line + 1]?, offset < next

/-- The search comes to a line at the offset, or in front of the place where it could be put in. The
table need not rise: of what is below and above the part that is searched, only the nearest starts
matter. -/
theorem search_finds (first : starts[0]? = some 0) (bound : high ≤ starts.size)
    (ordered : low ≤ high) (nonempty : 0 < high)
    (below : low = 0 ∨ ∃ start ∈ starts[low - 1]?, start < offset)
    (above : ∀ start ∈ starts[high]?, offset < start) :
    ∃ line, (search starts offset low high bound = .ok line ∨
      search starts offset low high bound = .error (line + 1)) ∧ Finds starts offset line := by
  fun_induction search starts offset low high bound with
  | case1 low high bound more middle inside hit =>
    rw [Std.compare_eq_eq_iff_eq] at hit
    exact ⟨middle, .inl rfl, .inl (by rw [Array.getElem?_eq_getElem inside, hit])⟩
  | case2 low high bound more middle inside less ih =>
    have less : starts[middle] < offset := Std.compare_eq_lt.mp less
    refine ih (by omega) nonempty (.inr ⟨starts[middle], ?_, less⟩) above
    rw [Nat.add_sub_cancel, Array.getElem?_eq_getElem inside]
    exact rfl
  | case3 low high bound more middle inside greater ih =>
    have greater : offset < starts[middle] := Std.compare_eq_gt.mp greater
    have known : starts[middle]? = some starts[middle] := Array.getElem?_eq_getElem inside
    -- The first start is zero, so it is not the one in the middle.
    have later : middle ≠ 0 := by
      intro same
      have zero := first
      rw [← same, known, Option.some.injEq] at zero
      rw [zero] at greater
      exact UInt32.not_lt_zero greater
    refine ih (by omega) (Nat.pos_of_ne_zero later) below ?_
    rw [known]
    rintro _ ⟨⟩
    exact greater
  | case4 low high bound done =>
    obtain rfl : low = high := by omega
    obtain ⟨line, rfl⟩ := Nat.exists_eq_add_one.mpr nonempty
    exact ⟨line, .inr rfl, .inr ⟨below.resolve_left (Nat.succ_ne_zero _), above⟩⟩

theorem line?_finds {index : LineIndex} (first : index.lineStarts[0]? = some 0) :
    ∃ line, index.line? offset = some line ∧ Finds index.lineStarts offset line := by
  have nonempty : 0 < index.lineStarts.size := Array.size_pos_of_mem (Array.mem_of_getElem? first)
  have above : ∀ start ∈ index.lineStarts[index.lineStarts.size]?, offset < start := by
    rw [Array.getElem?_eq_none (Nat.le_refl _)]
    exact nofun
  obtain ⟨line, found, finds⟩ := search_finds first (Nat.le_refl _) (Nat.zero_le _) nonempty
    (.inl rfl) above
  refine ⟨line, ?_, finds⟩
  rcases found with found | found <;> simp [line?, found, minus?]

theorem Finds.exists_start (finds : Finds starts offset line) :
    ∃ start, starts[line]? = some start ∧ start ≤ offset := by
  rcases finds with hit | ⟨⟨start, known, less⟩, _⟩
  · exact ⟨offset, hit, UInt32.le_refl _⟩
  · exact ⟨start, known, UInt32.le_of_lt less⟩

/-- In a table that rises, the line is the last one that starts up to the offset. -/
theorem Finds.eq_of_append (finds : Finds starts offset line) {front back : List TextSize}
    (whole : starts.toList = front ++ back) (rising : starts.toList.Pairwise (· < ·))
    (upTo : ∀ start ∈ front, start ≤ offset) (behind : ∀ start ∈ back, offset < start) :
    line + 1 = front.length := by
  obtain ⟨start, known, before⟩ := finds.exists_start
  unfold Finds at finds
  rw [← Array.getElem?_toList, whole] at known finds
  have early : line < front.length := by
    by_contra late
    rw [List.getElem?_append_right (Nat.le_of_not_lt late)] at known
    exact UInt32.not_lt.mpr before (behind start (List.mem_of_getElem? known))
  by_contra other
  have inside : line + 1 < front.length := by omega
  have next : starts[line + 1]? = some front[line + 1] := by
    rw [← Array.getElem?_toList, whole, List.getElem?_append_left inside,
      List.getElem?_eq_getElem inside]
  have bounded := upTo _ (List.getElem_mem inside)
  rcases finds with hit | ⟨_, last⟩
  · rw [whole, List.pairwise_append] at rising
    have rises := List.pairwise_iff_getElem.mp rising.1 line (line + 1) early inside
      (Nat.lt_succ_self _)
    rw [List.getElem?_append_left early, List.getElem?_eq_getElem early,
      Option.some.injEq] at hit
    rw [hit] at rises
    exact UInt32.not_lt.mpr bounded rises
  · exact UInt32.not_lt.mpr bounded (last _ next)

theorem startsFrom_append (offset : Nat) (bs cs : List UInt8) :
    startsFrom offset (bs ++ cs) = startsFrom offset bs ++ startsFrom (offset + bs.length) cs := by
  induction bs generalizing offset with
  | nil => rfl
  | cons b bs ih =>
    have next : offset + 1 + bs.length = offset + (bs.length + 1) := by omega
    rw [List.cons_append, startsFrom, startsFrom, ih, List.length_cons, next]
    split <;> rfl

/-- Whether it is wrapped round or not, a start is not behind the bytes. -/
theorem toNat_le_of_mem_startsFrom {offset : Nat} :
    ∀ start ∈ startsFrom offset bs, start.toNat ≤ offset + bs.length := by
  induction bs generalizing offset with
  | nil => nofun
  | cons b bs ih =>
    have later : ∀ start ∈ startsFrom (offset + 1) bs,
        start.toNat ≤ offset + (b :: bs).length := by
      intro start member
      have bounded := ih start member
      rw [List.length_cons]
      omega
    rw [startsFrom]
    split
    · refine List.forall_mem_cons.mpr ⟨?_, later⟩
      rw [UInt32.toNat_add, UInt32.toNat_ofNat', List.length_cons, UInt32.toNat_one]
      omega
    · exact later

theorem lt_toNat_of_mem_startsFrom {offset : Nat} (short : offset + bs.length < UInt32.size) :
    ∀ start ∈ startsFrom offset bs, offset < start.toNat := by
  induction bs generalizing offset with
  | nil => nofun
  | cons b bs ih =>
    rw [List.length_cons] at short
    have later : ∀ start ∈ startsFrom (offset + 1) bs, offset < start.toNat :=
      fun start member => Nat.lt_of_succ_lt (ih (by omega) start member)
    rw [startsFrom]
    split
    · refine List.forall_mem_cons.mpr ⟨?_, later⟩
      rw [UInt32.toNat_add, UInt32.toNat_ofNat', UInt32.toNat_one]
      unfold UInt32.size at short
      omega
    · exact later

theorem pairwise_startsFrom {offset : Nat} (short : offset + bs.length < UInt32.size) :
    (startsFrom offset bs).Pairwise (· < ·) := by
  induction bs generalizing offset with
  | nil => exact .nil
  | cons b bs ih =>
    rw [List.length_cons] at short
    have later := @ih (offset + 1) (by omega)
    rw [startsFrom]
    split
    · refine List.pairwise_cons.mpr ⟨fun start member => ?_, later⟩
      have behind := lt_toNat_of_mem_startsFrom (by omega) start member
      rw [UInt32.lt_iff_toNat_lt, UInt32.toNat_add, UInt32.toNat_ofNat', UInt32.toNat_one]
      omega
    · exact later

theorem length_startsFrom (offset : Nat) (bs : List UInt8) :
    (startsFrom offset bs).length = bs.count lineFeed := by
  induction bs generalizing offset with
  | nil => rfl
  | cons b bs ih =>
    rw [startsFrom]
    split
    · rename_i feed
      rw [feed, List.count_cons_self, List.length_cons, ih]
    · rename_i other
      rw [List.count_cons_of_ne other, ih]

/-- No line starts behind bytes that are no line feeds. -/
theorem startsFrom_of_count (offset : Nat) (absent : bs.count lineFeed = 0) :
    startsFrom offset bs = [] := by
  rw [← List.length_eq_zero_iff, length_startsFrom, absent]

/-- The last line of some bytes begins where the table says. -/
theorem getElem?_startsFrom (bs : List UInt8) : (0 :: startsFrom 0 bs)[bs.count lineFeed]? =
    some (.ofNat (bs.rdropWhile (· ≠ lineFeed)).length) := by
  induction bs using List.reverseRecOn with
  | nil => rfl
  | append_singleton bs b ih =>
    rw [startsFrom_append, List.count_append]
    by_cases feed : b = lineFeed
    · obtain rfl := feed
      rw [List.rdropWhile_concat_neg _ _ _ (by simp), List.length_append,
        List.count_singleton_self, List.getElem?_cons_succ, ← length_startsFrom 0,
        List.getElem?_append_right (Nat.le_refl _), Nat.sub_self]
      simp [startsFrom]
    · have plain : startsFrom (0 + bs.length) [b] = [] := by simp [startsFrom, feed]
      rw [List.rdropWhile_concat_pos _ _ _ (by simpa using feed), plain, List.append_nil, ← ih,
        List.count_singleton, if_neg (by simpa using feed), Nat.add_zero]

theorem lineCount_ofText (text : List Char) :
    (ofText text).lineCount = (bytes text).count lineFeed + 1 := by
  rw [lineCount, ofText, List.size_toArray, List.length_cons, length_startsFrom]

/-- The starts that the bytes up to an offset make come first. -/
theorem lineStarts_ofText (text : List Char) (offset : Nat) : (ofText text).lineStarts.toList =
    (0 :: startsFrom 0 ((bytes text).take offset)) ++
      startsFrom ((bytes text).take offset).length ((bytes text).drop offset) := by
  have whole := startsFrom_append 0 ((bytes text).take offset) ((bytes text).drop offset)
  rw [List.take_append_drop, Nat.zero_add] at whole
  rw [List.cons_append, ← whole]
  rfl

theorem getElem?_lineStarts (text : List Char) (offset : Nat) :
    (ofText text).lineStarts[((bytes text).take offset).count lineFeed]? =
      some (.ofNat (((bytes text).take offset).rdropWhile (· ≠ lineFeed)).length) := by
  have early : ((bytes text).take offset).count lineFeed <
      (0 :: startsFrom 0 ((bytes text).take offset)).length := by
    rw [List.length_cons, length_startsFrom]
    exact Nat.lt_succ_self _
  rw [← Array.getElem?_toList, lineStarts_ofText text offset, List.getElem?_append_left early,
    getElem?_startsFrom]

theorem toNat_le_of_mem_lineStarts :
    ∀ start ∈ (ofText text).lineStarts, start.toNat ≤ byteLength text := by
  intro start member
  rcases List.mem_cons.mp (List.mem_toArray.mp member) with rfl | member
  · exact Nat.zero_le _
  · have bounded := toNat_le_of_mem_startsFrom start member
    rwa [Nat.zero_add, length_bytes] at bounded

/-- The position that a line gives to an offset, of which `stop` is what lies in the text. -/
theorem position?_of_line? {stop : Nat} (found : (ofText text).line? offset = some line)
    (known : (ofText text).lineStarts[line]? = some start) (before : start ≤ offset)
    (within : min offset.toNat (byteLength text) = stop) : (ofText text).position? offset =
      some ⟨line, (slice? text start.toNat stop).elim (stop - start.toNat) (·.length)⟩ := by
  have bounded := toNat_le_of_mem_lineStarts start (Array.mem_of_getElem? known)
  have distance : minus? stop start.toNat = some (stop - start.toNat) :=
    if_pos (within ▸ Nat.le_min.mpr ⟨before, bounded⟩)
  have same : (ofText text).text = text := rfl
  simp only [position?, found, known, same, within, distance, bind, Option.bind_some, pure]

/-- No look-up and no subtraction fails, however long the text is and whatever the offset. -/
theorem position?_eq (text : List Char) (offset : TextSize) :
    (ofText text).position? offset = some ((ofText text).position offset) := by
  have first : (ofText text).lineStarts[0]? = some 0 := rfl
  obtain ⟨line, found, finds⟩ := line?_finds first
  obtain ⟨start, known, before⟩ := finds.exists_start
  rw [position, position?_of_line? found known before rfl]
  rfl

/-- In a text of one line an offset has the characters up to it for a column, or the bytes if it
stands inside a character. -/
theorem position_of_line (plain : '\n' ∉ text) (within : offset.toNat ≤ byteLength text) :
    (ofText text).position offset =
      ⟨0, (slice? text 0 offset.toNat).elim offset.toNat (·.length)⟩ := by
  have absent : (bytes text).count lineFeed = 0 := by rwa [count_bytes, List.count_eq_zero]
  have starts : (ofText text).lineStarts = #[0] := by rw [ofText, startsFrom_of_count 0 absent]
  obtain ⟨line, found, finds⟩ := @line?_finds offset (ofText text) rfl
  obtain ⟨start, known, before⟩ := finds.exists_start
  obtain ⟨inside, value⟩ := Array.getElem?_eq_some_iff.mp known
  obtain rfl : line = 0 := by
    rw [starts] at inside
    exact Nat.lt_one_iff.mp inside
  simp only [starts] at value
  obtain rfl : start = 0 := value.symm
  have given := position?_of_line? found known before (Nat.min_eq_left within)
  rw [position?_eq, Option.some.injEq] at given
  exact given

/-- What follows on the same line does not matter to the position of an offset. -/
theorem position_append (plain : '\n' ∉ text ++ more) (within : offset.toNat ≤ byteLength text) :
    (ofText (text ++ more)).position offset = (ofText text).position offset := by
  have front : '\n' ∉ text := fun member => plain (List.mem_append_left more member)
  have further : offset.toNat ≤ byteLength (text ++ more) := by
    rw [byteLength_append]
    omega
  rw [position_of_line plain further, position_of_line front within, slice?_append within]

/-- The line of an offset is the one to which the line feeds before it lead. -/
theorem line?_ofText (short : Short text) (offset : TextSize) :
    (ofText text).line? offset = some (((bytes text).take offset.toNat).count lineFeed) := by
  obtain ⟨line, found, finds⟩ := @line?_finds offset (ofText text) rfl
  have length : ((bytes text).take offset.toNat).length ≤ offset.toNat := List.length_take_le _ _
  have total : ((bytes text).take offset.toNat).length +
      ((bytes text).drop offset.toNat).length = byteLength text := by
    rw [← List.length_append, List.take_append_drop, length_bytes]
  have all : 0 + (bytes text).length < UInt32.size := by rwa [Nat.zero_add, length_bytes]
  have last := finds.eq_of_append (lineStarts_ofText text offset.toNat) ?rising ?upTo ?behind
  · rw [List.length_cons, length_startsFrom] at last
    rw [found, Nat.succ.inj last]
  case rising =>
    exact List.pairwise_cons.mpr ⟨lt_toNat_of_mem_startsFrom all, pairwise_startsFrom all⟩
  case upTo =>
    refine List.forall_mem_cons.mpr ⟨UInt32.zero_le, fun start member => ?_⟩
    have bounded := toNat_le_of_mem_startsFrom start member
    exact UInt32.le_iff_toNat_le.mpr (by omega)
  case behind =>
    intro start member
    have behind := lt_toNat_of_mem_startsFrom (by rwa [total]) start member
    rcases Nat.le_total offset.toNat (bytes text).length with within | beyond
    · rw [List.length_take_of_le within] at behind
      exact behind
    · rw [List.drop_of_length_le beyond] at member
      contradiction

/-- The position of an offset: its line, and in the line the characters up to it, or the bytes if
it stands inside a character. -/
theorem position_eq (short : Short text) {taken : List UInt8}
    (cut : (bytes text).take offset.toNat = taken) : (ofText text).position offset =
      ⟨taken.count lineFeed,
        (slice? text (taken.rdropWhile (· ≠ lineFeed)).length taken.length).elim
          (lineBytes taken).length (·.length)⟩ := by
  have within : min offset.toNat (byteLength text) = taken.length := by
    rw [← cut, List.length_take, length_bytes]
  have length := length_rdropWhile_add (· ≠ lineFeed) taken
  have start : (UInt32.ofNat (taken.rdropWhile (· ≠ lineFeed)).length).toNat =
      (taken.rdropWhile (· ≠ lineFeed)).length :=
    UInt32.toNat_ofNat_of_lt' (by omega)
  have before : UInt32.ofNat (taken.rdropWhile (· ≠ lineFeed)).length ≤ offset := by
    rw [UInt32.le_iff_toNat_le, start]
    omega
  have distance : taken.length - (taken.rdropWhile (· ≠ lineFeed)).length =
      (lineBytes taken).length := by
    rw [lineBytes]
    omega
  have found := line?_ofText short offset
  have known := getElem?_lineStarts text offset.toNat
  rw [cut] at found known
  have given := position?_of_line? found known before within
  rw [position?_eq, start, distance, Option.some.injEq] at given
  exact given

/-- At a boundary the position is the one to which reading leads. -/
theorem position_of_append {before behind : List Char} (short : Short text)
    (split : before ++ behind = text) :
    (ofText text).position (.ofNat (byteLength before)) = Position.origin.advanceOver before := by
  have kept : (UInt32.ofNat (byteLength before)).toNat = byteLength before := by
    refine UInt32.toNat_ofNat_of_lt' (Nat.lt_of_le_of_lt ?_ short)
    rw [← split, byteLength_append]
    exact Nat.le_add_right _ _
  have cut : (bytes text).take (UInt32.ofNat (byteLength before)).toNat = bytes before := by
    rw [kept, ← split, take_bytes]
  have inside : slice? text (byteLength (before.rdropWhile (· ≠ '\n'))) (byteLength before) =
      some (lineChars before) := by
    rw [slice?_eq_some]
    refine ⟨before.rdropWhile (· ≠ '\n'), behind, ?_, rfl, ?_⟩
    all_goals rw [lineChars, List.rdropWhile_append_rtakeWhile]
    exact split
  rw [position_eq short cut, rdropWhile_bytes, length_bytes, length_bytes, inside, count_bytes,
    Position.advanceOver_origin]
  rfl

/-- A part of the text has the span from where reading leads up to it to where it leads behind it.
-/
theorem span_of_append {before source behind : List Char} (short : Short text)
    (split : before ++ (source ++ behind) = text) :
    (ofText text).span
        (⟨byteLength before, byteLength before + byteLength source⟩ : ByteRange).kept =
      ⟨Position.origin.advanceOver before, Position.origin.advanceOver (before ++ source)⟩ := by
  have start := position_of_append short split
  have stop := position_of_append short ((List.append_assoc before source behind).trans split)
  rw [byteLength_append] at stop
  rw [span, ← start, ← stop]
  rfl

/-- Where no character begins, the column counts the bytes of the line. -/
theorem position_of_not_boundary (short : Short text) (inside : ¬ IsBoundary text offset.toNat)
    (within : offset.toNat ≤ byteLength text) : ((ofText text).position offset).column =
      (lineBytes ((bytes text).take offset.toNat)).length := by
  have stop : ((bytes text).take offset.toNat).length = offset.toNat :=
    List.length_take_of_le (by rwa [length_bytes])
  have uncut : slice? text (((bytes text).take offset.toNat).rdropWhile (· ≠ lineFeed)).length
      offset.toNat = none := by
    rw [Option.eq_none_iff_forall_ne_some]
    intro part cut
    obtain ⟨before, behind, whole, _, length⟩ := slice?_eq_some.mp cut
    exact inside ⟨_, behind, whole, length⟩
  rw [position_eq short rfl, stop, uncut]
  rfl

/-- An offset beyond the text has the position of its end. -/
theorem position_of_le (beyond : byteLength text ≤ offset.toNat) :
    (ofText text).position offset = Position.origin.advanceOver text := by
  have short : Short text := Nat.lt_of_le_of_lt beyond offset.toNat_lt
  have whole : text ++ [] = text := List.append_nil text
  have last := position_of_append short whole
  have stop : (UInt32.ofNat (byteLength text)).toNat = byteLength text :=
    UInt32.toNat_ofNat_of_lt' short
  have same : (bytes text).take offset.toNat =
      (bytes text).take (UInt32.ofNat (byteLength text)).toNat := by
    rw [stop, List.take_of_length_le (by rwa [length_bytes]),
      List.take_of_length_le (length_bytes text).le]
  rw [position_eq short rfl, ← same] at last
  rw [position_eq short rfl, last]

/-- The position of an offset in a text of fewer than `2 ^ 32` bytes, as the table of line starts
gives it. None of the look-ups and subtractions fails, for any offset; there is one line more than
line feeds, and an offset is in the line that the line feeds before it lead to. At a boundary the
column is the number of characters behind the last of them, inside a character it is the number of
bytes; beyond the text the position is that of its end. So positions rise from boundary to boundary,
and no two boundaries have the same one. -/
theorem position?_ofText (short : byteLength text < UInt32.size) :
    (ofText text).lineCount = text.count '\n' + 1 ∧
    (∀ offset, (ofText text).position? offset = some ((ofText text).position offset) ∧
      ((ofText text).position offset).line = ((bytes text).take offset.toNat).count lineFeed ∧
      (byteLength text ≤ offset.toNat →
        (ofText text).position offset = (ofText text).position (.ofNat (byteLength text))) ∧
      (offset.toNat ≤ byteLength text → ¬ IsBoundary text offset.toNat →
        ((ofText text).position offset).column =
          (lineBytes ((bytes text).take offset.toNat)).length)) ∧
    (∀ before behind, before ++ behind = text →
      (ofText text).position (.ofNat (byteLength before)) =
        ⟨before.count '\n', (lineChars before).length⟩) ∧
    ∀ first second : TextSize, IsBoundary text first.toNat → IsBoundary text second.toNat →
      (first < second → (ofText text).position first < (ofText text).position second) ∧
      ((ofText text).position first = (ofText text).position second → first = second) := by
  have boundary (offset : TextSize) (before behind : List Char) (whole : before ++ behind = text)
      (length : byteLength before = offset.toNat) :
      (ofText text).position offset = Position.origin.advanceOver before := by
    have kept : UInt32.ofNat (byteLength before) = offset := by rw [length, UInt32.ofNat_toNat]
    rw [← kept, position_of_append short whole]
  have rises (first second : TextSize) (begins : IsBoundary text first.toNat)
      (later : IsBoundary text second.toNat) (less : first < second) :
      (ofText text).position first < (ofText text).position second := by
    obtain ⟨before, behind, whole, length⟩ := begins
    obtain ⟨more, rest, split, further⟩ := later
    rw [boundary first before behind whole length, boundary second more rest split further]
    refine Position.advanceOver_lt_advanceOver _ (whole.trans split.symm) ?_
    rwa [length, further, ← UInt32.lt_iff_toNat_lt]
  refine ⟨?_, ?_, ?_, ?_⟩
  · rw [lineCount_ofText, count_bytes]
  · intro offset
    refine ⟨position?_eq text offset, ?_, ?_, ?_⟩
    · rw [position_eq short rfl]
    · intro beyond
      have stop : (UInt32.ofNat (byteLength text)).toNat = byteLength text :=
        UInt32.toNat_ofNat_of_lt' short
      rw [position_of_le beyond, position_of_le stop.ge]
    · intro within inside
      exact position_of_not_boundary short inside within
  · intro before behind whole
    rw [position_of_append short whole, Position.advanceOver_origin]
  · intro first second begins later
    refine ⟨rises first second begins later, ?_⟩
    intro same
    rcases Nat.lt_trichotomy first.toNat second.toNat with less | equal | greater
    · exact absurd same (rises first second begins later less).ne
    · exact UInt32.toNat_inj.mp equal
    · exact absurd same (rises second first later begins greater).ne'

namespace Sample

/-- Characters of two bytes on both sides of a line feed. -/
def umlauts : List Char := ['ä', '\n', 'ö']

end Sample

theorem position?_ofText_sample : byteLength Sample.umlauts < UInt32.size ∧
    (ofText Sample.umlauts).lineCount = 2 ∧
    (ofText Sample.umlauts).position? 4 = some ((ofText Sample.umlauts).position 4) ∧
    ¬ IsBoundary Sample.umlauts 4 ∧ ((ofText Sample.umlauts).position 4).column = 1 ∧
    (ofText Sample.umlauts).position 7 = (ofText Sample.umlauts).position 5 ∧
    IsBoundary Sample.umlauts 2 ∧ IsBoundary Sample.umlauts 3 ∧
    (ofText Sample.umlauts).position 2 = ⟨0, 1⟩ ∧
    (ofText Sample.umlauts).position 2 < (ofText Sample.umlauts).position 3 := by
  have short : byteLength Sample.umlauts < UInt32.size := by decide
  obtain ⟨lines, each, boundary, order⟩ := position?_ofText short
  have inside : ¬ IsBoundary Sample.umlauts 4 :=
    @not_isBoundary 'ö' ['ä', '\n'] [] 1 (by decide) (by decide)
  have first : IsBoundary Sample.umlauts 2 := ⟨['ä'], ['\n', 'ö'], rfl, rfl⟩
  have second : IsBoundary Sample.umlauts 3 := ⟨['ä', '\n'], ['ö'], rfl, rfl⟩
  exact ⟨short, lines, (each 4).1, inside, (each 4).2.2.2 (by decide) inside,
    (each 7).2.2.1 (by decide), first, second, boundary ['ä'] ['\n', 'ö'] rfl,
    (order 2 3 first second).1 (by decide)⟩

namespace Sample

/-- A line of more than `2 ^ 32` bytes. -/
def longLine : List Char := .replicate (UInt32.size + 4) 'a' ++ ['\n']

/-- The line feed at its end is taken for one behind the first four bytes. -/
theorem lineStarts_longLine : (ofText longLine).lineStarts = #[0, 5] := by
  have absent : (bytes (.replicate (UInt32.size + 4) 'a')).count lineFeed = 0 := by
    rw [count_bytes, List.count_replicate, if_neg (by decide)]
  have last : startsFrom (UInt32.size + 4) (bytes ['\n']) = [5] := by decide
  have starts : startsFrom 0 (bytes longLine) = [5] := by
    rw [longLine, bytes_append, startsFrom_append, startsFrom_of_count 0 absent, List.nil_append,
      length_bytes, byteLength_replicate, Nat.zero_add]
    exact last
  rw [ofText, starts]

theorem line?_of_lineStarts {index : LineIndex} (starts : index.lineStarts = #[0, 5]) :
    index.line? 5 = some 1 := by
  simp only [line?, starts]
  with_unfolding_all rfl

end Sample

/-- Beyond `2 ^ 32` bytes the table can lead to a line that begins nowhere in the text. -/
theorem position?_longLine : IsBoundary Sample.longLine 5 ∧
    ((bytes Sample.longLine).take 5).count lineFeed = 0 ∧
    (ofText Sample.longLine).position? 5 = some ⟨1, 0⟩ := by
  obtain ⟨back, split⟩ : ∃ back, ['a', 'a', 'a', 'a', 'a'] ++ back = Sample.longLine := by
    refine ⟨.replicate (UInt32.size - 1) 'a' ++ ['\n'], ?_⟩
    rw [Sample.longLine, ← List.append_assoc]
    exact congrArg (· ++ ['\n']) (List.replicate_add 5 (UInt32.size - 1) 'a').symm
  have starts := Sample.lineStarts_longLine
  have found := Sample.line?_of_lineStarts starts
  -- What stands behind the first five characters must not be looked at, as it is too long.
  generalize Sample.longLine = text at split starts found ⊢
  have known : (ofText text).lineStarts[1]? = some 5 := by
    rw [starts]
    rfl
  have within : min (5 : TextSize).toNat (byteLength text) = 5 := by
    rw [← split, byteLength_append]
    exact Nat.min_eq_left (Nat.le_add_right 5 _)
  have nothing : slice? text (5 : TextSize).toNat 5 = some [] :=
    slice?_eq_some.mpr ⟨['a', 'a', 'a', 'a', 'a'], back, split, rfl, rfl⟩
  have taken := take_bytes ['a', 'a', 'a', 'a', 'a'] back
  rw [split] at taken
  refine ⟨⟨_, back, split, rfl⟩, congrArg (·.count lineFeed) taken, ?_⟩
  rw [position?_of_line? found known (UInt32.le_refl 5) within, nothing]
  rfl

end LineIndex

end Yang
