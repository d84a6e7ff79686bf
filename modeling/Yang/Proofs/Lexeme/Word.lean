import Mathlib.Data.List.TakeWhile
import Yang.Keyword
import Yang.Proofs.Lexeme.Leads

/-! What is a word. Of a lexeme that stands in a text, its characters alone tell whether it is one;
and what is a word by itself is one wherever a blank or a mark ends it. -/
namespace Yang

namespace Lexeme

variable {c : Char} {chars rest : List Char} {l : Lexeme}

/-- Whatever a lexeme leads, it can be all there is. -/
theorem Leads.alone (leads : l.Leads rest) : l.Leads [] := by
  cases l with
  | blank | blockComment | doubleQuoted | singleQuoted => exact leads
  | semicolon | leftBrace | rightBrace | plus => trivial
  | lineComment chars => exact ⟨leads.1, by simp⟩
  | word chars => exact leads.imp (fun lone => ⟨lone.1, by simp⟩) fun long =>
    ⟨long.1, long.2.1, long.2.2.1, trivial⟩
  | invalid chars =>
    exact leads.imp (fun ⟨run, same, body, _⟩ => ⟨run, same, body, trivial, by simp⟩)
      fun ⟨_, unclosed⟩ => ⟨rfl, unclosed⟩

/-- The characters of a lexeme are cut into this lexeme. -/
theorem ofText_source (leads : l.Leads []) : ofText l.source = [l] := by
  cases whole : l.source with
  | nil => exact absurd whole leads.source_ne_nil
  | cons c text =>
    suffices cut : scan c text = (l, []) by rw [ofText, cut, ofText]
    cases gap : l.isGap with
    | false => exact scan_of_leads leads gap (by rw [whole, List.append_nil])
    | true =>
      cases l with
      | blank chars =>
        obtain rfl : chars = c :: text := whole
        have blank := List.forall_mem_cons.mp leads.2
        rw [scan, if_pos blank.1, List.takeWhile_eq_self_iff.mpr blank.2,
          List.dropWhile_eq_nil_iff.mpr blank.2]
      | _ => contradiction

/-- The text is one word and nothing else. A `+` is none. -/
def IsWord (chars : List Char) : Prop := ofText chars = [word chars]

theorem isWord_iff : IsWord chars ↔ (word chars).Leads [] := by
  constructor
  · intro isWord
    have lead := leadAll_ofText chars
    rw [isWord] at lead
    exact lead.1
  · exact ofText_source

/-- A lexeme of a text is a word just when its characters are. -/
theorem isWord_source (leads : l.Leads rest) : IsWord l.source ↔ l = word l.source := by
  rw [IsWord, ofText_source leads.alone, List.singleton_inj]

/-- A blank or a mark ends whatever stands in front of the text, or the text is empty. -/
def Apart (rest : List Char) : Prop := ∀ c ∈ rest.head?, isBlank c ∨ isMark c

theorem apart_of_isBlank (blank : isBlank c) (rest : List Char) : Apart (c :: rest) := by
  intro d first
  cases first
  exact .inl blank

theorem Apart.stopsWord (apart : Apart rest) : StopsWord rest := by
  cases rest with
  | nil => trivial
  | cons c rest =>
    rcases apart c rfl with blank | mark
    · exact stopsWord_of_isBlank blank rest
    · refine ⟨by simp [isPlain, mark], ?_⟩
      rintro rfl
      contradiction

theorem IsWord.leads (isWord : IsWord chars) (apart : Apart rest) : (word chars).Leads rest := by
  rcases isWord_iff.mp isWord with ⟨lone, _⟩ | ⟨nonempty, other, body, _⟩
  · exact .inl ⟨lone, apart⟩
  · exact .inr ⟨nonempty, other, body, apart.stopsWord⟩

theorem wordlike_of_plain (plain : ∀ c ∈ chars, isPlain c) : Wordlike chars := by
  induction chars with
  | nil => exact .nil
  | cons c chars ih =>
    rw [List.forall_mem_cons] at plain
    exact .plain plain.1 (ih plain.2)

theorem isWord_of_plain (nonempty : chars ≠ []) (other : chars ≠ ['+'])
    (plain : chars.all isPlain) : IsWord chars :=
  isWord_iff.mpr (.inr ⟨nonempty, other, wordlike_of_plain (List.all_eq_true.mp plain), trivial⟩)

end Lexeme

/-- The name of every keyword is a word. -/
theorem Keyword.isWord_name (k : Keyword) : Lexeme.IsWord k.name.toList := by
  have each : ∀ k ∈ all, k.name.toList ≠ [] ∧ k.name.toList ≠ ['+'] ∧
    k.name.toList.all Lexeme.isPlain := by
    decide +kernel
  obtain ⟨nonempty, other, plain⟩ := each k k.mem_all
  exact Lexeme.isWord_of_plain nonempty other plain

end Yang
