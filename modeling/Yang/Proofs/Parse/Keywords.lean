import Yang.Proofs.Parse.Written
import Yang.Proofs.Token.Keywords
import Yang.Proofs.Token.Stream

/-! The keywords of statements. Outside extension blocks a statement that is read from a text has
the keyword of its kind, and an extension statement one of its own: no keyword is taken for another
word, and no other word for a keyword. -/
namespace Yang

open Lexeme (IsWord)
open Parse
open Token (AtStatement)

namespace Statement

/-- A part of a tree that is in no extension block. Extension statements are not in their own. -/
inductive Outer : Statement → Statement → Prop where
  | self : Outer s s
  | deeper (core : s.isExtension = false) (child : c ∈ s.children) (inside : Outer c n) : Outer s n

/-- The keyword of a statement tells its kind: it is that of the kind, and for an extension
statement that of none. -/
def WellNamed (s : Statement) : Prop :=
  if s.isExtension then (∀ k : Keyword, s.keyword ≠ k.name) ∧
    s.keyword ≠ "deviate" else s.keyword = s.kind.keyword

end Statement

variable {inExtension : Bool} {s c n : Statement} {ss : List Statement} {ts : List Token}
  {t : Token}

theorem RendersAll.exists_renders (all : RendersAll inExtension ss ts) :
    ∀ c ∈ ss, ∃ us, Renders inExtension c us ∧ us ⊆ ts := by
  induction ss generalizing ts with
  | nil => simp
  | cons c ss ih =>
    cases all with
    | cons first rest =>
      refine List.forall_mem_cons.mpr ⟨⟨_, first, List.subset_append_left _ _⟩, ?_⟩
      intro d child
      obtain ⟨us, renders, inside⟩ := ih rest d child
      exact ⟨us, renders, List.subset_append_of_subset_right _ inside⟩

theorem Renders.exists_opener (renders : Renders inExtension s ts) :
    ∃ t ∈ ts, Opens inExtension t.kind s.kind s.argument ∧ t.text = s.keyword := by
  cases renders with
  | ended opens keyword => exact ⟨_, List.mem_cons_self, opens, keyword⟩
  | block opens keyword => exact ⟨_, List.mem_cons_self, opens, keyword⟩

theorem Renders.exists_child (renders : Renders inExtension s ts) (child : c ∈ s.children) :
    ∃ us, Renders s.isExtension c us ∧ us ⊆ ts := by
  cases renders with
  | ended _ _ _ childless =>
    rw [childless] at child
    contradiction
  | block _ _ _ _ body =>
    obtain ⟨us, renders, inside⟩ := body.exists_renders c child
    refine ⟨us, renders, fun u member => ?_⟩
    simp [inside member]

/-- What opens a statement outside extension blocks, and is a keyword just if its text is one, names
it. -/
theorem Opens.wellNamed (opens : Opens false t.kind s.kind s.argument)
    (keyword : t.text = s.keyword) (word : t.kind.startsStatement → t.kind = .ofWord t.text) :
    s.WellNamed := by
  rw [keyword] at word
  unfold Statement.WellNamed Statement.isExtension
  rcases opens with alone | ⟨deviate, f, _, kind⟩
  · cases opener : t.kind with
    | keyword k =>
      rw [opener] at alone word
      have kind : s.kind = .core k := (Option.some.inj alone).symm
      have named := Token.Kind.ofWord_eq_keyword.mp (word rfl).symm
      simp [kind, named, Statement.Kind.keyword]
    | identifier =>
      rw [opener] at alone word
      have kind : s.kind = .extension := (Option.some.inj alone).symm
      obtain ⟨other, deviate⟩ := Token.Kind.ofWord_eq_identifier.mp (word rfl).symm
      simpa [kind, deviate] using fun k => (other k).symm
    | _ =>
      rw [opener] at alone
      contradiction
  · rw [deviate] at word
    have named := Token.Kind.ofWord_eq_deviate.mp (word rfl).symm
    simp [kind, named, Statement.Kind.keyword]

/-- What is written with tokens that are keywords just if their texts are is well named outside
extension blocks. -/
theorem Renders.wellNamed (renders : Renders false s ts) (outer : s.Outer n)
    (words : ∀ t ∈ ts, t.kind.startsStatement → t.kind = .ofWord t.text) : n.WellNamed := by
  induction outer generalizing ts with
  | self =>
    obtain ⟨t, member, opens, keyword⟩ := renders.exists_opener
    exact opens.wellNamed keyword (words t member)
  | deeper core child outer ih =>
    obtain ⟨us, renders, inside⟩ := renders.exists_child child
    rw [core] at renders
    exact ih renders fun u member => words u (inside member)

/-- Words are keywords or identifiers exactly where a statement can begin, and strings elsewhere.
There a word is the keyword that it names, if it names one. So in every tree that a parse returns,
the statements outside extension blocks have the keywords of their kinds, and the extension
statements among them have none of these. -/
theorem keywords_of_parse :
    (∀ text before t behind, Token.ofText text = before ++ t :: behind →
      ∃ source, Text.slice? text.toList t.slice.start t.slice.stop = some source ∧
        (t.kind.startsStatement ↔ IsWord source ∧ AtStatement before) ∧
        (IsWord source → t.text = String.ofList source ∧
          (AtStatement before → t.kind = .ofWord t.text) ∧
          (¬ AtStatement before → t.kind = .string))) ∧
    ∀ {entry options text s n}, parse entry options text = .ok s → s.Outer n → n.WellNamed := by
  refine ⟨fun text before t behind split => Token.kind_of_split split, ?_⟩
  intro entry options text s n accepted outer
  have reads := parseTokens_result_eq_ok.mp accepted
  obtain ⟨_, tokens, split, rfl, renders⟩ :=
    (State.written_initial entry).reads (State.sound_initial entry) reads
  rw [List.nil_append, List.nil_append] at split
  subst split
  refine Renders.wellNamed renders outer fun t member starts => ?_
  have member : t ∈ Token.ofText text := by
    rw [← TokenStream.pending_append_dropWhile (Token.ofText text)]
    exact List.mem_append_left _ member
  obtain ⟨before, behind, split⟩ := List.append_of_mem member
  obtain ⟨source, _, word, kind⟩ := Token.kind_of_split split
  obtain ⟨isWord, statement⟩ := word.mp starts
  exact (kind isWord).2.1 statement

namespace Sample

/-- Keywords as arguments, and in an extension block. -/
def named : String := "module type \x7b namespace n; prefix p; m:x leaf \x7b key; \x7d \x7d"

/-- The name of the module. -/
def moduleName : Token := ⟨.string, "type", ⟨⟨0, 7⟩, ⟨0, 11⟩⟩, ⟨7, 11⟩⟩

def note : Statement :=
  ⟨.extension, "m:x", some "leaf", [⟨.extension, "key", none, [], ⟨⟨0, 48⟩, ⟨0, 52⟩⟩⟩],
    ⟨⟨0, 37⟩, ⟨0, 54⟩⟩⟩

def namedTree : Statement :=
  ⟨.core .module, "module", some "type",
    [⟨.core .namespaceStmt, "namespace", some "n", [], ⟨⟨0, 14⟩, ⟨0, 26⟩⟩⟩,
      ⟨.core .prefixStmt, "prefix", some "p", [], ⟨⟨0, 27⟩, ⟨0, 36⟩⟩⟩, note],
    ⟨⟨0, 0⟩, ⟨0, 56⟩⟩⟩

theorem parse_named : parse .module {} named = .ok namedTree := by
  with_unfolding_all rfl

theorem outer_note : namedTree.Outer note := by
  have child : note ∈ namedTree.children := by simp [namedTree]
  exact .deeper rfl child .self

theorem ofText_named : Token.ofText named = (Token.ofText named).take 1 ++ moduleName ::
    (Token.ofText named).drop 2 := by
  decide +kernel

end Sample

theorem keywords_of_parse_sample :
    Token.ofText Sample.named =
      (Token.ofText Sample.named).take 1 ++ Sample.moduleName ::
        (Token.ofText Sample.named).drop 2 ∧
    ¬ AtStatement ((Token.ofText Sample.named).take 1) ∧
    parse .module {} Sample.named = .ok Sample.namedTree ∧ Sample.namedTree.Outer Sample.note ∧
    Sample.namedTree.WellNamed ∧ Sample.note.WellNamed := by
  obtain ⟨source, slice, starts, _⟩ := keywords_of_parse.1 _ _ _ _ Sample.ofText_named
  have name : Text.slice? Sample.named.toList 7 11 = some "type".toList := by decide +kernel
  obtain rfl := Option.some.inj (slice.symm.trans name)
  refine ⟨Sample.ofText_named, ?_, Sample.parse_named, Sample.outer_note, ?_, ?_⟩
  · intro statement
    exact absurd (starts.mpr ⟨Keyword.isWord_name .type, statement⟩) (by decide)
  · exact keywords_of_parse.2 Sample.parse_named .self
  · exact keywords_of_parse.2 Sample.parse_named Sample.outer_note

end Yang
