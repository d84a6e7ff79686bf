import Yang.Proofs.Parse.Written
import Yang.Proofs.Statement.Bare

/-! Every tree that conforms is accepted, however it is written: reading the tokens of a statement
in any place that takes it leaves that place with the statement added. -/
namespace Yang

open Grammar Parse

variable {inExtension strict : Bool} {s : Statement} {ss : List Statement} {ts us arg : List Token}
  {t : Token} {k : Statement.Kind} {argument : Option String} {value : String} {starter : Starter}
  {enclosing : List Block} {h : Head} {b : Block}

theorem Opens.resolve {t : Token.Kind} (opens : Opens inExtension t k (some value))
    (starts : Starter.ofToken? inExtension t = some starter) : starter.resolve? value = some k := by
  cases inExtension with
  | true =>
    obtain rfl := Starter.eq_extension_of_ofToken? starts
    exact congrArg some opens.2.symm
  | false =>
    rcases opens with alone | ⟨rfl, f, selected, rfl⟩
    · rcases Starter.ofToken?_eq_some.mp starts with ⟨rfl, _⟩ | ⟨l, same, rfl⟩
      · contradiction
      · cases alone.symm.trans same
        rfl
    · cases starts
      exact Option.map_eq_some_iff.mpr ⟨f, selected, rfl⟩

theorem Opens.eq_kind {t : Token.Kind} (opens : Opens inExtension t k none)
    (starts : Starter.ofToken? inExtension t = some starter) : starter = .kind k := by
  cases inExtension with
  | true => rw [Starter.eq_extension_of_ofToken? starts, opens.2]
  | false =>
    rcases opens with alone | ⟨_, f, selected, _⟩
    · rcases Starter.ofToken?_eq_some.mp starts with ⟨rfl, _⟩ | ⟨l, same, rfl⟩
      · contradiction
      · cases alone.symm.trans same
        rfl
    · contradiction

/-- What opens a statement that a block admits starts it there. -/
theorem Opens.exists_starter {t : Token.Kind} {parent : Statement.Kind} {p q : Progress}
    (opens : Opens inExtension t k argument) (taken : p.after? strict parent k = some q) :
    ∃ starter, Starter.ofToken? inExtension t = some starter ∧ starter.Takes strict parent p q := by
  cases inExtension with
  | true =>
    obtain ⟨starts, rfl⟩ := opens
    exact ⟨_, if_pos starts, Starter.takes_kind.mpr taken⟩
  | false =>
    rcases opens with alone | ⟨rfl, f, _, rfl⟩
    · exact ⟨_, Starter.ofToken?_eq_some.mpr (.inr ⟨k, alone, rfl⟩), Starter.takes_kind.mpr taken⟩
    · refine ⟨.deviate, rfl, Starter.takes_deviate.mpr ?_⟩
      intro g
      rw [Progress.after?_deviate strict parent p g f, taken]

namespace Parse.State

theorem reads_of_move {σ τ : State} {es : List StructuralError} (move : Move strict σ t τ es) :
    Reads strict σ [t] τ es := by
  simpa using Reads.next (step_eq_ok_iff.mpr move) .none

theorem reads_of_spells (takes : h.TakesArgument) (spells : Spells value arg) :
    ∃ first, Reads strict ⟨enclosing, .head h⟩ arg ⟨enclosing, .piece h first value⟩ [] := by
  induction spells with
  | piece begins => exact ⟨_, reads_of_move (.argument takes begins)⟩
  | join spells plus string ih =>
    obtain ⟨first, reads⟩ := ih
    exact ⟨first, reads.append
      (.next (step_eq_ok_iff.mpr (.plus plus)) (reads_of_move (.piece string)))⟩

/-- Behind its keyword and its argument, a statement is known. -/
theorem reads_argument (strict : Bool) (enclosing : List Block)
    (opens : Opens inExtension t.kind k argument)
    (starts : Starter.ofToken? inExtension t.kind = some starter) (fits : ArgumentFits k argument)
    (spells : SpellsArgument argument arg) :
    ∃ phase, Reads strict ⟨enclosing, .head ⟨starter, t⟩⟩ arg ⟨enclosing, phase⟩ [] ∧
      Named phase k t argument := by
  cases argument with
  | none =>
    obtain rfl := spells
    obtain rfl := opens.eq_kind starts
    refine ⟨_, .none, .bare ?_⟩
    intro required
    have := fits.present required
    contradiction
  | some value =>
    have resolved := opens.resolve starts
    have takes : Head.TakesArgument ⟨starter, t⟩ := by
      rintro l rfl use
      cases resolved
      have := fits.absent use
      contradiction
    obtain ⟨first, reads⟩ := reads_of_spells takes spells
    exact ⟨_, reads, .argued resolved⟩

/-- However a statement is written, its tokens lead from its keyword, wherever that is read, to the
place behind it, with the statement added there. -/
def ReadsBack (strict inExtension : Bool) (s : Statement) (ts : List Token) : Prop :=
  ∃ t rest, ts = t :: rest ∧ Opens inExtension t.kind s.kind s.argument ∧
    ∀ starter enclosing, Starter.ofToken? inExtension t.kind = some starter →
      ∃ s' es, s'.bare = s.bare ∧ Reads strict ⟨enclosing, .head ⟨starter, t⟩⟩ rest
        (complete enclosing s') es

/-- Substatements that a block admits one after another are read into it. -/
theorem reads_all {q : Progress} {inner : List Token} (suits : b.progress.Suits b.kind)
    (taken : (ss.map (·.kind)).foldlM (Progress.after? strict b.kind) b.progress = some q)
    (renders : RendersAll (b.kind = .extension) ss inner)
    (each : ∀ c ∈ ss, ∀ ts, Renders (b.kind = .extension) c ts →
      ReadsBack strict (b.kind = .extension) c ts) :
    ∃ (more : List Statement) (es : List StructuralError),
      more.map Statement.bare = ss.map Statement.bare ∧
      Reads strict ⟨enclosing, .content b⟩ inner
        ⟨enclosing, .content { b with children := b.children ++ more.toArray, progress := q }⟩
          es := by
  -- The block grows with each substatement that is read, so the induction is over all blocks.
  induction ss generalizing b inner with
  | nil =>
    cases taken
    cases renders
    exact ⟨[], [], rfl, by simp⟩
  | cons c ss ih =>
    cases renders with
    | cons first rest =>
      rw [List.forall_mem_cons] at each
      obtain ⟨p, joined, later⟩ := Option.bind_eq_some_iff.mp taken
      obtain ⟨t, behind, rfl, opens, reads⟩ := each.1 _ first
      obtain ⟨starter, starts, takes⟩ := opens.exists_starter joined
      obtain ⟨c', es, same, reads⟩ := reads starter ({ b with progress := p } :: enclosing) starts
      -- A block looks for its end before it looks for another substatement.
      have inside := Starter.ne_rightBrace_of_ofToken? starts
      have begun : Reads strict ⟨enclosing, .content b⟩ [t] _ [] :=
        reads_of_move (.begun inside ((Block.receive_eq_ok suits).mpr ⟨starts, takes⟩))
      obtain ⟨more, fs, others, reads_rest⟩ :=
        ih (b := { b with progress := p }.push c') (suits.after joined) later rest each.2
      refine ⟨c' :: more, es ++ fs, by simp [same, others], ?_⟩
      simpa [Block.push] using (begun.append reads).append reads_rest

theorem reads_back (readable : s.Readable strict) (fits : ∀ n ∈ s.preorder, n.Fits)
    (renders : Renders inExtension s ts) : ReadsBack strict inExtension s ts := by
  induction s generalizing inExtension ts with
  | node s ih =>
    have self := s.self_mem_preorder
    obtain ⟨argument, orderly⟩ := readable s self
    cases renders with
    | ended opens keyword spells childless semicolon =>
      refine ⟨_, _, rfl, opens, ?_⟩
      intro starter enclosing starts
      obtain ⟨phase, reads, named⟩ := reads_argument strict enclosing opens starts argument spells
      have ended := reads.append
        (reads_of_move (.ended named semicolon ((fits s self).allowsSemicolon childless)))
      refine ⟨_, _, ?_, ended⟩
      simp [Statement.bare_eq, childless, keyword]
    | block opens keyword spells left body right =>
      refine ⟨_, _, rfl, opens, ?_⟩
      intro starter enclosing starts
      obtain ⟨phase, reads, named⟩ := reads_argument strict enclosing opens starts argument spells
      have opened := reads.append (reads_of_move (.opened named left))
      obtain ⟨q, taken⟩ := Option.isSome_iff_exists.mp orderly
      have each : ∀ c ∈ s.children, ∀ us, Renders s.isExtension c us →
        ReadsBack strict s.isExtension c us := by
        intro c child us renders
        apply ih c child ?_ ?_ renders
        · intro n inside
          exact readable n (Statement.mem_preorder_of_child child inside)
        · intro n inside
          exact fits n (Statement.mem_preorder_of_child child inside)
      obtain ⟨more, es, same, filled⟩ :=
        reads_all (b := .opened s.kind _ s.argument) (Progress.suits_first s.kind) taken body each
      have closed := (opened.append filled).append (reads_of_move (.closed right))
      refine ⟨_, _, ?_, by simpa using closed⟩
      simp [Statement.bare_eq, Block.statement, Block.opened, keyword, same]

end Parse.State

theorem exists_accepted (unit : k.isUnit) : ∃ word ∈ Entry.anyUnit.accepted, k = .core word := by
  unfold Statement.Kind.isUnit at unit
  split at unit
  · exact ⟨.module, by decide, rfl⟩
  · exact ⟨.submodule, by decide, rfl⟩
  · contradiction

theorem Token.Kind.eq_keyword {t : Token.Kind} {word : Keyword}
    (starts : t.statementKind? = some (.core word)) :
    t = .keyword word := by
  cases t <;> cases starts
  rfl

/-- Every unit that conforms to the grammar is accepted, however it is written and whether or not
the first wrong count is to end the parse. What is read is the unit, up to spans. -/
theorem parseTokens_of_renders {options : Options} {tokens : TokenStream}
    (conforms : s.Conforms options.strictHeaderOrder) (renders : Renders false s tokens.pending) :
    ∃ s', (parseTokens .anyUnit options tokens).result = .ok s' ∧ s'.bare = s.bare := by
  obtain ⟨unit, readable, clean⟩ := Statement.conforms_iff.mp conforms
  obtain ⟨t, rest, split, opens, reads⟩ := State.reads_back readable conforms.fits renders
  obtain ⟨word, accepted, kind⟩ := exists_accepted unit
  have keyword : t.kind = .keyword word := by
    rw [kind] at opens
    rcases opens with alone | ⟨_, f, _, ⟨⟩⟩
    exact Token.Kind.eq_keyword alone
  have starts : Starter.ofToken? false t.kind = some (.kind (.core word)) := by
    rw [keyword]
    rfl
  obtain ⟨s', es, same, reads⟩ := reads _ [] starts
  have whole : (State.initial .anyUnit).Reads options.strictHeaderOrder tokens.pending
    ⟨[], .complete s'⟩ es := by
    rw [split]
    exact (State.reads_of_move (.unit keyword accepted)).append reads
  obtain ⟨_, _, counted⟩ := State.complete_of_reads whole
  -- What closing blocks report on the way is what is wrong with the counts of the tree that was
  -- read.
  have clean : es = [] := by
    rw [← counted, ← Statement.violations_bare, same, Statement.violations_bare, clean]
  exact ⟨s', parseTokens_result_eq_ok.mpr (clean ▸ whole), same⟩

theorem parseTokens_of_renders_sample : Sample.tree.Conforms true ∧
    Renders false Sample.tree (TokenStream.ofList Sample.tree.write).pending ∧
    ∃ s', (parseTokens .anyUnit {} (.ofList Sample.tree.write)).result = .ok s' ∧
      s'.bare = Sample.tree.bare := by
  have conforms : Sample.tree.Conforms true := by decide +kernel
  have pending : (TokenStream.ofList Sample.tree.write).pending = Sample.tree.write := rfl
  have renders : Renders false Sample.tree (TokenStream.ofList Sample.tree.write).pending := by
    rw [pending]
    exact renders_write conforms.fits (by simp)
  exact ⟨conforms, renders, parseTokens_of_renders conforms renders⟩

end Yang
