import Yang.Parse.Block
import Yang.Proofs.Grammar.Shape

/-! What the substatements of a block make of its progress. Tokens move a block by the kinds of the
statements that they start, so how far it has come can be told from the kinds of its substatements.
-/
namespace Yang.Parse

open Grammar

namespace Progress

/-- The header statement that comes last in the header's order, once `k` stands behind `highest`. -/
def highestAfter? (strict : Bool) (parent : Statement.Kind) (highest : Option Statement.Kind)
    (k : Statement.Kind) : Option Statement.Kind :=
  match highest with
  | none => some k
  | some previous =>
    if headerRank parent k < headerRank parent previous then if strict then none else some previous
    else some k

/-- How far a substatement takes a block, if the block admits it there. -/
def after? (strict : Bool) (parent : Statement.Kind) : Progress → Statement.Kind → Option Progress
  | plain, k => if permits (rule parent).substatements k then some plain else none
  | restrictions shape, k =>
    if k = .extension then some (restrictions shape)
    else (TypeShape.behind? shape k).map (restrictions ∘ some)
  | unit present highest, k =>
    (region? parent k).bind fun region =>
      if region.index < present.index then none
      else if region = .header then
        (highestAfter? strict parent highest k).map (unit .header ∘ some)
      else some (unit region highest)

/-- How far substatements take a block of the given kind from its beginning. -/
def afterAll? (strict : Bool) (parent : Statement.Kind) (kinds : List Statement.Kind) :
    Option Progress :=
  kinds.foldlM (after? strict parent) (first parent)

theorem afterAll?_append (strict : Bool) (parent : Statement.Kind) (kinds : List Statement.Kind)
    (k : Statement.Kind) :
    afterAll? strict parent (kinds ++ [k]) = (afterAll? strict parent kinds).bind
      (after? strict parent · k) := by
  simp [afterAll?]

/-- Blocks of the kind make progress of this sort. -/
def Suits (parent : Statement.Kind) : Progress → Prop
  | plain => ¬ parent.isUnit ∧ parent ≠ .core .type
  | restrictions _ => parent = .core .type
  | unit _ _ => parent.isUnit

variable {strict : Bool} {parent k : Statement.Kind} {p q : Progress} {kinds : List Statement.Kind}

theorem suits_first (parent : Statement.Kind) : (first parent).Suits parent := by
  unfold first
  split
  · assumption
  · split
    · assumption
    · exact ⟨‹_›, ‹_›⟩

theorem Suits.after (suits : p.Suits parent) (taken : after? strict parent p k = some q) :
    q.Suits parent := by
  cases p with
  | plain =>
    simp only [after?] at taken
    split at taken
    · cases taken
      exact suits
    · contradiction
  | restrictions shape =>
    simp only [after?] at taken
    split at taken
    · cases taken
      exact suits
    · obtain ⟨_, _, rfl⟩ := Option.map_eq_some_iff.mp taken
      exact suits
  | unit present highest =>
    obtain ⟨region, _, taken⟩ := Option.bind_eq_some_iff.mp taken
    split at taken
    · contradiction
    · split at taken
      · obtain ⟨_, _, rfl⟩ := Option.map_eq_some_iff.mp taken
        exact suits
      · cases taken
        exact suits

theorem Suits.foldlM (suits : p.Suits parent)
    (taken : kinds.foldlM (after? strict parent) p = some q) :
    q.Suits parent := by
  induction kinds generalizing p with
  | nil =>
    cases taken
    exact suits
  | cons k kinds ih =>
    obtain ⟨r, taken, later⟩ := Option.bind_eq_some_iff.mp taken
    exact ih (suits.after taken) later

/-- A block admits all forms of `deviate` or none, and they take it equally far. -/
theorem after?_deviate (strict : Bool) (parent : Statement.Kind) (p : Progress)
    (f g : DeviateForm) :
    p.after? strict parent (.deviate f) = p.after? strict parent (.deviate g) := by
  cases p with
  | plain =>
    have same : permits (rule parent).substatements (.deviate f) ↔
      permits (rule parent).substatements (.deviate g) :=
      ⟨fun permitted => permits_deviate permitted rfl g,
        fun permitted => permits_deviate permitted rfl f⟩
    simp only [after?, same]
  | restrictions shape =>
    cases shape with
    | none => rfl
    | some known => cases known <;> rfl
  | unit present highest => simp only [after?, region?_deviate, Option.bind_none]

theorem suits_of_afterAll? (taken : afterAll? strict parent kinds = some p) : p.Suits parent :=
  (suits_first parent).foldlM taken

end Progress

/-- What a token starts, inside an extension statement or anywhere else. -/
def Starter.ofToken? (inExtension : Bool) (t : Token.Kind) : Option Starter :=
  if inExtension then if t.startsStatement then some (kind .extension) else none
  else if t = .deviate then some deviate
  else t.statementKind?.map kind

/-- A starter takes a block to the given progress, whatever kind of statement it turns out to start.
-/
def Starter.Takes (strict : Bool) (parent : Statement.Kind) (p : Progress) (starter : Starter)
    (q : Progress) :
    Prop :=
  ∀ value k, starter.resolve? value = some k → Progress.after? strict parent p k = some q

variable {strict : Bool} {parent k : Statement.Kind} {p q : Progress} {b : Block} {t : Token}
  {starter : Starter}

theorem Starter.takes_kind : (Starter.kind k).Takes strict parent p q ↔
    p.after? strict parent k = some q := by
  simp [Takes, resolve?]

theorem Starter.takes_deviate :
    Starter.deviate.Takes strict parent p q ↔ ∀ f, p.after? strict parent (.deviate f) =
      some q := by
  constructor
  · intro takes f
    apply takes f.argument
    rw [resolve?, DeviateForm.ofArgument?_eq_some.mpr rfl]
    rfl
  · intro takes value k resolved
    obtain ⟨f, _, rfl⟩ := Option.map_eq_some_iff.mp resolved
    exact takes f

theorem Starter.ofToken?_eq_some {t : Token.Kind} : ofToken? false t = some starter ↔
    t = .deviate ∧ deviate = starter ∨ ∃ k, t.statementKind? = some k ∧ kind k = starter := by
  by_cases deviate : t = .deviate
  · simp [ofToken?, deviate, Token.Kind.statementKind?]
  · simp [ofToken?, deviate]

theorem Starter.ne_rightBrace_of_ofToken? {inExtension : Bool} {t : Token.Kind}
    (starts : ofToken? inExtension t = some starter) : t ≠ .rightBrace := by
  rintro rfl
  cases inExtension <;> contradiction

theorem Starter.startsStatement_of_ofToken? {inExtension : Bool} {t : Token.Kind}
    (starts : ofToken? inExtension t = some starter) : t.startsStatement := by
  cases inExtension with
  | true => exact (Option.ite_none_right_eq_some.mp starts).1
  | false => cases t <;> first | rfl | contradiction

theorem Starter.eq_extension_of_ofToken? {t : Token.Kind}
    (starts : ofToken? true t = some starter) :
    starter = kind .extension := by
  simp only [ofToken?, if_true, Option.ite_none_right_eq_some, Option.some.injEq] at starts
  exact starts.2.symm

theorem Starter.isDeviate_of_ofToken? {inExtension : Bool} {t : Token.Kind}
    (starts : ofToken? inExtension t = some (kind k)) : k.isDeviate = false := by
  cases inExtension with
  | true =>
    cases eq_extension_of_ofToken? starts
    rfl
  | false =>
    rcases ofToken?_eq_some.mp starts with ⟨_, ⟨⟩⟩ | ⟨l, alone, ⟨⟩⟩
    cases t <;> cases alone <;> rfl

theorem Starter.Takes.eq_plain (takes : starter.Takes strict parent .plain p) : p = .plain := by
  have eq_plain (k : Statement.Kind) (taken : Progress.after? strict parent .plain k = some p) :
    p = .plain := by
    simp only [Progress.after?, Option.ite_none_right_eq_some, Option.some.injEq] at taken
    exact taken.2.symm
  cases starter with
  | kind k => exact eq_plain k (takes_kind.mp takes)
  | deviate => exact eq_plain _ (takes_deviate.mp takes .add)

/-- Where no form of `deviate` is taken, a token starts what it starts by itself. -/
theorem Starter.ofToken?_and_takes {t : Token.Kind}
    (undeviating : p.after? strict parent (.deviate .add) = none) :
    ofToken? false t = some starter ∧ starter.Takes strict parent p q ↔
      ∃ k, t.statementKind? = some k ∧ kind k = starter ∧ p.after? strict parent k = some q := by
  rw [ofToken?_eq_some]
  constructor
  · rintro ⟨⟨_, rfl⟩ | ⟨k, starts, rfl⟩, takes⟩
    · cases undeviating.symm.trans (takes_deviate.mp takes .add)
    · exact ⟨k, starts, rfl, takes_kind.mp takes⟩
  · rintro ⟨k, starts, rfl, taken⟩
    exact ⟨.inr ⟨k, starts, rfl⟩, takes_kind.mpr taken⟩

theorem Starter.inside?_extension (t : Token.Kind) : inside? .extension t = ofToken? true t := by
  cases t <;> rfl

theorem Starter.inside?_eq_some (other : parent ≠ .extension) {t : Token.Kind} :
    inside? parent t = some starter ↔
      ofToken? false t = some starter ∧ starter.Takes strict parent .plain .plain := by
  have taken (k : Statement.Kind) : Progress.after? strict parent .plain k = some .plain ↔
      permits (rule parent).substatements k := by simp [Progress.after?]
  have rules : inside? parent t = ofRules? (rule parent).substatements t := by
    simp [inside?, other]
  rw [rules, ofToken?_eq_some]
  by_cases deviates : t = .deviate
  · subst deviates
    simp only [ofRules?, Token.Kind.statementKind?, ↓reduceIte]
    constructor
    · intro started
      split at started
      · cases started
        exact ⟨.inl ⟨trivial, rfl⟩, takes_deviate.mpr fun f => (taken _).mpr
          (any_isDeviate_iff.mp ‹_› f)⟩
      · contradiction
    · rintro ⟨⟨_, rfl⟩ | ⟨_, ⟨⟩, _⟩, takes⟩
      rw [if_pos (any_isDeviate_iff.mpr fun f => (taken _).mp (takes_deviate.mp takes f))]
  · simp only [ofRules?, deviates, if_false, Option.map_eq_some_iff, Option.filter_eq_some_iff,
      false_and, false_or]
    constructor
    · rintro ⟨k, ⟨starts, permitted⟩, rfl⟩
      exact ⟨⟨k, starts, rfl⟩, takes_kind.mpr ((taken k).mpr permitted)⟩
    · rintro ⟨⟨k, starts, rfl⟩, takes⟩
      exact ⟨k, ⟨starts, (taken k).mp (takes_kind.mp takes)⟩, rfl⟩

namespace Block

theorem receiveRestriction_of_restriction {shape : Option TypeShape} (type : b.kind = .core .type)
    (starts : t.kind.statementKind? = some k) (restriction : k ≠ .extension) :
    b.receiveRestriction shape t = .ok (starter, p) ↔
      .kind k = starter ∧ Progress.after? strict b.kind (.restrictions shape) k = some p := by
  have taken : Progress.after? strict b.kind (.restrictions shape) k =
      (TypeShape.behind? shape k).map (Progress.restrictions ∘ some) := by
    simp [Progress.after?, restriction]
  rw [taken, receiveRestriction, starts]
  constructor
  · intro received
    split at received
    · contradiction
    · cases ‹some k = some .extension›
      contradiction
    · rename_i same
      cases same
      split at received
      · rename_i permitted
        cases shape with
        | none =>
          rw [type, ← TypeShape.isSome_ofFirst? restriction] at permitted
          obtain ⟨first, begins⟩ := Option.isSome_iff_exists.mp permitted
          cases received
          exact ⟨rfl, by simp [TypeShape.behind?, begins]⟩
        | some known =>
          cases extended : known.extend? k with
          | none => simp [extended] at received
          | some next =>
            simp only [extended] at received
            cases received
            exact ⟨rfl, by simp [TypeShape.behind?, extended]⟩
      · contradiction
  · rintro ⟨rfl, taken⟩
    obtain ⟨next, joined, rfl⟩ := Option.map_eq_some_iff.mp taken
    have permitted := TypeShape.permits_of_behind? joined
    rw [← type] at permitted
    cases shape with
    | none =>
      simp only [TypeShape.behind?] at joined
      simp [permitted, joined]
    | some known =>
      simp only [TypeShape.behind?] at joined
      simp [permitted, joined]

theorem receiveRestriction_eq_ok {shape : Option TypeShape} (type : b.kind = .core .type) :
    b.receiveRestriction shape t = .ok (starter, p) ↔
      Starter.ofToken? false t.kind = some starter ∧
        starter.Takes strict b.kind (.restrictions shape) p := by
  have undeviating : Progress.after? strict b.kind (.restrictions shape)
    (.deviate .add) = none := by
    cases shape with
    | none => rfl
    | some known => cases known <;> rfl
  rw [Starter.ofToken?_and_takes undeviating]
  cases starts : t.kind.statementKind? with
  | none => simp [receiveRestriction, starts]
  | some k =>
    simp only [Option.some.injEq, exists_eq_left']
    by_cases extension : k = .extension
    · subst extension
      simp [receiveRestriction, starts, Progress.after?]
    · exact receiveRestriction_of_restriction type starts extension

theorem receiveHeader_eq_ok {highest : Option Statement.Kind} :
    b.receiveHeader strict highest k = .ok (starter, p) ↔
      .kind k = starter ∧
        (Progress.highestAfter? strict b.kind highest k).map (Progress.unit .header ∘ some) =
          some p := by
  unfold receiveHeader Progress.highestAfter?
  cases highest with
  | none => simp
  | some previous =>
    by_cases lower : headerRank b.kind k < headerRank b.kind previous
    · cases strict <;> simp [lower]
    · simp [lower]

theorem receiveInUnit_eq_ok {present : Region} {highest : Option Statement.Kind} :
    b.receiveInUnit strict present highest t = .ok (starter, p) ↔
      Starter.ofToken? false t.kind = some starter ∧
        starter.Takes strict b.kind (.unit present highest) p := by
  have undeviating : Progress.after? strict b.kind (.unit present highest)
    (.deviate .add) = none := by
    simp [Progress.after?, region?_deviate]
  rw [Starter.ofToken?_and_takes undeviating]
  cases starts : t.kind.statementKind? with
  | none => simp [receiveInUnit, starts]
  | some k =>
    cases found : region? b.kind k with
    | none => simp [receiveInUnit, starts, found, Progress.after?]
    | some region =>
      simp only [receiveInUnit, starts, found, Progress.after?, Option.some.injEq, exists_eq_left',
        Option.bind_some]
      split
      · simp
      · split
        · exact receiveHeader_eq_ok
        · simp

/-- A token moves a block just when it starts a statement and the block admits what it starts. -/
theorem receive_eq_ok (suits : b.progress.Suits b.kind) : b.receive strict t = .ok (starter, p) ↔
    Starter.ofToken? (b.kind = .extension) t.kind = some starter ∧
      starter.Takes strict b.kind b.progress p := by
  unfold receive
  split
  · rename_i plain
    rw [plain]
    constructor
    · intro received
      split at received
      · rename_i inside
        cases received
        by_cases extension : b.kind = .extension
        · rw [extension, Starter.inside?_extension] at inside
          cases Starter.eq_extension_of_ofToken? inside
          rw [extension]
          exact ⟨inside, Starter.takes_kind.mpr rfl⟩
        · simpa [extension] using (Starter.inside?_eq_some extension).mp inside
      · contradiction
    · rintro ⟨starts, takes⟩
      obtain rfl := takes.eq_plain
      have inside : Starter.inside? b.kind t.kind = some starter := by
        by_cases extension : b.kind = .extension
        · simpa [extension, Starter.inside?_extension] using starts
        · exact (Starter.inside?_eq_some extension).mpr ⟨by simpa [extension] using starts, takes⟩
      rw [inside]
  · rename_i shape restrictions
    rw [restrictions] at suits ⊢
    have other : b.kind ≠ .extension := by
      rw [show b.kind = _ from suits]
      simp
    simpa [other] using receiveRestriction_eq_ok suits
  · rename_i present highest unit
    rw [unit] at suits ⊢
    simpa [(Statement.Kind.ne_of_isUnit suits).2] using receiveInUnit_eq_ok

end Block

end Yang.Parse
