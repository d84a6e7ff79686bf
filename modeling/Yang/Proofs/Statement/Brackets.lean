import Yang.Proofs.Statement.Tour

/-! How the calls of a walk are nested. The calls that enter and leave a statement are like a pair
of brackets around the calls about its descendants, whatever the visitor makes of its state. -/
namespace Yang.Statement

variable {σ : Type}

/-- At a path there are two calls, one that enters the statement and behind it one that leaves it.
The calls about its descendants are all between these two, and there are no others; if the visitor
skips the children, there are none at all. -/
inductive Brackets (p : Path) : List (Path × Call σ) → Prop where
  | mk (inside : ∀ x ∈ between, p <+: x.1 ∧ x.1 ≠ p) (outside : ∀ x ∈ front ++ back, ¬ p <+: x.1)
      (skips : answer = .skip → between = []) :
    Brackets p (front ++ (p, .enter s a answer b) :: between ++ (p, .leave s c d) :: back)

/-- The statement at a path is entered, with the given answer. -/
def Answers (cs : List (Path × Call σ)) (p : Path) (answer : Walk) : Prop :=
  ∃ s a b, (p, .enter s a answer b) ∈ cs

variable {v : Visitor σ} {s root : Statement} {p : Path} {answer : Walk} {a b c d : σ}
  {ts : List (Path × Statement)} {cs front back : List (Path × Call σ)}

/-- What is outside a statement can be put around the calls about it. -/
theorem Brackets.around (brackets : Brackets p cs) (outside : ∀ x ∈ front ++ back, ¬ p <+: x.1) :
    Brackets p (front ++ cs ++ back) := by
  cases brackets with
  | @mk _ before behind _ _ _ _ _ _ inside others skips =>
    have apart : ∀ x ∈ (front ++ before) ++ (behind ++ back), ¬ p <+: x.1 := by
      intro x member
      simp only [List.mem_append] at member outside others
      rcases member with (first | second) | (third | last)
      · exact outside x (.inl first)
      · exact others x (.inl second)
      · exact others x (.inr third)
      · exact outside x (.inr last)
    simpa using Brackets.mk inside apart skips

/-- Calls are about the statements that are walked and their descendants. -/
theorem Tour.above (tour : Tour v ts a cs b) : ∀ x ∈ cs, ∃ t ∈ ts, t.1 <+: x.1 := by
  induction tour with
  | nil => exact fun _ member => nomatch member
  | @visit s _ _ _ p _ _ ts _ _ _ _ _ inner rest =>
    simp only [List.cons_append, List.forall_mem_cons, List.forall_mem_append]
    have self : ∃ t ∈ (p, s) :: ts, t.1 <+: p := ⟨_, List.mem_cons_self, List.prefix_rfl⟩
    refine ⟨self, ?_, self, ?_⟩
    · intro x member
      obtain ⟨t, child, above⟩ := inner x member
      obtain ⟨_, i, c, rfl, _⟩ := mem_offspring.mp child
      exact ⟨_, List.mem_cons_self, (List.prefix_append p [i]).trans above⟩
    · intro x member
      obtain ⟨t, later, above⟩ := rest x member
      exact ⟨t, List.mem_cons_of_mem _ later, above⟩

theorem Tour.inside (tour : Tour v (offspring answer p s) a cs b) :
    ∀ x ∈ cs, p <+: x.1 ∧ x.1 ≠ p := by
  intro x member
  obtain ⟨t, child, above⟩ := tour.above x member
  obtain ⟨_, i, c, rfl, _⟩ := mem_offspring.mp child
  refine ⟨(List.prefix_append p [i]).trans above, ?_⟩
  intro same
  have longer := above.length_le
  simp only [same, List.length_append, List.length_singleton] at longer
  omega

theorem Tour.behind (tour : Tour v ts a cs b) (ahead : ∀ t ∈ ts, Precedes p t.1) :
    ∀ x ∈ cs, Precedes p x.1 := by
  intro x member
  obtain ⟨t, walked, above⟩ := tour.above x member
  exact (ahead t walked).extend List.prefix_rfl above

/-- Calls about the descendants of a statement, and calls about what is behind it. -/
theorem Tour.apart (inner : Tour v (offspring answer p s) a front b) (rest : Tour v ts c back d)
    (ahead : ∀ t ∈ ts, Precedes p t.1) : ∀ x ∈ front, ∀ y ∈ back, Precedes x.1 y.1 := by
  intro x below y later
  exact (rest.behind ahead y later).extend (inner.inside x below).1 List.prefix_rfl

theorem offspring_pairwise (answer : Walk) (p : Path) (s : Statement) :
    (offspring answer p s).Pairwise fun t u => Precedes t.1 u.1 := by
  cases answer with
  | skip => exact .nil
  | descend =>
    rw [List.pairwise_iff_getElem]
    intro i j _ _ before
    simpa [offspring] using precedes_concat before p

/-- Of two calls the later is about a statement above that of the earlier, or behind it in the text.
-/
theorem Tour.ordered (tour : Tour v ts a cs b) (apart : ts.Pairwise fun t u => Precedes t.1 u.1) :
    cs.Pairwise fun x y => y.1 <+: x.1 ∨ x.1 < y.1 := by
  induction tour with
  | nil => exact .nil
  | @visit s _ _ _ p _ _ _ _ _ _ inner rest inner_ordered rest_ordered =>
    rw [List.pairwise_cons] at apart
    have behind := rest.behind apart.1
    rw [List.cons_append, List.pairwise_cons, List.pairwise_append, List.pairwise_cons]
    simp only [List.forall_mem_cons, List.forall_mem_append]
    refine ⟨⟨?_, .inl List.prefix_rfl, ?_⟩, inner_ordered (offspring_pairwise _ p s),
      ⟨?_, rest_ordered apart.2⟩, ?_⟩
    · intro x below
      exact .inr (lt_of_extends (inner.inside x below).1 (inner.inside x below).2)
    · intro y later
      exact .inr (behind y later).lt
    · intro y later
      exact .inr (behind y later).lt
    · intro x below
      refine ⟨.inl (inner.inside x below).1, ?_⟩
      intro y later
      exact .inr (inner.apart rest apart.1 x below y later).lt

/-- The calls that enter and leave a statement are around those that are made in between. -/
theorem Tour.brackets_self (inner : Tour v (offspring answer p s) b cs c)
    (behind : ∀ x ∈ back, ¬ p <+: x.1) :
    Brackets p ((p, .enter s a answer b) :: cs ++ (p, .leave s c d) :: back) := by
  have outside : ∀ x ∈ [] ++ back, ¬ p <+: x.1 := behind
  have skips : answer = .skip → cs = [] := by
    rintro rfl
    cases inner
    rfl
  exact .mk inner.inside outside skips

theorem Tour.brackets (tour : Tour v ts a cs b) (apart : ts.Pairwise fun t u => Precedes t.1 u.1) :
    ∀ x ∈ cs, Brackets x.1 cs := by
  induction tour with
  | nil => exact fun _ member => nomatch member
  | @visit s a answer b p cs c _ ds _ _ inner rest inner_brackets rest_brackets =>
    rw [List.pairwise_cons] at apart
    have behind := rest.behind apart.1
    have self : Brackets p
      ((p, .enter s a answer b) :: cs ++ (p, .leave s c (v.leave s c)) :: ds) :=
      inner.brackets_self fun y later => (behind y later).apart.1
    simp only [List.cons_append, List.forall_mem_cons, List.forall_mem_append] at self ⊢
    refine ⟨self, ?_, self, ?_⟩
    · -- A descendant: outside are the calls about the statement itself and those about what is
      -- behind it.
      intro x below
      obtain ⟨above, other⟩ := inner.inside x below
      have self_outside : ¬ x.1 <+: p := fun same => other (same.eq_of_length_le above.length_le)
      have outside : ∀ y ∈ [(p, .enter s a answer b)] ++ (p, .leave s c (v.leave s c)) :: ds,
        ¬ x.1 <+: y.1 := by
        simp only [List.singleton_append, List.forall_mem_cons]
        exact ⟨self_outside, self_outside,
          fun y later => (inner.apart rest apart.1 x below y later).apart.1⟩
      simpa using (inner_brackets (offspring_pairwise answer p s) x below).around outside
    · -- Something behind: outside are all the calls about the statement and its descendants.
      intro y later
      have self_outside : ¬ y.1 <+: p := (behind y later).apart.2
      have outside : ∀ x ∈ ((p, .enter s a answer b) :: cs ++ [(p, .leave s c (v.leave s c))]) ++
        [], ¬ y.1 <+: x.1 := by
        simp only [List.append_nil, List.cons_append, List.forall_mem_cons, List.forall_mem_append]
        exact ⟨self_outside, fun x below => (inner.apart rest apart.1 x below y later).apart.2,
          self_outside,
          fun _ impossible => nomatch impossible⟩
      simpa using (rest_brackets apart.2 y later).around outside

theorem at?_offspring (placed : root.at? p = some s) :
    ∀ t ∈ offspring answer p s, root.at? t.1 = some t.2 := by
  intro t child
  obtain ⟨_, i, c, rfl, found⟩ := mem_offspring.mp child
  exact (at?_concat placed i).trans found

theorem Tour.located (tour : Tour v ts a cs b) (placed : ∀ t ∈ ts, root.at? t.1 = some t.2) :
    ∀ x ∈ cs, root.at? x.1 = some x.2.node := by
  induction tour with
  | nil => exact fun _ member => nomatch member
  | visit _ _ _ inner rest =>
    rw [List.forall_mem_cons] at placed
    simp only [List.cons_append, List.forall_mem_cons, List.forall_mem_append]
    exact ⟨placed.1, inner (at?_offspring placed.1), placed.1, rest placed.2⟩

theorem answers_visit {q : Path} {other : Walk} :
    Answers ((p, .enter s a answer b) :: front ++ (p, .leave s c d) :: back) q other ↔
      q = p ∧ other = answer ∨ Answers front q other ∨ Answers back q other := by
  constructor
  · rintro ⟨n, before, after, member⟩
    simp only [List.cons_append, List.mem_cons, List.mem_append, Prod.mk.injEq, Call.enter.injEq,
      reduceCtorEq, and_false, false_or] at member
    rcases member with ⟨rfl, _, _, rfl, _⟩ | inner | later
    · exact .inl ⟨rfl, rfl⟩
    · exact .inr (.inl ⟨n, before, after, inner⟩)
    · exact .inr (.inr ⟨n, before, after, later⟩)
  · rintro (⟨rfl, rfl⟩ | ⟨n, before, after, inner⟩ | ⟨n, before, after, later⟩)
    · exact ⟨s, a, b, by simp⟩
    · exact ⟨n, before, after, by simp [inner]⟩
    · exact ⟨n, before, after, by simp [later]⟩

/-- Besides the statements walked, those are entered whose parent is entered and descended into. -/
theorem Tour.answers_iff (tour : Tour v ts a cs b) (placed : ∀ t ∈ ts, root.at? t.1 = some t.2) :
    (∃ answer, Answers cs p answer) ↔
      (∃ t ∈ ts, p = t.1) ∨ ∃ q i, p = q ++ [i] ∧ Answers cs q .descend ∧ (root.at? p).isSome := by
  induction tour with
  | nil => simp [Answers]
  | @visit s a answer b r cs c ts ds _ _ _ _ inner rest =>
    rw [List.forall_mem_cons] at placed
    have inner := inner (at?_offspring placed.1)
    have rest := rest placed.2
    simp only [answers_visit]
    constructor
    · rintro ⟨other, ⟨rfl, rfl⟩ | entered | entered⟩
      · exact .inl ⟨_, List.mem_cons_self, rfl⟩
      · rcases inner.mp ⟨other, entered⟩ with ⟨t, child, rfl⟩ | ⟨q, i, rfl, parent, stays⟩
        · obtain ⟨rfl, i, n, rfl, found⟩ := mem_offspring.mp child
          exact .inr ⟨r, i, rfl, .inl ⟨rfl, rfl⟩, by simp [at?_concat placed.1, found]⟩
        · exact .inr ⟨q, i, rfl, .inr (.inl parent), stays⟩
      · rcases rest.mp ⟨other, entered⟩ with ⟨t, later, rfl⟩ | ⟨q, i, rfl, parent, stays⟩
        · exact .inl ⟨t, List.mem_cons_of_mem _ later, rfl⟩
        · exact .inr ⟨q, i, rfl, .inr (.inr parent), stays⟩
    · rintro (⟨t, walked, rfl⟩ | ⟨q, i, rfl, ⟨rfl, rfl⟩ | parent | parent, stays⟩)
      · rcases List.mem_cons.mp walked with rfl | later
        · exact ⟨answer, .inl ⟨rfl, rfl⟩⟩
        · obtain ⟨other, entered⟩ := rest.mpr (.inl ⟨t, later, rfl⟩)
          exact ⟨other, .inr (.inr entered)⟩
      · obtain ⟨n, found⟩ := Option.isSome_iff_exists.mp stays
        rw [at?_concat placed.1] at found
        obtain ⟨other, entered⟩ :=
          inner.mpr (.inl ⟨_, mem_offspring.mpr ⟨rfl, i, n, rfl, found⟩, rfl⟩)
        exact ⟨other, .inr (.inl entered)⟩
      · obtain ⟨other, entered⟩ := inner.mpr (.inr ⟨q, i, rfl, parent, stays⟩)
        exact ⟨other, .inr (.inl entered)⟩
      · obtain ⟨other, entered⟩ := rest.mpr (.inr ⟨q, i, rfl, parent, stays⟩)
        exact ⟨other, .inr (.inr entered)⟩

/-- A walk through a tree makes calls one after another, each with the state that the one before it
gave back, beginning with the state given and ending with the result. Each call is about a statement
at the end of some path. Those that enter and leave it are around the calls about its descendants,
of which there are none if the visitor skips the children. A statement other than the root is
entered just when its parent is and the visitor then descends. And statements are met in the order
of the text: after one call comes another only about a statement above, or behind. -/
theorem calls_bracketed (v : Visitor σ) (s : Statement) (state : σ) :
    walk v.logged s (state, []) = (walk v s state, calls v s state) ∧
    Threads v state (calls v s state) (walk v s state) ∧
    ∃ cs : List (Path × Call σ), cs.map (·.2) = calls v s state ∧
      (∀ x ∈ cs, s.at? x.1 = some x.2.node) ∧
      (∀ x ∈ cs, Brackets x.1 cs) ∧
      (∀ p, (∃ answer, Answers cs p answer) ↔
        p = [] ∨ ∃ q i, p = q ++ [i] ∧ Answers cs q .descend ∧ (s.at? p).isSome) ∧
      cs.Pairwise fun x y => y.1 <+: x.1 ∨ x.1 < y.1 := by
  obtain ⟨cs, tour, logged⟩ := exists_tour v s state
  have placed : ∀ t ∈ [(([] : Path), s)], s.at? t.1 = some t.2 := by simp [at?]
  have apart : [(([] : Path), s)].Pairwise fun t u => Precedes t.1 u.1 :=
    List.pairwise_singleton _ _
  refine ⟨walk_logged v s state, logged ▸ tour.threads, cs, logged, tour.located placed,
    tour.brackets apart, ?_,
    tour.ordered apart⟩
  intro p
  simpa using tour.answers_iff placed (p := p)

end Yang.Statement
