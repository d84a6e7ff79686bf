import Yang.Proofs.Statement.Path

/-! Walks call by call. A visitor that keeps a list of the calls made of it answers as it did
without, so this list is what a walk does. Each call is about a statement at the end of some path,
and the calls about a statement hold those about its children between them. -/
namespace Yang.Statement

/-- A call that a walk makes: the statement, the state that the visitor is handed, and what it gives
back. -/
inductive Call (σ : Type) where
  | enter (node : Statement) (before : σ) (answer : Walk) (after : σ)
  | leave (node : Statement) (before after : σ)

namespace Call

variable {σ : Type}

def node : Call σ → Statement
  | enter s .. | leave s .. => s

def entered? : Call σ → Option Statement
  | enter s .. => some s
  | leave .. => none

def left? : Call σ → Option Statement
  | enter .. => none
  | leave s .. => some s

end Call

variable {σ : Type}

/-- The visitor with a list of the calls made of it. -/
def Visitor.logged (v : Visitor σ) : Visitor (σ × List (Call σ)) where
  enter s known :=
    let (answer, state) := v.enter s known.1
    (answer, state, known.2 ++ [.enter s known.1 answer state])
  leave s known :=
    let state := v.leave s known.1
    (state, known.2 ++ [.leave s known.1 state])

/-- The calls that a walk makes, one after another. -/
def calls (v : Visitor σ) (s : Statement) (state : σ) : List (Call σ) :=
  (walk v.logged s (state, [])).2

/-- Calls of a visitor, the first with the state given, each other one with the state that the one
before it gave back, and the state that the last one gives back. -/
inductive Threads (v : Visitor σ) : σ → List (Call σ) → σ → Prop where
  | nil : Threads v a [] a
  | enter (answers : v.enter s a = (answer, b)) (rest : Threads v b cs c) :
    Threads v a (.enter s a answer b :: cs) c
  | leave (answers : v.leave s a = b) (rest : Threads v b cs c) : Threads v a (.leave s a b :: cs) c

/-- What there is to walk below a statement that has been entered: its children, each with the path
to it, or nothing. -/
def offspring (answer : Walk) (p : Path) (s : Statement) : List (Path × Statement) :=
  match answer with
  | .descend => s.children.mapIdx fun i c => (p ++ [i], c)
  | .skip => []

/-- Statements at the ends of their paths, walked one after another from one state to another, with
the calls that this makes and the path for each. -/
inductive Tour (v : Visitor σ) : List (Path × Statement) → σ → List (Path × Call σ) → σ → Prop where
  | nil : Tour v [] a [] a
  | visit (answers : v.enter s a = (answer, b)) (inner : Tour v (offspring answer p s) b cs c)
      (rest : Tour v ts (v.leave s c) ds d) :
    Tour v ((p, s) :: ts) a ((p, .enter s a answer b) :: cs ++ (p, .leave s c (v.leave s c)) :: ds)
      d

variable {v : Visitor σ} {s : Statement} {p : Path} {a b c : σ} {ts us : List (Path × Statement)}
  {cs ds : List (Path × Call σ)}

theorem map_offspring (p : Path) (s : Statement) :
    (offspring .descend p s).map (·.2) = s.children := by
  rw [offspring, List.mapIdx_eq_zipIdx_map, List.map_map]
  exact List.zipIdx_map_fst 0 s.children

theorem mem_offspring {answer : Walk} {t : Path × Statement} :
    t ∈ offspring answer p s ↔ answer = .descend ∧ ∃ i c, t = (p ++ [i], c) ∧
      s.children[i]? = some c := by
  cases answer with
  | skip => simp [offspring]
  | descend =>
    simp only [offspring, List.mem_mapIdx, List.getElem?_eq_some_iff, true_and]
    constructor
    · rintro ⟨i, bound, rfl⟩
      exact ⟨i, _, rfl, bound, rfl⟩
    · rintro ⟨i, _, rfl, bound, rfl⟩
      exact ⟨i, bound, rfl⟩

theorem Tour.append (first : Tour v ts a cs b) (rest : Tour v us b ds c) :
    Tour v (ts ++ us) a (cs ++ ds) c := by
  induction first with
  | nil => exact rest
  | visit answers inner _ _ ih => simpa using Tour.visit answers inner (ih rest)

@[simp] theorem logged_enter (v : Visitor σ) (s : Statement) (state : σ) (log : List (Call σ)) :
    v.logged.enter s (state, log) = ((v.enter s state).1, (v.enter s state).2,
      log ++ [.enter s state (v.enter s state).1 (v.enter s state).2]) := rfl

@[simp] theorem logged_leave (v : Visitor σ) (s : Statement) (state : σ) (log : List (Call σ)) :
    v.logged.leave s (state, log) = (v.leave s state, log ++ [.leave s state (v.leave s state)]) :=
      rfl

/-- Walks through a statement are tours of it, and it is their calls that are logged. -/
def Toured (v : Visitor σ) (s : Statement) : Prop :=
  ∀ p state, ∃ cs, Tour v [(p, s)] state cs (walk v s state) ∧
    ∀ log, walk v.logged s (state, log) = (walk v s state, log ++ cs.map (·.2))

theorem exists_tour_of_toured (each : ∀ t ∈ ts, Toured v t.2) (state : σ) :
    ∃ cs, Tour v ts state cs (walkAll v (ts.map (·.2)) state) ∧
      ∀ log, walkAll v.logged (ts.map (·.2)) (state, log) =
        (walkAll v (ts.map (·.2)) state, log ++ cs.map (·.2)) := by
  induction ts generalizing state with
  | nil => exact ⟨[], .nil, fun log => by simp [walkAll]⟩
  | cons t ts ih =>
    rw [List.forall_mem_cons] at each
    obtain ⟨cs, first, logged⟩ := each.1 t.1 state
    obtain ⟨ds, rest, logged_rest⟩ := ih each.2 (walk v t.2 state)
    refine ⟨cs ++ ds, first.append rest, ?_⟩
    intro log
    simp [walkAll, logged, logged_rest]

theorem toured (v : Visitor σ) (s : Statement) : Toured v s := by
  induction s with
  | node s ih =>
    intro p state
    -- The answer decides whether there is anything to walk between the two calls.
    rcases answers : v.enter s state with ⟨_ | _, after⟩
    · have each : ∀ t ∈ offspring .descend p s, Toured v t.2 := by
        intro t child
        obtain ⟨_, i, c, rfl, found⟩ := mem_offspring.mp child
        exact ih c (List.mem_of_getElem? found)
      obtain ⟨cs, inner, logged⟩ := exists_tour_of_toured each after
      rw [map_offspring] at inner logged
      have left : walk v s state = v.leave s (walkAll v s.children after) := by
        rw [walk_eq, answers]
      rw [left]
      refine ⟨_, .visit answers inner .nil, ?_⟩
      intro log
      simp [walk_eq, answers, logged]
    · have left : walk v s state = v.leave s after := by rw [walk_eq, answers]
      rw [left]
      refine ⟨_, .visit answers .nil .nil, ?_⟩
      intro log
      simp [walk_eq, answers]

/-- The calls of a walk, each with the path of its statement. -/
theorem exists_tour (v : Visitor σ) (s : Statement) (state : σ) :
    ∃ cs, Tour v [([], s)] state cs (walk v s state) ∧ cs.map (·.2) = calls v s state := by
  obtain ⟨cs, tour, logged⟩ := toured v s [] state
  refine ⟨cs, tour, ?_⟩
  rw [calls, logged, List.nil_append]

/-- Logging changes nothing for the visitor. -/
theorem walk_logged (v : Visitor σ) (s : Statement) (state : σ) :
    walk v.logged s (state, []) = (walk v s state, calls v s state) := by
  obtain ⟨cs, _, logged⟩ := toured v s [] state
  rw [calls, logged]

theorem Threads.append {one other : List (Call σ)} (first : Threads v a one b)
    (rest : Threads v b other c) :
    Threads v a (one ++ other) c := by
  induction first with
  | nil => exact rest
  | enter answers _ ih => exact .enter answers (ih rest)
  | leave answers _ ih => exact .leave answers (ih rest)

theorem Tour.threads (tour : Tour v ts a cs b) : Threads v a (cs.map (·.2)) b := by
  induction tour with
  | nil => exact .nil
  | visit answers _ _ inner rest =>
    rw [List.cons_append, List.map_cons, List.map_append]
    exact .enter answers (inner.append (.leave rfl rest))

/-- A visitor that always descends enters statements before their descendants and leaves them after.
-/
theorem Tour.orders (tour : Tour v ts a cs b)
    (descends : ∀ s state, (v.enter s state).1 = .descend) :
    (cs.map (·.2)).filterMap Call.entered? = preorderAll (ts.map (·.2)) ∧
    (cs.map (·.2)).filterMap Call.left? = postorderAll (ts.map (·.2)) := by
  induction tour with
  | nil => exact ⟨rfl, rfl⟩
  | @visit s a _ _ _ _ _ _ _ _ answers _ _ inner rest =>
    obtain rfl : Walk.descend = _ := (descends s a).symm.trans (congrArg Prod.fst answers)
    rw [map_offspring] at inner
    constructor
    · simp [List.filterMap_cons, Call.entered?, inner.1, rest.1, preorderAll, preorder_eq]
    · simp [List.filterMap_cons, Call.left?, inner.2, rest.2, postorderAll, postorder_eq]

end Yang.Statement
