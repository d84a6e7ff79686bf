import Yang.Statement.Basic

/-! Going through a statement tree: the recursive orders, a cursor over the descendants of a
statement that keeps the statements still to be shown, and visits that enter and leave each
statement with a state of their own. -/
namespace Yang.Statement

mutual

/-- A statement before its descendants, in the order of the text. -/
def preorder : Statement → List Statement
  | s@⟨_, _, _, children, _⟩ => s :: preorderAll children

def preorderAll : List Statement → List Statement
  | [] => []
  | s :: rest => preorder s ++ preorderAll rest

end

mutual

/-- A statement after its descendants. -/
def postorder : Statement → List Statement
  | s@⟨_, _, _, children, _⟩ => postorderAll children ++ [s]

def postorderAll : List Statement → List Statement
  | [] => []
  | s :: rest => postorder s ++ postorderAll rest

end

theorem preorder_eq (s : Statement) : s.preorder = s :: preorderAll s.children := by
  cases s; rfl

theorem postorder_eq (s : Statement) : s.postorder = postorderAll s.children ++ [s] := by
  cases s; rfl

theorem preorderAll_append (ss ts : List Statement) :
    preorderAll (ss ++ ts) = preorderAll ss ++ preorderAll ts := by
  induction ss with
  | nil => rfl
  | cons s ss ih => simp [preorderAll, ih]

structure Descendants where
  pending : List Statement

namespace Descendants

/-- The descendants of a statement begin with its children. -/
def below (s : Statement) : Descendants := ⟨s.children⟩

/-- Shows a statement and puts its children before what was pending. -/
def next? : Descendants → Option (Statement × Descendants)
  | ⟨[]⟩ => none
  | ⟨s :: rest⟩ => some (s, ⟨s.children ++ rest⟩)

def remaining (d : Descendants) : Nat := (preorderAll d.pending).length

theorem remaining_next {d e : Descendants} {s : Statement} (shown : d.next? = some (s, e)) :
    e.remaining < d.remaining := by
  obtain ⟨_ | ⟨t, rest⟩⟩ := d
  · simp [next?] at shown
  · simp only [next?, Option.some.injEq, Prod.mk.injEq] at shown
    obtain ⟨rfl, rfl⟩ := shown
    simp only [remaining, preorderAll_append, preorderAll, preorder_eq, List.length_append,
      List.length_cons]
    omega

/-- Everything a cursor shows, one statement at a time. -/
def toList (d : Descendants) : List Statement :=
  match _ : d.next? with
  | none => []
  | some (s, rest) => s :: rest.toList
termination_by d.remaining
decreasing_by exact remaining_next ‹_›

/-- A cursor shows the statements that are pending, each with its descendants behind it. -/
theorem toList_eq (d : Descendants) : d.toList = preorderAll d.pending := by
  fun_induction toList d with
  | case1 d done =>
    obtain ⟨_ | ⟨s, rest⟩⟩ := d
    · rfl
    · simp [next?] at done
  | case2 d s rest shown ih =>
    obtain ⟨_ | ⟨t, later⟩⟩ := d
    · simp [next?] at shown
    · simp only [next?, Option.some.injEq, Prod.mk.injEq] at shown
      obtain ⟨rfl, rfl⟩ := shown
      simp [ih, preorderAll, preorder_eq, preorderAll_append]

end Descendants

def descendants (s : Statement) : List Statement := (Descendants.below s).toList

/-- What a visit does after it has entered a statement. -/
inductive Walk where
  | descend
  | skip
deriving DecidableEq

/-- How a visit enters and leaves a statement, with a state of its own. -/
structure Visitor (σ : Type) where
  enter : Statement → σ → Walk × σ := fun _ state => (.descend, state)
  leave : Statement → σ → σ := fun _ state => state

mutual

/-- Enters the statement, walks its children unless the visitor skips them, and leaves it either
way. -/
def walk (v : Visitor σ) : Statement → σ → σ
  | s@⟨_, _, _, children, _⟩, state =>
    match v.enter s state with
    | (.descend, state) => v.leave s (walkAll v children state)
    | (.skip, state) => v.leave s state

def walkAll (v : Visitor σ) : List Statement → σ → σ
  | [], state => state
  | s :: rest, state => walkAll v rest (walk v s state)

end

theorem walk_eq (v : Visitor σ) (s : Statement) (state : σ) :
    walk v s state =
      match v.enter s state with
      | (.descend, state) => v.leave s (walkAll v s.children state)
      | (.skip, state) => v.leave s state := by
  cases s; rfl

end Yang.Statement
