import Yang.Proofs.Statement.Preorder

/-! Paths into a tree. The same statement can stand at several places of a tree, and it is its path
that tells one from the other. Compared as words over the numbers, paths come in the order of the
text: that of a statement before those of its descendants, and these before those of its later
siblings and their descendants. -/
namespace Yang.Statement

/-- The way down a tree: which child to take, one after another. -/
abbrev Path := List Nat

/-- The statement that a path leads to, if it stays in the tree. -/
def at? (s : Statement) : Path → Option Statement
  | [] => some s
  | i :: p => s.children[i]?.bind (·.at? p)

mutual

/-- The paths into a tree, in the order of the text. -/
def paths : Statement → List Path
  | ⟨_, _, _, children, _⟩ => [] :: pathsFrom 0 children

/-- The paths into trees that are numbered from some number on. -/
def pathsFrom : Nat → List Statement → List Path
  | _, [] => []
  | i, s :: rest => (paths s).map (i :: ·) ++ pathsFrom (i + 1) rest

end

/-- The paths to the descendants of a statement, in the order of the text. -/
def pathsBelow (s : Statement) : List Path := pathsFrom 0 s.children

variable {s c : Statement} {ss : List Statement} {p q r x y : Path} {i j : Nat}

theorem paths_eq (s : Statement) : s.paths = [] :: s.pathsBelow := by
  cases s; rfl

theorem at?_append (s : Statement) (p q : Path) : s.at? (p ++ q) = (s.at? p).bind (·.at? q) := by
  induction p generalizing s with
  | nil => rfl
  | cons i p ih =>
    simp only [List.cons_append, at?]
    cases s.children[i]? with
    | none => rfl
    | some c => exact ih c

theorem at?_concat (found : s.at? p = some c) (i : Nat) : s.at? (p ++ [i]) = c.children[i]? := by
  simp [at?_append, found, at?]

theorem mem_pathsFrom :
    p ∈ pathsFrom i ss ↔ ∃ j q c, p = (i + j) :: q ∧ ss[j]? = some c ∧ q ∈ c.paths := by
  induction ss generalizing i with
  | nil => simp [pathsFrom]
  | cons s ss ih =>
    rw [pathsFrom, List.mem_append, List.mem_map, ih]
    constructor
    · rintro (⟨q, inside, rfl⟩ | ⟨j, q, c, rfl, found, inside⟩)
      · exact ⟨0, q, s, rfl, rfl, inside⟩
      · exact ⟨j + 1, q, c, by rw [Nat.add_right_comm, Nat.add_assoc], found, inside⟩
    · rintro ⟨_ | j, q, c, rfl, found, inside⟩
      · cases found
        exact .inl ⟨q, inside, rfl⟩
      · exact .inr ⟨j, q, c, by rw [Nat.add_right_comm, Nat.add_assoc], found, inside⟩

/-- The paths listed are those that stay in the tree. -/
theorem mem_paths : p ∈ s.paths ↔ (s.at? p).isSome := by
  induction s generalizing p with
  | node s ih =>
    rw [paths_eq, List.mem_cons, pathsBelow, mem_pathsFrom]
    constructor
    · rintro (rfl | ⟨i, q, c, rfl, found, inside⟩)
      · rfl
      · rw [Nat.zero_add, at?, found]
        exact (ih c (List.mem_of_getElem? found)).mp inside
    · intro stays
      cases p with
      | nil => exact .inl rfl
      | cons i q =>
        obtain ⟨n, leads⟩ := Option.isSome_iff_exists.mp stays
        obtain ⟨c, found, inside⟩ := Option.bind_eq_some_iff.mp leads
        refine .inr ⟨i, q, c, by rw [Nat.zero_add], found, ?_⟩
        exact (ih c (List.mem_of_getElem? found)).mpr (Option.isSome_iff_exists.mpr ⟨n, inside⟩)

theorem mem_pathsBelow : p ∈ s.pathsBelow ↔ p ≠ [] ∧ (s.at? p).isSome := by
  rw [← mem_paths, paths_eq, List.mem_cons]
  constructor
  · intro below
    obtain ⟨i, q, c, rfl, _⟩ := mem_pathsFrom.mp below
    exact ⟨List.cons_ne_nil _ _, .inr below⟩
  · rintro ⟨proper, rfl | below⟩
    · contradiction
    · exact below

theorem pathsFrom_pairwise (each : ∀ c ∈ ss, c.paths.Pairwise (· < ·)) (i : Nat) :
    (pathsFrom i ss).Pairwise (· < ·) := by
  induction ss generalizing i with
  | nil => exact .nil
  | cons s ss ih =>
    rw [List.forall_mem_cons] at each
    rw [pathsFrom, List.pairwise_append]
    refine ⟨?_, ih each.2 (i + 1), ?_⟩
    · rw [List.pairwise_map]
      exact each.1.imp fun before => List.cons_lt_cons_iff.mpr (.inr ⟨rfl, before⟩)
    · intro p first q later
      obtain ⟨p, _, rfl⟩ := List.mem_map.mp first
      obtain ⟨j, q, _, rfl, _⟩ := mem_pathsFrom.mp later
      exact List.cons_lt_cons_iff.mpr (.inl (by omega))

/-- Each path is listed once, and behind those that come before it. -/
theorem paths_pairwise (s : Statement) : s.paths.Pairwise (· < ·) := by
  induction s with
  | node s ih =>
    rw [paths_eq, List.pairwise_cons]
    refine ⟨?_, pathsFrom_pairwise ih 0⟩
    intro p below
    obtain ⟨i, q, _, rfl, _⟩ := mem_pathsFrom.mp below
    exact List.nil_lt_cons _ _

theorem map_pathsFrom {f : Path → Option Statement}
    (each : ∀ c ∈ ss, c.paths.map c.at? = c.preorder.map some)
    (leads : ∀ j q, f ((i + j) :: q) = ss[j]?.bind (·.at? q)) :
    (pathsFrom i ss).map f = (preorderAll ss).map some := by
  induction ss generalizing i with
  | nil => rfl
  | cons s ss ih =>
    rw [List.forall_mem_cons] at each
    rw [pathsFrom, preorderAll, List.map_append, List.map_append, List.map_map]
    congr 1
    · rw [← each.1]
      exact List.map_congr_left fun q _ => leads 0 q
    · apply ih each.2
      intro j q
      rw [Nat.add_assoc, Nat.add_comm 1 j]
      exact leads (j + 1) q

/-- A tree is listed with the statements that its paths lead to. -/
theorem map_paths (s : Statement) : s.paths.map s.at? = s.preorder.map some := by
  induction s with
  | node s ih =>
    have below : (pathsFrom 0 s.children).map s.at? = (preorderAll s.children).map some :=
      map_pathsFrom ih fun j q => by rw [Nat.zero_add, at?]
    rw [paths_eq, preorder_eq, List.map_cons, List.map_cons, pathsBelow, below, at?]

theorem map_pathsBelow (s : Statement) : s.pathsBelow.map s.at? = s.descendants.map some := by
  have whole := map_paths s
  rw [paths_eq, preorder_eq, ← descendants_eq] at whole
  exact (List.cons.inj whole).2

/-- Wherever the one path leads on to comes before wherever the other does. -/
def Precedes (p q : Path) : Prop := ∀ x y, p ++ x < q ++ y

theorem precedes_concat (before : i < j) (p : Path) : Precedes (p ++ [i]) (p ++ [j]) := by
  intro x y
  rw [List.append_assoc, List.append_assoc]
  exact List.append_left_lt (List.cons_lt_cons_iff.mpr (.inl before))

namespace Precedes

theorem extend (precedes : Precedes p q) (above_p : p <+: x) (above_q : q <+: y) :
    Precedes x y := by
  obtain ⟨x, rfl⟩ := above_p
  obtain ⟨y, rfl⟩ := above_q
  intro further beyond
  rw [List.append_assoc, List.append_assoc]
  exact precedes _ _

theorem lt (precedes : Precedes p q) : p < q := by
  simpa using precedes [] []

/-- Of two paths one before the other, neither leads on to the other. -/
theorem apart (precedes : Precedes p q) : ¬ p <+: q ∧ ¬ q <+: p := by
  constructor
  · rintro ⟨x, rfl⟩
    exact List.lt_irrefl _ (precedes.extend (List.prefix_append p x) List.prefix_rfl).lt
  · rintro ⟨x, rfl⟩
    exact List.lt_irrefl _ (precedes.extend List.prefix_rfl (List.prefix_append q x)).lt

end Precedes

theorem lt_of_extends (above : p <+: q) (other : q ≠ p) : p < q := by
  obtain ⟨_ | ⟨i, x⟩, rfl⟩ := above
  · simp at other
  · have further : p ++ [] < p ++ i :: x := List.append_left_lt (List.nil_lt_cons i x)
    rwa [List.append_nil] at further

end Yang.Statement
