import Mathlib.Order.Basic
import Mathlib.Order.Defs.LinearOrder
import Yang.Source.Position

/-! The order of positions. Reading on leads to later positions. -/
namespace Yang

namespace Position

instance : LinearOrder Position where
  le_refl p := by rw [le_iff]; omega
  le_trans p q r := by simp only [le_iff]; omega
  le_antisymm p q := by
    cases p
    cases q
    simp only [le_iff, mk.injEq]
    omega
  le_total p q := by simp only [le_iff]; omega
  lt_iff_le_not_ge p q := by simp only [lt_iff, le_iff]; omega
  toDecidableLE := inferInstance
  min_def _ _ := rfl
  max_def _ _ := rfl
  compare_eq_compareOfLessAndEq p q := by
    have before := compare_eq_lt (p := p) (q := q)
    have same := compare_eq_eq (p := p) (q := q)
    unfold compareOfLessAndEq
    cases order : compare p q with
    | lt => rw [if_pos (before.mp order)]
    | eq =>
      rw [if_neg, if_pos (same.mp order)]
      rw [← before, order]
      exact Ordering.noConfusion
    | gt =>
      rw [order] at before same
      rw [if_neg (before.not.mp Ordering.noConfusion), if_neg (same.not.mp Ordering.noConfusion)]

variable {p : Position} {c : Char} {text : List Char}

theorem lt_advance (p : Position) (c : Char) : p < p.advance c := by
  unfold advance
  split
  · exact .inl (Nat.lt_succ_self _)
  · exact .inr ⟨rfl, Nat.lt_succ_self _⟩

theorem le_advanceOver (p : Position) (text : List Char) : p ≤ p.advanceOver text := by
  induction text generalizing p with
  | nil => exact le_rfl
  | cons c text ih => exact (lt_advance p c).le.trans (ih (p.advance c))

theorem lt_advanceOver (nonempty : text ≠ []) : p < p.advanceOver text := by
  cases text with
  | nil => contradiction
  | cons c text => exact (lt_advance p c).trans_le (le_advanceOver (p.advance c) text)

end Position

/-- What begins before and ends behind is covered from the beginning of the one to the end of the
other. -/
theorem Span.cover_eq {a b : Span} (starts : a.start ≤ b.start) (stops : a.stop ≤ b.stop) :
    a.cover b = ⟨a.start, b.stop⟩ := by
  rw [cover, min_eq_left starts, max_eq_right stops]

end Yang
