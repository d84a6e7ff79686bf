import Yang.Proofs.Statement.Rendering

/-! Tokens up to places. -/
namespace Yang

/-- A token without its place: its kind and its text. -/
def Token.bare (t : Token) : Token := .unplaced t.kind t.text

namespace TokenStream

variable {ts us : List Token}

def bare (s : TokenStream) : TokenStream := ⟨s.next.bare, s.later.map Token.bare⟩

theorem advance_bare (s : TokenStream) : s.bare.advance = s.advance.bare := by
  obtain ⟨next, later⟩ := s
  have isEnd : next.bare.isEnd = next.isEnd := rfl
  unfold advance
  simp only [bare, isEnd]
  split
  · rfl
  · cases later <;> rfl

theorem ofList_bare (same : ts.map Token.bare = us.map Token.bare) :
    (ofList ts).bare = (ofList us).bare := by
  cases ts with
  | nil =>
    obtain rfl := List.map_eq_nil_iff.mp same.symm
    rfl
  | cons t ts =>
    obtain ⟨u, us, rfl, first, later⟩ := List.map_eq_cons_iff.mp same.symm
    simp [ofList, bare, first, later]

end TokenStream

end Yang
