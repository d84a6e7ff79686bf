/-! Texts and their bytes. A text is its list of characters, and an offset counts the bytes of their
UTF-8 encodings. -/
namespace Yang.Text

def byteLength : List Char → Nat
  | [] => 0
  | c :: text => c.utf8Size + byteLength text

theorem byteLength_append (text more : List Char) :
    byteLength (text ++ more) = byteLength text + byteLength more := by
  induction text with
  | nil => simp [byteLength]
  | cons c text ih => simp [byteLength, ih, Nat.add_assoc]

/-- The bytes of a text's UTF-8 encoding. -/
def bytes (text : List Char) : List UInt8 := text.flatMap String.utf8EncodeChar

theorem length_bytes (text : List Char) : (bytes text).length = byteLength text := by
  induction text with
  | nil => rfl
  | cons c text ih =>
    rw [bytes, List.flatMap_cons, List.length_append, String.length_utf8EncodeChar, byteLength]
    exact congrArg (c.utf8Size + ·) ih

/-- Cuts a text at a byte offset, if a character begins there or the text ends there. -/
def cut? : Nat → List Char → Option (List Char × List Char)
  | 0, text => some ([], text)
  | _ + 1, [] => none
  | offset + 1, c :: text =>
    if c.utf8Size ≤ offset + 1 then
      (cut? (offset + 1 - c.utf8Size) text).map fun (before, behind) => (c :: before, behind)
    else none

/-- What stands between two byte offsets, if the text can be cut at both, and the first is not
behind the second. -/
def slice? (text : List Char) (start stop : Nat) : Option (List Char) := do
  let (before, _) ← cut? stop text
  let (_, inside) ← cut? start before
  return inside

theorem cut?_eq_some {offset : Nat} {text before behind : List Char} :
    cut? offset text = some (before, behind) ↔
      before ++ behind = text ∧ byteLength before = offset := by
  constructor
  · intro cut
    fun_induction cut? offset text generalizing before with
    | case1 =>
      cases cut
      exact ⟨rfl, rfl⟩
    | case2 => contradiction
    | case3 offset c text fits ih =>
      obtain ⟨⟨later, _⟩, found, same⟩ := Option.map_eq_some_iff.mp cut
      obtain ⟨rfl, rfl⟩ := Prod.mk.inj same
      obtain ⟨rfl, length⟩ := ih found
      refine ⟨rfl, ?_⟩
      rw [byteLength, length]
      omega
    | case4 => contradiction
  · rintro ⟨rfl, rfl⟩
    induction before with
    | nil => simp [byteLength, cut?]
    | cons c before ih =>
      have wide := c.utf8Size_pos
      obtain ⟨offset, same⟩ : ∃ offset, byteLength (c :: before) = offset + 1 :=
        Nat.exists_eq_add_one.mpr (Nat.add_pos_left wide _)
      have later : offset + 1 - c.utf8Size = byteLength before := by
        rw [← same, byteLength, Nat.add_sub_cancel_left]
      have fits : c.utf8Size ≤ offset + 1 := by
        rw [← same, byteLength]
        exact Nat.le_add_right _ _
      rw [same, List.cons_append, cut?, if_pos fits, later, ih]
      rfl

theorem slice?_eq_some {text inside : List Char} {start stop : Nat} :
    slice? text start stop = some inside ↔ ∃ before behind,
      before ++ inside ++ behind = text ∧ byteLength before = start ∧
        byteLength (before ++ inside) = stop := by
  simp only [slice?, bind, Option.bind_eq_some_iff, Prod.exists, cut?_eq_some, pure,
    Option.some.injEq]
  constructor
  · rintro ⟨whole, behind, ⟨rfl, rfl⟩, before, _, ⟨rfl, rfl⟩, rfl⟩
    exact ⟨before, behind, rfl, rfl, rfl⟩
  · rintro ⟨before, behind, rfl, rfl, rfl⟩
    exact ⟨_, behind, ⟨rfl, rfl⟩, before, inside, ⟨rfl, rfl⟩, rfl⟩

end Yang.Text
