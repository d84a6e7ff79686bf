import Yang.Token.Stream

/-! What a supply of tokens gives to a reader: the tokens before the end one after another, and then
the end as often as it is asked for. -/
namespace Yang.TokenStream

variable {s : TokenStream} {n : Nat} {t : Token} {ts before later : List Token}

/-- What is left behind so many readings. -/
def skip (s : TokenStream) : Nat → TokenStream
  | 0 => s
  | n + 1 => s.advance.skip n

/-- The tokens that so many readings give. -/
def taken (s : TokenStream) : Nat → List Token
  | 0 => []
  | n + 1 => s.next :: s.advance.taken n

theorem advance_skip (s : TokenStream) (n : Nat) : (s.skip n).advance = s.skip (n + 1) := by
  induction n generalizing s with
  | zero => rfl
  | succ n ih => exact ih s.advance

theorem taken_succ (s : TokenStream) (n : Nat) :
    s.taken (n + 1) = s.taken n ++ [(s.skip n).next] := by
  induction n generalizing s with
  | zero => rfl
  | succ n ih => exact congrArg (s.next :: ·) (ih s.advance)

theorem length_taken (s : TokenStream) (n : Nat) : (s.taken n).length = n := by
  induction n generalizing s with
  | zero => rfl
  | succ n ih => exact congrArg (· + 1) (ih s.advance)

theorem isEnd_iff : s.next.isEnd ↔ s.pending = [] := by
  refine ⟨pending_of_isEnd, ?_⟩
  intro empty
  cases more : s.next.isEnd with
  | true => rfl
  | false =>
    rw [pending_eq_cons more] at empty
    contradiction

theorem pending_skip (s : TokenStream) (n : Nat) : (s.skip n).pending = s.pending.drop n := by
  induction n generalizing s with
  | zero => rfl
  | succ n ih =>
    rw [skip, ih]
    cases more : s.next.isEnd with
    | true => simp [advance_of_isEnd more, pending_of_isEnd more]
    | false => simp [pending_eq_cons more]

/-- Tokens that are none of them the end are read from those that can be read. -/
theorem le_length_pending (ahead : ∀ t ∈ s.taken n, t.isEnd = false) : n ≤ s.pending.length := by
  induction n generalizing s with
  | zero => exact Nat.zero_le _
  | succ n ih =>
    rw [taken, List.forall_mem_cons] at ahead
    rw [pending_eq_cons ahead.1]
    exact Nat.succ_le_succ (ih ahead.2)

theorem taken_eq_take (bound : n ≤ s.pending.length) : s.taken n = s.pending.take n := by
  induction n generalizing s with
  | zero => rfl
  | succ n ih =>
    have more : s.next.isEnd = false := by
      rw [← Bool.not_eq_true, isEnd_iff]
      intro empty
      simp [empty] at bound
    rw [pending_eq_cons more] at bound ⊢
    exact congrArg (s.next :: ·) (ih (Nat.le_of_succ_le_succ bound))

/-- Up to the end, what has been read and what is left are what could be read. -/
theorem taken_append_pending (ahead : ∀ t ∈ s.taken n, t.isEnd = false) :
    s.taken n ++ (s.skip n).pending = s.pending := by
  rw [taken_eq_take (le_length_pending ahead), pending_skip, List.take_append_drop]

/-- Where a token stands among those that were read, reading as many as stand before it leads to it.
-/
theorem taken_of_append_cons (split : s.taken n = before ++ t :: later) :
    s.taken before.length = before ∧ (s.skip before.length).next = t := by
  induction before generalizing s n with
  | nil =>
    cases n with
    | zero => contradiction
    | succ n => exact ⟨rfl, (List.cons.inj split).1⟩
  | cons first before ih =>
    cases n with
    | zero => contradiction
    | succ n =>
      obtain ⟨same, rest⟩ := List.cons.inj split
      obtain ⟨taken, next⟩ := ih rest
      exact ⟨List.cons_eq_cons.mpr ⟨same, taken⟩, next⟩

theorem taken_pending (s : TokenStream) : s.taken s.pending.length = s.pending := by
  rw [taken_eq_take (Nat.le_refl _), List.take_length]

theorem isEnd_skip_pending (s : TokenStream) : (s.skip s.pending.length).next.isEnd := by
  rw [isEnd_iff, pending_skip, List.drop_length]

theorem isEnd_of_mem_pending (member : t ∈ s.pending) : t.isEnd = false := by
  simpa using List.all_eq_true.mp List.all_takeWhile t member

theorem pending_append_dropWhile (ts : List Token) :
    (ofList ts).pending ++ ts.dropWhile (!·.isEnd) = ts := by
  cases ts with
  | nil => rfl
  | cons t ts => exact List.takeWhile_append_dropWhile

theorem pending_ofList (ahead : ∀ t ∈ ts, t.isEnd = false) : (ofList ts).pending = ts := by
  cases ts with
  | nil => rfl
  | cons t ts =>
    have kept : (t :: ts ++ []).takeWhile (!·.isEnd) = t :: ts ++ [].takeWhile (!·.isEnd) :=
      List.takeWhile_append_of_pos (by simpa using ahead)
    simpa only [pending, ofList, List.takeWhile_nil, List.append_nil] using kept

theorem taken_ofList (ahead : ∀ t ∈ ts, t.isEnd = false) (t : Token) (later : List Token) :
    (ofList (ts ++ t :: later)).taken ts.length = ts ∧
      (ofList (ts ++ t :: later)).skip ts.length = ofList (t :: later) := by
  induction ts with
  | nil => exact ⟨rfl, rfl⟩
  | cons first ts ih =>
    rw [List.forall_mem_cons] at ahead
    have advanced : (ofList (first :: (ts ++ t :: later))).advance = ofList (ts ++ t :: later) := by
      rw [advance, if_neg (by simp [ofList, ahead.1])]
      cases ts <;> rfl
    obtain ⟨taken, skipped⟩ := ih ahead.2
    simp only [List.cons_append, List.length_cons, TokenStream.taken, skip, advanced,
      taken, skipped]
    exact ⟨rfl, trivial⟩

end Yang.TokenStream
