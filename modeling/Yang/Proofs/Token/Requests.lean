import Yang.Proofs.Token.Stream

/-! What a reader is told by a supply of tokens. Whatever it asks for, and however often it only
looks, the answers are those of the list that the supply is made of, cut at its end. -/
namespace Yang

namespace Token

/-- The end that a list of tokens comes to: the first that it holds, or one made up where its last
token ends. -/
def endOf (ts : List Token) : Token :=
  match ts.find? (·.isEnd) with
  | some last => last
  | none =>
    match ts.getLast? with
    | some t => .endAt t.span.stop t.slice.stop
    | none => .endAt .origin 0

/-- The tokens of a list before its end, counted from zero, and the end again and again behind them.
-/
def nth (ts : List Token) (n : Nat) : Token := (ts.takeWhile (!·.isEnd))[n]?.getD (endOf ts)

theorem endOf_cons {t u : Token} {ts : List Token} (more : t.isEnd = false) :
    endOf (t :: u :: ts) = endOf (u :: ts) := by
  simp [endOf, more]

end Token

namespace TokenStream

inductive Request where
  | peek
  | position
  | isAtEnd
  | advance
deriving DecidableEq

inductive Answer where
  | token (t : Token)
  | position (p : Position)
  | isAtEnd (b : Bool)
deriving DecidableEq

/-- What a supply answers to a request, and what is left of it. -/
def answer (s : TokenStream) : Request → Answer × TokenStream
  | .peek => (.token s.next, s)
  | .position => (.position s.position, s)
  | .isAtEnd => (.isAtEnd s.isAtEnd, s)
  | .advance => (.token s.next, s.advance)

/-- What a supply answers to one request after the other. -/
def answers (s : TokenStream) : List Request → List Answer
  | [] => []
  | r :: later => (s.answer r).1 :: (s.answer r).2.answers later

/-- The answer to a request that is about a token. -/
def Answer.about (t : Token) : Request → Answer
  | .peek | .advance => token t
  | .position => position t.span.start
  | .isAtEnd => isAtEnd t.isEnd

/-- What is answered from a list of which `n` tokens have been read: every answer is about the next
one, and nothing but an advance goes on to the one behind it. -/
def answersOf (ts : List Token) (n : Nat) : List Request → List Answer
  | [] => []
  | r :: later => .about (Token.nth ts n) r :: answersOf ts
    (if r = .advance then n + 1 else n) later

variable {s : TokenStream} {ts : List Token} {n : Nat}

theorem answer_eq (s : TokenStream) (r : Request) :
    s.answer r = (.about s.next r, if r = .advance then s.advance else s) := by
  cases r <;> rfl

theorem next_skip_of_lt (early : n < s.pending.length) : (s.skip n).next = s.pending[n] := by
  have left : (s.skip n).pending = s.pending.drop n := pending_skip s n
  have more : (s.skip n).next.isEnd = false := by
    rw [← Bool.not_eq_true, isEnd_iff, left, List.drop_eq_nil_iff]
    omega
  rw [pending_eq_cons more, List.drop_eq_getElem_cons early] at left
  exact (List.cons.inj left).1

theorem next_skip_pending (s : TokenStream) :
    (s.skip s.pending.length).next = Token.endOf (s.next :: s.later) := by
  obtain ⟨t, later⟩ := s
  induction later generalizing t with
  | nil =>
    cases more : t.isEnd with
    | true => simp [pending, Token.endOf, more, skip]
    | false => simp [pending, Token.endOf, more, skip, advance, after]
  | cons u later ih =>
    cases more : t.isEnd with
    | true => simp [pending, Token.endOf, more, skip]
    | false =>
      have next : (⟨t, u :: later⟩ : TokenStream).advance = ⟨u, later⟩ := by
        simp [advance, after, more]
      rw [pending_eq_cons more, next, List.length_cons, skip, next, ih u, Token.endOf_cons more]

theorem skip_of_le (late : s.pending.length ≤ n) : s.skip n = s.skip s.pending.length := by
  obtain ⟨k, rfl⟩ := Nat.exists_eq_add_of_le late
  induction k with
  | zero => rfl
  | succ k ih =>
    have same := ih (Nat.le_add_right _ _)
    have ended := isEnd_skip_pending s
    rw [← Nat.add_assoc, ← advance_skip, same, advance_of_isEnd ended]

/-- Behind so many readings a supply shows the token of the list. -/
theorem next_skip (ts : List Token) (n : Nat) : ((ofList ts).skip n).next = Token.nth ts n := by
  cases ts with
  | nil =>
    have late : nothing.pending.length ≤ n := Nat.zero_le _
    exact congrArg next (skip_of_le late)
  | cons t ts =>
    have pending : (ofList (t :: ts)).pending = (t :: ts).takeWhile (!·.isEnd) := rfl
    rw [Token.nth, ← pending]
    rcases Nat.lt_or_ge n (ofList (t :: ts)).pending.length with early | late
    · rw [next_skip_of_lt early, List.getElem?_eq_getElem early]
      rfl
    · rw [skip_of_le late, next_skip_pending, List.getElem?_eq_none late]
      rfl

/-- A supply of which tokens have been read answers as its list does. -/
theorem answers_skip (ts : List Token) (n : Nat) (requests : List Request) :
    ((ofList ts).skip n).answers requests = answersOf ts n requests := by
  induction requests generalizing n with
  | nil => rfl
  | cons r later ih =>
    rw [answers, answersOf, answer_eq, next_skip, ← ih]
    split
    · rw [advance_skip]
    · rfl

end TokenStream

end Yang
