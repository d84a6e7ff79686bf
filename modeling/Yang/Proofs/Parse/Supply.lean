import Yang.Proofs.Parse.Lookahead
import Yang.Proofs.Token.OfText
import Yang.Proofs.Token.Requests

/-! What a parse takes from the end of its tokens. Of the end it sees no more than that it is there:
what stands behind the end has no influence, and the place of the end shows only in an error that is
found at it. -/
namespace Yang

open Parse
open Text (byteLength)

namespace Token

variable {ts more : List Token} {last : Token}

theorem endOf_append (ahead : ∀ t ∈ ts, t.isEnd = false) (ends : last.isEnd) (more : List Token) :
    endOf (ts ++ last :: more) = last := by
  have endless : ts.find? (·.isEnd) = none := by simpa using ahead
  simp [endOf, endless, ends]

/-- The end that is made up for a list has no width. -/
theorem endOf_eq_endAt (ahead : ∀ t ∈ ts, t.isEnd = false) :
    ∃ position offset, endOf ts = .endAt position offset := by
  have endless : ts.find? (·.isEnd) = none := by simpa using ahead
  rw [endOf, endless]
  cases ts.getLast? with
  | none => exact ⟨_, _, rfl⟩
  | some t => exact ⟨_, _, rfl⟩

end Token

namespace TokenStream

variable {ts : List Token} {last : Token}

theorem pending_ofList_eq (ts : List Token) : (ofList ts).pending = ts.takeWhile (!·.isEnd) := by
  cases ts <;> rfl

theorem pending_ofList_append (ahead : ∀ t ∈ ts, t.isEnd = false) (ends : last.isEnd)
    (more : List Token) :
    (ofList (ts ++ last :: more)).pending = ts := by
  rw [pending_ofList_eq, List.takeWhile_append_of_pos (by simpa using ahead)]
  simp [ends]

/-- Where nothing is left of a list, its end is shown. -/
theorem next_skip_pending_ofList (ts : List Token) :
    ((ofList ts).skip (ofList ts).pending.length).next = Token.endOf ts := by
  rw [next_skip, Token.nth, pending_ofList_eq, List.getElem?_eq_none (Nat.le_refl _)]
  rfl

end TokenStream

namespace Parse

variable {entry : Entry} {options : Options} {tokens others : TokenStream} {σ : State}
  {found : Array StructuralError}

/-- Supplies of the same tokens before the end are parsed alike, or both up to the end and in the
same state there. -/
theorem result_eq_or_conclude (same : others.pending = tokens.pending) :
    (parseTokens entry options others).result = (parseTokens entry options tokens).result ∨
      ∃ σ found, (parseTokens entry options tokens).result =
        conclude σ found (tokens.skip tokens.pending.length).next ∧
        (parseTokens entry options others).result = conclude σ found
          (others.skip others.pending.length).next := by
  obtain ⟨n, τ, es, reads, clean, halt⟩ := exists_halt_parseTokens entry options tokens
  have bound := TokenStream.le_length_pending reads.isEnd
  have taken : others.taken n = tokens.taken n := by
    rw [TokenStream.taken_eq_take bound, TokenStream.taken_eq_take (same ▸ bound), same]
  have early (more : (tokens.skip n).next.isEnd = false) :
      (parseTokens entry options others).result = (parseTokens entry options tokens).result := by
    have before : n < tokens.pending.length := by
      have left := TokenStream.pending_eq_cons more
      rw [TokenStream.pending_skip] at left
      have length := congrArg List.length left
      rw [List.length_drop, List.length_cons] at length
      omega
    have next : (others.skip n).next = (tokens.skip n).next := by
      rw [TokenStream.next_skip_of_lt before, TokenStream.next_skip_of_lt (same ▸ before)]
      simp only [same]
    exact (parseTokens_eq_of_halt reads clean halt taken next).2
  generalize parsed : parseTokens entry options tokens = p at *
  cases halt with
  | ended last =>
    obtain rfl : n = tokens.pending.length := by
      rw [TokenStream.isEnd_iff, TokenStream.pending_skip, List.drop_eq_nil_iff] at last
      exact Nat.le_antisymm bound last
    refine .inr ⟨τ, es.toArray, rfl, ?_⟩
    have last := TokenStream.isEnd_skip_pending others
    rw [same] at last ⊢
    rw [parseTokens_of_halt (taken ▸ reads) clean (.ended last)]
  | failed more faulty => exact .inl (early more)
  | stopped fast closed wrong => exact .inl (early (State.isEnd_of_step closed))

/-- Results that are the same, or the same error about the end of the input, but for its span. -/
inductive AlikeButForEnd : Except ParseError Statement → Except ParseError Statement → Prop where
  | same : AlikeButForEnd r r
  | atEnd (code : e.code = .inputEnds) (span : Span) :
    AlikeButForEnd (.error (.syntactic e)) (.error (.syntactic { e with span }))

theorem alike_toError (fault : Fault) (position other : Position) (offset further : Nat) :
    AlikeButForEnd (.error (.syntactic (fault.toError (.endAt position offset))))
      (.error (.syntactic (fault.toError (.endAt other further)))) := by
  cases fault with
  | deviateArgument argument first => exact .same
  | _ => exact .atEnd rfl (.empty other)

theorem alike_conclude (σ : State) (found : Array StructuralError) (position other : Position)
    (offset further : Nat) :
    AlikeButForEnd (conclude σ found (.endAt position offset))
      (conclude σ found (.endAt other further)) := by
  unfold conclude
  cases σ.ending with
  | error fault => exact alike_toError fault position other offset further
  | ok s => exact .same

end Parse

/-- A supply made of a list answers whatever it is asked as the list does: with the tokens before
the first end one after another, as often as it is asked for each, and with this end for ever, or
with one made up behind the last token if the list has none. So the tokens of a text are parsed as
the text is, with any others behind them or none; and without the end that belongs to them no more
than the span of an error at the end can differ. -/
theorem parse_of_supply :
    (∀ ts requests, (TokenStream.ofList ts).answers requests =
      TokenStream.answersOf ts 0 requests) ∧
    ∀ entry options text,
      (∀ more, (parseTokens entry options (.ofList (Token.ofText text ++ more))).result =
        parse entry options text) ∧
      AlikeButForEnd (parse entry options text)
        (parseTokens entry options (.ofList (Token.ofText text).dropLast)).result := by
  refine ⟨fun ts requests => TokenStream.answers_skip ts 0 requests, ?_⟩
  intro entry options text
  obtain ⟨before, position, ahead, split⟩ := Token.ofText_eq_append text
  generalize byteLength text.toList = offset at split
  have pending (more : List Token) :
    (TokenStream.ofList (before ++ .endAt position offset :: more)).pending = before :=
    TokenStream.pending_ofList_append ahead rfl more
  refine ⟨?_, ?_⟩
  · intro more
    have whole : Token.ofText text ++ more = before ++ .endAt position offset :: more := by
      simp [split]
    rw [whole, parse, split]
    rcases result_eq_or_conclude ((pending more).trans (pending []).symm) with same |
      ⟨σ, found, one, other⟩
    · exact same
    · rw [one, other, TokenStream.next_skip_pending_ofList, TokenStream.next_skip_pending_ofList,
        Token.endOf_append ahead rfl, Token.endOf_append ahead rfl]
  · rw [parse, split, List.dropLast_concat]
    rcases result_eq_or_conclude ((TokenStream.pending_ofList ahead).trans (pending []).symm) with
      same | ⟨σ, found, one, other⟩
    · rw [same]
      exact .same
    · obtain ⟨made, behind, up⟩ := Token.endOf_eq_endAt ahead
      rw [one, other, TokenStream.next_skip_pending_ofList, TokenStream.next_skip_pending_ofList,
        Token.endOf_append ahead rfl, up]
      exact alike_conclude σ found position made offset behind

end Yang
