import Yang.Token.Basic

/-! A supply of tokens with one token of lookahead. It ends at the first end-of-input token; a list
that holds none is ended where its last token ends. -/
namespace Yang

structure TokenStream where
  next : Token
  later : List Token

namespace TokenStream

/-- Nothing is left but the end of the input, at the very start. -/
def nothing : TokenStream := ⟨.endAt .origin 0, []⟩

def ofList : List Token → TokenStream
  | [] => nothing
  | t :: later => ⟨t, later⟩

def after (read : Token) : List Token → TokenStream
  | [] => ⟨.endAt read.span.stop read.slice.stop, []⟩
  | t :: later => ⟨t, later⟩

/-- Reads a token, unless the end is reached: the end is shown for ever. -/
def advance (s : TokenStream) : TokenStream :=
  if s.next.isEnd then s else after s.next s.later

def position (s : TokenStream) : Position := s.next.span.start

def isAtEnd (s : TokenStream) : Bool := s.next.isEnd

/-- The tokens that can be read before the end. -/
def pending (s : TokenStream) : List Token := (s.next :: s.later).takeWhile (!·.isEnd)

theorem pending_of_isEnd {s : TokenStream} (ended : s.next.isEnd) : s.pending = [] := by
  simp [pending, ended]

theorem advance_of_isEnd {s : TokenStream} (ended : s.next.isEnd) : s.advance = s := by
  simp [advance, ended]

/-- Reading takes the first token that can be read. -/
theorem pending_eq_cons {s : TokenStream} (more : s.next.isEnd = false) :
    s.pending = s.next :: s.advance.pending := by
  obtain ⟨next, later⟩ := s
  cases later with
  | nil => simp_all [advance, after, pending, Token.isEnd, Token.endAt]
  | cons t later => simp_all [advance, after, pending]

end TokenStream

end Yang
