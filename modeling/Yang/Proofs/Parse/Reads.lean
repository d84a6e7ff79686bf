import Yang.Parse.Run

/-! Reading token after token, and what that says of a parse that succeeds. -/
namespace Yang.Parse

/-- Reads tokens one after another; the structural errors that closing blocks bring to light add up.
-/
inductive State.Reads (strict : Bool) : State → List Token → State →
    List StructuralError → Prop where
  | none : Reads strict σ [] σ []
  | next (stepped : σ.step strict t = .ok (τ, es)) (later : Reads strict τ ts υ fs) :
    Reads strict σ (t :: ts) υ (es ++ fs)

namespace State

variable {strict : Bool} {σ τ υ : State} {t : Token} {ts us : List Token}
  {es fs : List StructuralError} {s : Statement}

@[simp] theorem reads_nil : Reads strict σ [] τ es ↔ σ = τ ∧ es = [] := by
  constructor
  · intro reads
    cases reads
    exact ⟨rfl, rfl⟩
  · rintro ⟨rfl, rfl⟩
    exact .none

theorem reads_cons : Reads strict σ (t :: ts) υ es ↔
    ∃ τ fs gs, σ.step strict t = .ok (τ, fs) ∧ Reads strict τ ts υ gs ∧ es = fs ++ gs := by
  constructor
  · intro reads
    cases reads with
    | next stepped later => exact ⟨_, _, _, stepped, later, rfl⟩
  · rintro ⟨τ, fs, gs, stepped, later, rfl⟩
    exact .next stepped later

theorem Reads.append (first : Reads strict σ ts τ es) (second : Reads strict τ us υ fs) :
    Reads strict σ (ts ++ us) υ (es ++ fs) := by
  induction first with
  | none => exact second
  | next stepped later ih =>
    rw [List.cons_append, List.append_assoc]
    exact .next stepped (ih second)

theorem reads_append : Reads strict σ (ts ++ us) υ es ↔
    ∃ τ fs gs, Reads strict σ ts τ fs ∧ Reads strict τ us υ gs ∧ es = fs ++ gs := by
  constructor
  · intro reads
    induction ts generalizing σ es with
    | nil => exact ⟨σ, [], es, .none, reads, rfl⟩
    | cons t ts ih =>
      obtain ⟨φ, fs, _, stepped, later, rfl⟩ := reads_cons.mp reads
      obtain ⟨τ, gs, hs, first, second, rfl⟩ := ih later
      exact ⟨τ, fs ++ gs, hs, .next stepped first, second, by rw [List.append_assoc]⟩
  · rintro ⟨τ, fs, gs, first, second, rfl⟩
    exact first.append second

theorem Reads.snoc (reads : Reads strict σ ts τ es) (stepped : τ.step strict t = .ok (υ, fs)) :
    Reads strict σ (ts ++ [t]) υ (es ++ fs) := by
  simpa using reads.append (.next stepped .none)

/-- Reads tokens one after another until one of them is at fault. -/
def readAll (strict : Bool) (σ : State) : List Token → Except Fault (State × List StructuralError)
  | [] => .ok (σ, [])
  | t :: ts =>
    match σ.step strict t with
    | .error fault => .error fault
    | .ok (τ, es) => (τ.readAll strict ts).map fun (υ, fs) => (υ, es ++ fs)

theorem readAll_eq_ok : σ.readAll strict ts = .ok (τ, es) ↔ Reads strict σ ts τ es := by
  induction ts generalizing σ es with
  | nil => simp [readAll]
  | cons t ts ih =>
    rw [reads_cons]
    cases stepped : σ.step strict t with
    | error fault => simp [readAll, stepped]
    | ok next =>
      obtain ⟨υ, fs⟩ := next
      cases later : υ.readAll strict ts with
      | error fault => simp [readAll, stepped, later, ← ih, Except.map]
      | ok last =>
        obtain ⟨final, gs⟩ := last
        simp only [readAll, stepped, later, Except.map, Except.ok.injEq, Prod.mk.injEq, ← ih]
        constructor
        · rintro ⟨rfl, rfl⟩
          exact ⟨υ, fs, gs, ⟨rfl, rfl⟩, later, rfl⟩
        · rintro ⟨_, _, hs, ⟨rfl, rfl⟩, same, rfl⟩
          cases later.symm.trans same
          exact ⟨rfl, rfl⟩

theorem Reads.unique (reads : σ.Reads strict ts τ es) (others : σ.Reads strict ts υ fs) :
    τ = υ ∧ es = fs := by
  have same := (readAll_eq_ok.mpr reads).symm.trans (readAll_eq_ok.mpr others)
  simpa using same

/-- The state that is reached with the tokens before the first that is at fault, or with all of
them. -/
def readOn (strict : Bool) (σ : State) : List Token → State
  | [] => σ
  | t :: ts =>
    match σ.step strict t with
    | .error _ => σ
    | .ok (τ, _) => τ.readOn strict ts

theorem Reads.readOn_append (reads : Reads strict σ ts τ es) (us : List Token) :
    σ.readOn strict (ts ++ us) = τ.readOn strict us := by
  induction reads with
  | none => rfl
  | next stepped later ih => simp only [List.cons_append, readOn, stepped, ih]

/-- If any errors come to light, there is a token with which the first of them do. -/
theorem Reads.exists_first (reads : Reads strict σ ts τ es) (wrong : es ≠ []) :
    ∃ before t later υ υ' fs gs, ts = before ++ t :: later ∧ Reads strict σ before υ [] ∧
      υ.step strict t = .ok (υ', fs) ∧ fs ≠ [] ∧ Reads strict υ' later τ gs := by
  induction ts generalizing σ es with
  | nil => exact absurd (reads_nil.mp reads).2 wrong
  | cons t ts ih =>
    obtain ⟨υ, fs, gs, stepped, later, rfl⟩ := reads_cons.mp reads
    by_cases clean : fs = []
    · subst clean
      obtain ⟨before, first, rest, φ, ψ, hs, is, rfl, reads, closing, breaches, last⟩ :=
        ih later wrong
      exact ⟨t :: before, first, rest, φ, ψ, hs, is, rfl, .next stepped reads, closing,
        breaches, last⟩
    · exact ⟨[], t, ts, σ, υ, fs, gs, rfl, .none, stepped, clean, later⟩

theorem ending_eq_ok : σ.ending = .ok s ↔ σ.phase = .complete s := by
  obtain ⟨enclosing, phase⟩ := σ
  cases phase with
  | start entry => simp [ending]
  | head h =>
    simp only [ending]
    split
    · simp
    · split <;> simp
  | piece h first value =>
    simp only [ending]
    split <;> simp
  | joining h first value => simp [ending]
  | content b => simp [ending]
  | complete s => simp [ending]

end State

section Run

variable {options : Options} {σ : State} {found : Array StructuralError} {read : Nat}
  {tokens : TokenStream} {last : Token} {s : Statement}

theorem conclude_eq_ok :
    conclude σ found last = .ok s ↔ found = #[] ∧ σ.phase = .complete s := by
  rw [← State.ending_eq_ok]
  unfold conclude
  split
  · simp_all
  · split <;> simp_all

/-- A run succeeds when every token before the end can be read, no block that they close breaks a
count, and they make a complete statement. -/
theorem run_result_eq_ok : (run options σ found read tokens).result = .ok s ↔
    found = #[] ∧ ∃ τ, σ.Reads options.strictHeaderOrder tokens.pending τ [] ∧
      τ.phase = .complete s := by
  fun_induction run options σ found read tokens with
  | case1 σ found read tokens ended =>
    simp [TokenStream.pending_of_isEnd ended, conclude_eq_ok]
  | case2 σ found read tokens more fault failed =>
    rw [TokenStream.pending_eq_cons (by simpa using more)]
    simp [State.reads_cons, failed]
  | case3 σ found read tokens more τ violations stepped stopped =>
    rw [TokenStream.pending_eq_cons (by simpa using more)]
    simp_all [State.reads_cons]
  | case4 σ found read tokens more τ violations stepped continued ih =>
    have more : tokens.next.isEnd = false := by simpa using more
    have empty : found ++ violations = #[] ↔ found = #[] ∧ violations = [] := by
      simp [← Array.toList_eq_nil_iff]
    rw [ih, TokenStream.pending_eq_cons more, empty]
    constructor
    · rintro ⟨⟨nothing, clean⟩, υ, later, complete⟩
      exact ⟨nothing, υ, .next (clean ▸ stepped) later, complete⟩
    · rintro ⟨nothing, υ, reads, complete⟩
      obtain ⟨_, fs, gs, same, later, clean⟩ := State.reads_cons.mp reads
      cases stepped.symm.trans same
      obtain ⟨rfl, rfl⟩ := List.nil_eq_append_iff.mp clean
      exact ⟨⟨nothing, rfl⟩, υ, later, complete⟩

end Run

end Yang.Parse
