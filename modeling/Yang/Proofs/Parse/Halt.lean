import Yang.Proofs.Parse.Move
import Yang.Proofs.Parse.Reads
import Yang.Proofs.Token.Stream

/-! How a parse ends: it reads tokens one after another up to a token, the last that it looks at,
which is the end of the input, or is at fault, or closes a block whose counts are to end the parse.
-/
namespace Yang.Parse

/-- What a parse makes of the token that it ends at. -/
inductive Halt (options : Options) (found : Array StructuralError) (read : Nat) :
    State → TokenStream → Parse → Prop where
  | ended (last : tokens.next.isEnd) :
    Halt options found read σ tokens ⟨conclude σ found tokens.next, read, tokens⟩
  | failed (more : tokens.next.isEnd = false)
      (faulty : σ.step options.strictHeaderOrder tokens.next = .error fault) :
    Halt options found read σ tokens ⟨.error (.syntactic (fault.toError tokens.next)), read, tokens⟩
  | stopped (fast : options.failFast)
    (closed : σ.step options.strictHeaderOrder tokens.next = .ok (τ, es)) (wrong : es ≠ []) :
    Halt options found read σ tokens ⟨.error (.structural es), read + 1, tokens.advance⟩

variable {options : Options} {strict : Bool} {found : Array StructuralError} {read n : Nat}
  {σ τ : State} {tokens : TokenStream} {p : Parse} {t : Token} {ts : List Token}
  {es : List StructuralError}

theorem State.isEnd_of_step (stepped : σ.step strict t = .ok (τ, es)) : t.isEnd = false := by
  simpa [Token.isEnd] using (step_eq_ok_iff.mp stepped).kind_ne.1

/-- Only tokens that are there, and are tokens, are read. -/
theorem State.Reads.kind_ne (reads : σ.Reads strict ts τ es) :
    ∀ t ∈ ts, t.kind ≠ .endOfInput ∧ t.kind ≠ .invalid := by
  induction reads with
  | none => simp
  | next stepped later ih =>
    rw [List.forall_mem_cons]
    exact ⟨(step_eq_ok_iff.mp stepped).kind_ne, ih⟩

theorem State.Reads.isEnd (reads : σ.Reads strict ts τ es) : ∀ t ∈ ts, t.isEnd = false := by
  intro t member
  simpa [Token.isEnd] using (reads.kind_ne t member).1

theorem found_append (found : Array StructuralError) (es fs : List StructuralError) :
    found ++ es ++ fs = found ++ (es ++ fs) := by
  simp [← Array.toList_inj]

theorem run_of_halt (halt : Halt options found read σ tokens p) :
    run options σ found read tokens = p := by
  cases halt with
  | ended last => rw [run, dif_pos last]
  | failed more faulty => rw [run, dif_neg (by simp [more]), faulty]
  | stopped fast closed wrong =>
    rw [run, dif_neg (by simp [State.isEnd_of_step closed]), closed]
    simp [fast, wrong]

/-- A parse goes on from what it has read, unless that has ended it. -/
theorem run_of_reads (reads : σ.Reads options.strictHeaderOrder (tokens.taken n) τ es)
    (clean : options.failFast → es = []) :
    run options σ found read tokens = run options τ (found ++ es) (read + n) (tokens.skip n) := by
  induction n generalizing σ found read tokens es with
  | zero =>
    obtain ⟨rfl, rfl⟩ := State.reads_nil.mp reads
    simp [TokenStream.skip]
  | succ n ih =>
    obtain ⟨υ, fs, gs, stepped, later, rfl⟩ := State.reads_cons.mp reads
    have going : (options.failFast && !fs.isEmpty) = false := by
      cases fast : options.failFast with
      | false => rfl
      | true => simp [(List.append_eq_nil_iff.mp (clean fast)).1]
    rw [run, dif_neg (by simp [State.isEnd_of_step stepped]), stepped]
    simp only [going, Bool.false_eq_true, if_false]
    rw [ih later fun fast => (List.append_eq_nil_iff.mp (clean fast)).2, found_append,
      Nat.add_right_comm]
    rfl

/-- A parse reads tokens without fault, and then comes to the one that it ends at. -/
theorem exists_halt (options : Options) (σ : State) (found : Array StructuralError) (read : Nat)
    (tokens : TokenStream) :
    ∃ n τ es, σ.Reads options.strictHeaderOrder (tokens.taken n) τ es ∧
      (options.failFast → es = []) ∧
      Halt options (found ++ es) (read + n) τ (tokens.skip n)
        (run options σ found read tokens) := by
  have at_once {σ found read tokens p} (halt : Halt options found read σ tokens p) :
      ∃ n τ es, σ.Reads options.strictHeaderOrder (tokens.taken n) τ es ∧
        (options.failFast → es = []) ∧
        Halt options (found ++ es) (read + n) τ (tokens.skip n) p := by
    refine ⟨0, σ, [], .none, fun _ => rfl, ?_⟩
    rw [Array.appendList_nil]
    exact halt
  fun_induction run options σ found read tokens with
  | case1 σ found read tokens ended => exact at_once (.ended ended)
  | case2 σ found read tokens more fault failed =>
    exact at_once (.failed (eq_false_of_ne_true more) failed)
  | case3 σ found read tokens more τ violations stepped stopped =>
    obtain ⟨fast, wrong⟩ : options.failFast ∧ violations ≠ [] := by simpa using stopped
    exact at_once (.stopped fast stepped wrong)
  | case4 σ found read tokens more τ violations stepped continued ih =>
    obtain ⟨n, υ, es, reads, clean, halt⟩ := ih
    refine ⟨n + 1, υ, violations ++ es, .next stepped reads, ?_, ?_⟩
    · intro fast
      have clear : violations = [] := by simpa [fast] using continued
      rw [clear, clean fast, List.append_nil]
    · rw [found_append, Nat.add_right_comm] at halt
      exact halt

theorem exists_halt_parseTokens (entry : Entry) (options : Options) (tokens : TokenStream) :
    ∃ n τ es, (State.initial entry).Reads options.strictHeaderOrder (tokens.taken n) τ es ∧
      (options.failFast → es = []) ∧
      Halt options es.toArray n τ (tokens.skip n) (parseTokens entry options tokens) := by
  obtain ⟨n, τ, es, reads, clean, halt⟩ := exists_halt options (.initial entry) #[] 0 tokens
  exact ⟨n, τ, es, reads, clean, by simpa [parseTokens] using halt⟩

/-- What a parse makes of tokens that it can read is what it makes of the token behind them. -/
theorem parseTokens_of_halt {entry : Entry}
    (reads : (State.initial entry).Reads options.strictHeaderOrder (tokens.taken n) τ es)
    (clean : options.failFast → es = []) (halt : Halt options es.toArray n τ (tokens.skip n) p) :
    parseTokens entry options tokens = p := by
  rw [parseTokens, run_of_reads reads clean, Nat.zero_add]
  exact run_of_halt (by simpa using halt)

/-- Without structural errors found on the way there are none in the end. -/
theorem conclude_ne_structural {last : Token} : conclude σ #[] last ≠ .error (.structural es) := by
  unfold conclude
  split <;> simp

theorem conclude_eq_syntactic {last : Token} {e : SyntaxError}
    (failed : conclude σ found last = .error (.syntactic e)) :
    ∃ fault, σ.ending = .error fault ∧ fault.toError last = e := by
  unfold conclude at failed
  split at failed
  · rename_i fault ended
    cases failed
    exact ⟨fault, ended, rfl⟩
  · split at failed <;> cases failed

/-- A syntax error is the fault of a state with the token ahead. -/
theorem Halt.exists_fault {e : SyntaxError} (halt : Halt options found read σ tokens p)
    (failed : p.result = .error (.syntactic e)) :
    p.advances = read ∧ ∃ fault,
      (σ.step options.strictHeaderOrder tokens.next = .error fault ∨ σ.ending = .error fault) ∧
        fault.toError tokens.next = e := by
  cases halt with
  | ended last =>
    obtain ⟨fault, ended, same⟩ := conclude_eq_syntactic failed
    exact ⟨rfl, fault, .inr ended, same⟩
  | failed more faulty =>
    cases failed
    exact ⟨rfl, _, .inl faulty, rfl⟩
  | stopped fast closed wrong => cases failed

end Yang.Parse
