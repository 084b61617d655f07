import ExprEngine.Proofs.Parse.Step

/-!
# Nothing is lost, duplicated or reordered

A run reads all its lexemes, and what its moves preserve holds at its end.

* `reads_step`          a step reads its token;
* `run_invariant`       a run, by induction on its lexemes;
* `parse_invariant`     a whole parse;
* `parse_readBack`      a parsed tree is written as the lexemes of its source.
-/

namespace ExprEngine

variable {r : Registry} {limits : Limits}

/-- A step reads its token, by a move unless the token was accounted for before. -/
theorem ParseState.reads_step {t : Lexeme} {ts : List Lexeme} {st st' : ParseState}
    {done : List Lexeme} {i : Nat}
    (hr : Reads r (st.level :: st.outer) (done ++ (t :: ts).take st.skip) ((t :: ts).drop st.skip))
    (hn : Numbered i (t :: ts)) (h : st.step r limits t ts = .ok st') :
    Reads r (st'.level :: st'.outer) ((done ++ [t]) ++ ts.take st'.skip) (ts.drop st'.skip) ∧
      (Move r t ts st st' ∨ st' = { st with skip := st.skip - 1 }) := by
  obtain ⟨l, outer, next, skip⟩ := st
  cases skip with
  | succ skip =>
    cases h
    refine ⟨?_, .inr rfl⟩
    rw [List.append_assoc]
    exact hr
  | zero =>
    rw [List.take_zero, List.append_nil] at hr
    have m := move_of_step hr hn rfl h
    refine ⟨?_, .inl m⟩
    rw [List.append_assoc]
    exact hr.move hn m

/-- What the moves preserve holds at the end of a run, which has read all its lexemes. -/
theorem ParseState.run_invariant {P : List Level → PartId → Prop}
    (move : ∀ {t ahead st st'}, Move r t ahead st st' → P (st.level :: st.outer) st.next →
      P (st'.level :: st'.outer) st'.next)
    {ls : List Lexeme} {st st' : ParseState} {done : List Lexeme} {i : Nat}
    (hr : Reads r (st.level :: st.outer) (done ++ ls.take st.skip) (ls.drop st.skip))
    (hn : Numbered i ls) (hp : P (st.level :: st.outer) st.next)
    (h : run r limits ls st = .ok st') :
    P (st'.level :: st'.outer) st'.next ∧ Reads r (st'.level :: st'.outer) (done ++ ls) [] := by
  induction ls generalizing st done i with
  | nil =>
    cases h
    rw [List.take_nil, List.drop_nil] at hr
    exact ⟨hp, hr⟩
  | cons t ts ih =>
    rw [run] at h
    split at h
    · rename_i st₁ hstep
      obtain ⟨hr', hmove⟩ := reads_step hr hn hstep
      rw [List.append_cons]
      refine ih hr' hn.2 ?_ h
      rcases hmove with m | rfl
      · exact move m hp
      · exact hp
    · cases h

/-- What the moves preserve holds at the end of a parse, which has read all its lexemes. -/
theorem parse_invariant {P : List Level → PartId → Prop} (start : P [{ bracket := .whole }] 0)
    (move : ∀ {t ahead st st'}, Move r t ahead st st' → P (st.level :: st.outer) st.next →
      P (st'.level :: st'.outer) st'.next)
    {s : TokenStream} {e : Expr} (h : parse s r limits = .ok e) :
    P [{ bracket := .whole, operands := [.done e.tree] }] e.partCount ∧
      Phrase r e.tree s.lexemes := by
  unfold parse at h
  obtain ⟨st, hrun, h⟩ := bind_eq_ok.1 h
  obtain ⟨root, hroot, h⟩ := bind_eq_ok.1 h
  obtain rfl := Except.ok.inj h
  obtain ⟨l, outer, next, skip⟩ := st
  obtain ⟨bracket, operands, args⟩ := l
  obtain rfl : operands = [.done root] := OperandStack.single_ok hroot
  have hstart : Reads r [{ bracket := .whole }] ([] ++ s.lexemes.take 0) (s.lexemes.drop 0) :=
    .whole .nil
  obtain ⟨hp, hr⟩ := ParseState.run_invariant move hstart (numbered_lexemes s) start hrun
  rw [List.nil_append] at hr
  -- nothing is ahead any more, so no bracket is open
  generalize s.lexemes = ls at hr ⊢
  generalize ha : ([] : List Lexeme) = ahead at hr
  cases hr with
  | whole stack => exact ⟨hp, stack.done⟩
  | group => simp at ha
  | call => simp at ha

/-- A parsed tree is written as the lexemes it was parsed from. -/
theorem phrase_of_parse {s : TokenStream} {e : Expr} (h : parse s r limits = .ok e) :
    Phrase r e.tree s.lexemes :=
  have hinv := parse_invariant (P := fun _ _ => True) trivial (fun _ _ => trivial) h
  hinv.2

/-- A parsed tree is written as the lexemes of its source, every part at the position of its own
lexeme. Parentheses and commas are what their kinds say. -/
theorem parse_readBack {source : String} {tokens : List Token} (ht : tokenize source = .ok tokens)
    {e : Expr} (h : parse ⟨source.toList, tokens⟩ r limits = .ok e) :
    Phrase r e.tree (TokenStream.lexemes ⟨source.toList, tokens⟩) ∧
      Numbered 0 (TokenStream.lexemes ⟨source.toList, tokens⟩) ∧
      ∀ l ∈ TokenStream.lexemes ⟨source.toList, tokens⟩, l.Proper :=
  ⟨phrase_of_parse h, numbered_lexemes _, proper_of_tokenize ht⟩

/-! ## a sample -/

/-- A registry with a variable `x` and a function `f`, whose second parameter is optional. -/
def sampleRegistry : Registry :=
  { vars := [⟨"x", .int ⟨true, .w32⟩, false, false⟩]
    funcs := [⟨"f", .bool, [⟨.bool, none⟩, ⟨.bool, some (.bool true)⟩]⟩] }

/-- An assignment whose value is a choice, with a call as its condition. -/
def sampleSource : String := "x = f(1) ? 2 : ~x"

/-- The tokens of the sample. -/
def sampleTokens : List Token :=
  [⟨.identifier, ⟨0, 1⟩⟩, ⟨.operator, ⟨2, 3⟩⟩, ⟨.identifier, ⟨4, 5⟩⟩, ⟨.parenthesis, ⟨5, 6⟩⟩,
   ⟨.number, ⟨6, 7⟩⟩, ⟨.parenthesis, ⟨7, 8⟩⟩, ⟨.operator, ⟨9, 10⟩⟩, ⟨.number, ⟨11, 12⟩⟩,
   ⟨.operator, ⟨13, 14⟩⟩, ⟨.operator, ⟨15, 16⟩⟩, ⟨.identifier, ⟨16, 17⟩⟩]

/-- The tree of the sample. The second argument of the call is its default. -/
def sampleTree : Tree :=
  .binary ⟨1, 1, ⟨2, 3⟩⟩ .assign (.reference ⟨0, 0, ⟨0, 1⟩⟩ 0)
    (.choice ⟨5, 6, ⟨9, 10⟩⟩
      (.call ⟨4, 2, ⟨4, 8⟩⟩ 0
        [.constant ⟨2, 4, ⟨6, 7⟩⟩ (.int (.wrap ⟨false, .w8⟩ 1)),
         .constant ⟨3, 5, ⟨7, 8⟩⟩ (.bool true)])
      (.constant ⟨6, 7, ⟨11, 12⟩⟩ (.int (.wrap ⟨false, .w8⟩ 2)))
      (.unary ⟨7, 9, ⟨15, 16⟩⟩ .complement (.reference ⟨8, 10, ⟨16, 17⟩⟩ 0)))

theorem tokenize_sample : tokenize sampleSource = .ok sampleTokens := by decide +kernel

set_option maxRecDepth 10000 in
theorem parse_sample :
    parse ⟨sampleSource.toList, sampleTokens⟩ sampleRegistry {} = .ok ⟨sampleTree, 9⟩ := rfl

theorem parse_readBack_sample :
    Phrase sampleRegistry sampleTree
        (TokenStream.lexemes ⟨sampleSource.toList, sampleTokens⟩) ∧
      Numbered 0 (TokenStream.lexemes ⟨sampleSource.toList, sampleTokens⟩) ∧
      ∀ l ∈ TokenStream.lexemes ⟨sampleSource.toList, sampleTokens⟩, l.Proper :=
  parse_readBack tokenize_sample parse_sample

end ExprEngine
