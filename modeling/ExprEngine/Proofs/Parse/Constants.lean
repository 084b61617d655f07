import ExprEngine.Proofs.Parse.Fault
import ExprEngine.Proofs.Token.Numerals

/-!
# Where constants are refused

A run stops at a number that has no value, if it gets there, since it passes over no numbers. It
refuses a constant nowhere else.

* `ParseState.readBefore`          a run up to some lexemes that it can look ahead at;
* `run_append`, `run_error`        a run, taken apart where it goes on or fails;
* `ParseState.Reached`             a state in front of some lexemes;
* `Reached.stops`                  it cannot get past a number without a value;
* `RefusesConstants`               the numbers that a parse refuses;
* `number_literals_exact`          number literals, from digits to the errors of a parse.
-/

namespace ExprEngine

variable {r : Registry} {limits : Limits}

namespace ParseState

/-! ## a run up to a lexeme -/

/-- A run over some lexemes, with those behind them only to look ahead at. -/
def readBefore (r : Registry) (limits : Limits) (ahead : List Lexeme) :
    List Lexeme → ParseState → Except ParseError ParseState
  | [], st => .ok st
  | t :: ts, st => st.step r limits t (ts ++ ahead) >>= readBefore r limits ahead ts

variable {ahead : List Lexeme}

/-- A run goes over its first lexemes and then over the others. -/
theorem run_append {done : List Lexeme} {st : ParseState} :
    run r limits (done ++ ahead) st =
      (readBefore r limits ahead done st >>= run r limits ahead) := by
  induction done generalizing st with
  | nil => rfl
  | cons t ts ih =>
    rw [List.cons_append, run, readBefore]
    cases st.step r limits t (ts ++ ahead) with
    | error e => rfl
    | ok st' => exact ih

/-- A run that fails does so at one of its lexemes, in front of which it gets. -/
theorem run_error {ls : List Lexeme} {st : ParseState} {e : ParseError}
    (h : run r limits ls st = .error e) :
    ∃ done t ahead st', ls = done ++ t :: ahead ∧
      readBefore r limits (t :: ahead) done st = .ok st' ∧
      st'.step r limits t ahead = .error e := by
  induction ls generalizing st with
  | nil => cases h
  | cons t ts ih =>
    rw [run] at h
    split at h
    · rename_i st₁ hstep
      obtain ⟨done, u, ahead, st', rfl, hbefore, hfails⟩ := ih h
      refine ⟨t :: done, u, ahead, st', rfl, ?_, hfails⟩
      rw [readBefore, hstep]
      exact hbefore
    · rename_i hstep
      cases h
      exact ⟨[], t, ts, st, rfl, rfl, hstep⟩

end ParseState

/-! ## states in front of lexemes -/

theorem not_number_of_opening {l : Lexeme} (h : l.isOpening = true) : l.kind ≠ .number := by
  intro hkind
  rw [Lexeme.isOpening, hkind] at h
  cases h

/-- The lexemes taken along with a token are no numbers. -/
theorem Move.skips {t : Lexeme} {ahead : List Lexeme} {st st' : ParseState}
    (h : Move r t ahead st st') : ∀ u ∈ ahead.take st'.skip, u.kind ≠ .number := by
  have hnone : ∀ u ∈ ahead.take 0, u.kind ≠ .number := nofun
  cases h with
  | operands effect =>
    cases effect with
    | cast bracket opens kind type closes follows =>
      subst follows
      intro u hu
      simp only [List.take_succ_cons, List.take_zero, List.mem_cons, List.not_mem_nil,
        or_false] at hu
      rcases hu with rfl | rfl
      · rw [kind]
        exact nofun
      · rw [closes.1]
        exact nofun
    | _ => exact hnone
  | openCall kind opens closes follows =>
    subst follows
    intro u hu
    simp only [List.take_succ_cons, List.take_zero, List.mem_singleton] at hu
    exact hu ▸ not_number_of_opening opens
  | _ => exact hnone

namespace ParseState

variable {st st' : ParseState} {done ahead : List Lexeme} {t : Lexeme} {i : Nat}

/-- A state that has read what stands before some lexemes. Those that it will pass over are no
numbers. -/
structure Reached (r : Registry) (st : ParseState) (done ahead : List Lexeme) : Prop where
  reads : Reads r (st.level :: st.outer) (done ++ ahead.take st.skip) (ahead.drop st.skip)
  skips : ∀ u ∈ ahead.take st.skip, u.kind ≠ .number

theorem reached_start (ahead : List Lexeme) : Reached r {} [] ahead where
  reads := .whole .nil
  skips := nofun

theorem Reached.step (h : Reached r st done (t :: ahead)) (hn : Numbered i (t :: ahead))
    (hstep : st.step r limits t ahead = .ok st') : Reached r st' (done ++ [t]) ahead := by
  obtain ⟨hreads, hmove⟩ := reads_step h.reads hn hstep
  refine ⟨hreads, ?_⟩
  rcases hmove with hmove | rfl
  · exact hmove.skips
  · obtain ⟨l, outer, next, skip⟩ := st
    cases skip with
    | zero => exact nofun
    | succ skip => exact fun u hu => h.skips u (List.mem_cons_of_mem _ hu)

theorem Reached.readBefore {ls : List Lexeme} (h : Reached r st done (ls ++ ahead))
    (hn : Numbered i (ls ++ ahead)) (hrun : readBefore r limits ahead ls st = .ok st') :
    Reached r st' (done ++ ls) ahead := by
  induction ls generalizing st done i with
  | nil =>
    cases hrun
    rwa [List.append_nil]
  | cons t ts ih =>
    obtain ⟨st₁, hstep, hrest⟩ := bind_eq_ok.1 hrun
    rw [List.append_cons]
    exact ih (h.step hn hstep) hn.2 hrest

/-- No bracket closes at a number. -/
theorem Reached.open_at_number (h : Reached r st done (t :: ahead)) (hn : Numbered i (t :: ahead))
    (hskip : st.skip = 0) (hkind : t.kind = .number) :
    st.level.bracket.close? ≠ some t.index := by
  intro hclose
  have hreads := h.reads
  rw [hskip, List.drop_zero] at hreads
  obtain ⟨c, hc, hindex, hcloses⟩ := hreads.close hclose
  rcases List.mem_cons.1 hc with rfl | hc
  · cases hkind.symm.trans hcloses.1
  · have := (hn.2.le hc).1
    have := hn.1
    omega

/-- In front of a number that has no value a run stops: the number is not passed over, and no
bracket closes at it. -/
theorem Reached.stops (h : Reached r st done (t :: ahead)) (hn : Numbered i (t :: ahead))
    (hkind : t.kind = .number) (hvalueless : Literal.number? t.text.toList = none) :
    st.step r limits t ahead = .error (t.parseError .invalidConstant) := by
  cases hskip : st.skip with
  | succ skip =>
    have hpassed : t ∈ (t :: ahead).take st.skip := by
      rw [hskip]
      exact List.mem_cons_self ..
    exact absurd hkind (h.skips t hpassed)
  | zero =>
    unfold ParseState.step
    rw [hskip]
    dsimp only
    rw [if_neg (h.open_at_number hn hskip hkind)]
    simp only [token, hkind, hvalueless]

theorem Reached.run_stops (h : Reached r st done (t :: ahead)) (hn : Numbered i (t :: ahead))
    (hkind : t.kind = .number) (hvalueless : Literal.number? t.text.toList = none) :
    run r limits (t :: ahead) st = .error (t.parseError .invalidConstant) := by
  rw [run, h.stops hn hkind hvalueless]

end ParseState

/-! ## parses -/

/-- The numbers that a parse refuses: those out of range, if it gets in front of one. -/
structure RefusesConstants (r : Registry) (limits : Limits) (s : TokenStream) : Prop where
  stops : ∀ done l ahead, s.lexemes = done ++ l :: ahead → l.kind = .number →
    OutOfRange l.text.toList →
      parse s r limits = (ParseState.readBefore r limits (l :: ahead) done {} >>= fun _ =>
        .error (l.parseError .invalidConstant))
  only : ∀ e, parse s r limits = .error e → e.cause = .invalidConstant →
    ∃ done l ahead st, s.lexemes = done ++ l :: ahead ∧ l.kind = .number ∧
      OutOfRange l.text.toList ∧ ParseState.readBefore r limits (l :: ahead) done {} = .ok st ∧
      e = l.parseError .invalidConstant

/-- The text of a number token is a numeral. -/
theorem numeral_of_tokenize {source : String} {tokens : List Token}
    (ht : tokenize source = .ok tokens) {t : Token} (hmem : t ∈ tokens) (hkind : t.kind = .number) :
    Numeral (t.span.slice source.toList) := by
  have hspells := spells_of_tokenize ht hmem
  rw [hkind] at hspells
  exact hspells

/-- The numbers of a source that have no value are those out of range. -/
theorem valueless_iff {source : String} {tokens : List Token} (ht : tokenize source = .ok tokens)
    {l : Lexeme} (hl : l ∈ TokenStream.lexemes ⟨source.toList, tokens⟩) (hkind : l.kind = .number) :
    Literal.number? l.text.toList = none ↔ OutOfRange l.text.toList := by
  have hspells := lexeme_spells ht hl
  rw [hkind] at hspells
  exact number?_eq_none_iff hspells

/-- A constant is refused in one place only: at a number without a value. -/
theorem ParseState.Fault.constant_inv {N : String → Prop} {st : ParseState} {t : Lexeme}
    {e : ParseError} (h : Fault N st t e) (hcause : e.cause = .invalidConstant) :
    t.kind = .number ∧ Literal.number? t.text.toList = none ∧
      e = t.parseError .invalidConstant := by
  cases h with
  | apart operands =>
    obtain ⟨a, b, newer, -, rfl⟩ := operands
    cases hcause
  | constant kind valueless => exact ⟨kind, valueless, rfl⟩
  | other cause => exact absurd hcause cause.ordinary.2

/-- A parse that refuses a constant does so in its run. -/
theorem run_of_invalidConstant {s : TokenStream} {e : ParseError} (h : parse s r limits = .error e)
    (hcause : e.cause = .invalidConstant) :
    ParseState.run r limits s.lexemes {} = .error e := by
  rcases bind_eq_error.1 h with hrun | ⟨st, -, hroot⟩
  · exact hrun
  rcases bind_eq_error.1 hroot with hsingle | ⟨_, -, hok⟩
  · have hempty : ParseCause.Plain (fun _ => True) .emptyExpression := .silent ⟨nofun, nofun⟩ rfl
    rcases (OperandStack.single_faults hempty).of_error hsingle with hordinary | ⟨_, _, _, -, rfl⟩
    · exact absurd hcause hordinary.ordinary.2
    · cases hcause
  · cases hok

theorem refuses_constants {source : String} {tokens : List Token}
    (ht : tokenize source = .ok tokens) (r : Registry) (limits : Limits) :
    RefusesConstants r limits ⟨source.toList, tokens⟩ := by
  constructor
  · intro done l ahead hls hkind hout
    have hvalueless := (valueless_iff ht (hls ▸ by simp) hkind).2 hout
    have hnumbered := numbered_lexemes ⟨source.toList, tokens⟩
    rw [hls] at hnumbered
    unfold parse
    rw [hls, ParseState.run_append]
    cases hbefore : ParseState.readBefore r limits (l :: ahead) done {} with
    | error e => rfl
    | ok st =>
      have hreached := (ParseState.reached_start _).readBefore hnumbered hbefore
      rw [ok_bind, hreached.run_stops (Numbered.append.1 hnumbered).2 hkind hvalueless]
      rfl
  · intro e he hcause
    have hrun := run_of_invalidConstant he hcause
    obtain ⟨done, l, ahead, st, hls, hbefore, hstep⟩ := ParseState.run_error hrun
    have hfaults : ParseState.Faults (fun _ => True) st l (st.step r limits l ahead) :=
      ParseState.step_faults (fun _ => trivial) (fun _ _ _ _ _ => trivial) ahead
    obtain ⟨hkind, hvalueless, rfl⟩ := (hfaults.of_error hstep).constant_inv hcause
    have hout := (valueless_iff ht (hls ▸ by simp) hkind).1 hvalueless
    exact ⟨done, l, ahead, st, hls, hkind, hout, hbefore, rfl⟩

/-- What every number literal of the sources denotes, and where a parser refuses one. Digits are
read as the narrowest integer, unsigned without a sign and signed behind a minus sign, up to 64
bits; a number with a point is always a float, whose width its significant digits decide. So a
constant is refused exactly at integers out of range. -/
theorem number_literals_exact :
    (∀ ds : Text, ds.Digits → ds ≠ [] → IntegerRead ds) ∧
      ∀ (source : String) (tokens : List Token), tokenize source = .ok tokens →
        (∀ t ∈ tokens, t.kind = .number → '.' ∈ t.span.slice source.toList →
          PointRead (t.span.slice source.toList)) ∧
        ∀ (r : Registry) (limits : Limits), RefusesConstants r limits ⟨source.toList, tokens⟩ := by
  refine ⟨fun ds digits nonempty => integers_read digits nonempty, fun source tokens ht => ?_⟩
  refine ⟨fun t hmem hkind hpoint => ?_, refuses_constants ht⟩
  exact point_read (numeral_of_tokenize ht hmem hkind) hpoint

/-- A sum of a fraction and the least integer that takes more than 64 bits. -/
def hugeSource : String := "0.50 + 18446744073709551616"

def hugeTokens : List Token :=
  [⟨.number, ⟨0, 4⟩⟩, ⟨.operator, ⟨5, 6⟩⟩, ⟨.number, ⟨7, 27⟩⟩]

theorem tokenize_huge : tokenize hugeSource = .ok hugeTokens := by decide +kernel

theorem number_literals_exact_huge :
    IntegerRead "0255".toList ∧ PointRead "0.50".toList ∧
      parse ⟨hugeSource.toList, hugeTokens⟩ sampleRegistry {} =
        .error ⟨.invalidConstant, some 2, ⟨7, 27⟩, none⟩ := by
  obtain ⟨hintegers, hsources⟩ := number_literals_exact
  obtain ⟨hpoints, hrefuses⟩ := hsources hugeSource hugeTokens tokenize_huge
  refine ⟨hintegers _ (by decide) (by decide), ?_, ?_⟩
  · exact hpoints ⟨.number, ⟨0, 4⟩⟩ (by decide) rfl (by decide)
  · exact (hrefuses sampleRegistry {}).stops
      [⟨0, .number, ⟨0, 4⟩, "0.50"⟩, ⟨1, .operator, ⟨5, 6⟩, "+"⟩]
      ⟨2, .number, ⟨7, 27⟩, "18446744073709551616"⟩ [] rfl rfl
      ⟨_, by decide, by decide, .inl ⟨rfl, by decide⟩⟩

end ExprEngine
