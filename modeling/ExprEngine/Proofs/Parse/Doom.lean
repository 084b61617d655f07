import ExprEngine.Proofs.Parse.Table

/-!
# Operands that stay on the stack

Every token works on the top of a stack. A finished operand that another one covers is taken by
nothing any more, and a branch that is covered misses its `:` for good. As a bracket closes over
one finished operand only, one that has such an entry below the top never closes.

* `Entry.isStuck`           an entry that stays once it is covered;
* `OperandStack.Doomed`     a stack with such an entry below the top;
* `DoomedIn`                open brackets, one of them with a doomed stack;
* `Effect.doomed`           what one token does to a doomed stack;
* `Move.doomed`             and to the bracket that has it;
* `Reached.doomed`          the same along a run;
* `parse_of_doomed`         a parse that gets there fails.
-/

namespace ExprEngine

variable {r : Registry} {limits : Limits}

/-! ## stacks -/

/-- Whether an entry stays on the stack once another one covers it: it is finished, or a branch,
which only a `:` takes further. -/
def Entry.isStuck : Entry → Bool
  | .done _ => true
  | .pending (.branch ..) => true
  | .pending _ => false

theorem Pending.not_stuck_of_fill {p : Pending} {t : Tree} {e : Entry} (h : p.fill? t = some e) :
    (Entry.pending p).isStuck = false := by
  cases p with
  | branch => cases h
  | _ => rfl

namespace OperandStack

variable {s : OperandStack} {e : Entry}

/-- An entry that stays lies below the top. -/
def Doomed (s : OperandStack) : Prop := ∃ e ∈ s.tail, e.isStuck = true

theorem not_doomed_nil : ¬ Doomed [] := fun ⟨_, he, _⟩ => nomatch he

theorem not_doomed_single : ¬ Doomed [e] := fun ⟨_, he, _⟩ => nomatch he

/-- A tree that is handed over goes past no entry that stays. -/
theorem mem_tail_attach (t : Tree) (he : e ∈ s) (hstuck : e.isStuck = true) :
    e ∈ (s.attach t).tail := by
  -- an operator that takes the tree is not such an entry, so the entry is below it
  have below_of_fill : ∀ {p : Pending} {t : Tree} {e' : Entry} {below : OperandStack},
      p.fill? t = some e' → e ∈ Entry.pending p :: below → e ∈ below := by
    intro p t e' below hfill hmem
    rcases List.mem_cons.1 hmem with rfl | hmem
    · rw [Pending.not_stuck_of_fill hfill] at hstuck
      cases hstuck
    · exact hmem
  fun_induction attach s t with
  | case1 p below t t' hfill ih => exact ih (below_of_fill hfill he)
  | case2 p below t p' hfill => exact below_of_fill hfill he
  | case3 p below t hfill => exact he
  | case4 s t hs => exact he

theorem Doomed.attach (h : s.Doomed) (t : Tree) : (s.attach t).Doomed := by
  obtain ⟨e, he, hstuck⟩ := h
  exact ⟨e, mem_tail_attach t (List.mem_of_mem_tail he) hstuck, hstuck⟩

theorem mem_reopened (ps : List Pending) (he : e ∈ s) : e ∈ s.reopened ps := by
  induction ps generalizing s with
  | nil => exact he
  | cons p ps ih => exact ih (List.mem_cons_of_mem _ he)

/-- The left operand is taken from the top, and what is below stays below. -/
theorem Doomed.takeLeft {s' : OperandStack} {max : Nat} {b : Binding} {here : Lexeme} {left : Tree}
    (h : s.Doomed) (htaken : s.takeLeft max b here = .ok (left, s')) (p : Pending) :
    Doomed (.pending p :: s') := by
  obtain ⟨e, he, hstuck⟩ := h
  obtain ⟨top, below, ps, rfl, -, rfl⟩ := takeLeft_ok htaken
  exact ⟨e, mem_reopened ps he, hstuck⟩

theorem Doomed.separate {s' : OperandStack} {here : Lexeme} (h : s.Doomed)
    (hseparated : s.separate here = .ok s') : s'.Doomed := by
  obtain ⟨o, c, y, below, rfl, rfl⟩ := separate_ok hseparated
  exact h

theorem Doomed.push (h : s.Doomed) (p : Pending) : Doomed (.pending p :: s) := by
  obtain ⟨e, he, hstuck⟩ := h
  exact ⟨e, List.mem_of_mem_tail he, hstuck⟩

/-- A doomed stack leaves no operand. -/
theorem Doomed.single_error (h : s.Doomed) (ifEmpty : ParseError) :
    ∃ e, s.single ifEmpty = .error e := by
  cases hsingle : s.single ifEmpty with
  | error e => exact ⟨e, rfl⟩
  | ok t =>
    rw [single_ok hsingle] at h
    exact absurd h not_doomed_single

end OperandStack

/-! ## one token -/

variable {t : Lexeme} {ahead done : List Lexeme}

/-- Whatever a token does to the operands of its level, a doomed stack stays doomed. -/
theorem Effect.doomed {next next' : PartId} {s s' : OperandStack} {skip : Nat}
    (h : Effect r t ahead next s s' next' skip) (hs : s.Doomed) : s'.Doomed := by
  cases h with
  | leaf => exact hs.attach _
  | unary => exact hs.push _
  | cast => exact hs.push _
  | binary sign taken => exact hs.takeLeft taken _
  | condition sign taken => exact hs.takeLeft taken _
  | separate sign separated => exact hs.separate separated

theorem Level.Arguments.not_doomed {bare : Bool} {s : OperandStack} {args written : List Tree}
    (h : Level.Arguments bare s args written) : ¬ s.Doomed := by
  cases h with
  | bare => exact OperandStack.not_doomed_nil
  | last => exact OperandStack.not_doomed_single

/-- Open brackets, the innermost first, one of which has a doomed stack. That one is told by its
kind, the arguments it has, and the brackets around it. -/
inductive DoomedIn (bracket : Bracket) (args : List Tree) (around : List Level) : List Level → Prop
  | here {s : OperandStack} (doomed : s.Doomed) :
      DoomedIn bracket args around (⟨bracket, s, args⟩ :: around)
  | inside {l : Level} {levels : List Level} (rest : DoomedIn bracket args around levels) :
      DoomedIn bracket args around (l :: levels)

namespace DoomedIn

variable {bracket : Bracket} {args : List Tree} {around levels outer : List Level} {l : Level}

theorem of_append {inner : List Level} (h : l.operands.Doomed) :
    DoomedIn l.bracket l.args around (inner ++ l :: around) := by
  induction inner with
  | nil => exact .here h
  | cons l' inner ih => exact .inside ih

theorem exists_append (h : DoomedIn bracket args around levels) :
    ∃ inner s, levels = inner ++ ⟨bracket, s, args⟩ :: around ∧ OperandStack.Doomed s := by
  induction h with
  | here doomed => exact ⟨[], _, rfl, doomed⟩
  | inside _ ih =>
    obtain ⟨inner, s, rfl, doomed⟩ := ih
    exact ⟨_ :: inner, s, rfl, doomed⟩

/-- Other operands in the innermost level, doomed if it was the doomed one. -/
theorem setOperands {s : OperandStack} (h : DoomedIn bracket args around (l :: outer))
    (hs : l.operands.Doomed → s.Doomed) :
    DoomedIn bracket args around ({ l with operands := s } :: outer) := by
  cases h with
  | here doomed => exact .here (hs doomed)
  | inside rest => exact .inside rest

/-- The doomed level lies around one that is not doomed. -/
theorem outside (h : DoomedIn bracket args around (l :: outer)) (hl : ¬ l.operands.Doomed) :
    DoomedIn bracket args around outer := by
  cases h with
  | here doomed => exact absurd doomed hl
  | inside rest => exact rest

/-- The only open bracket is the doomed one. -/
theorem of_single (h : DoomedIn bracket args around [l]) : l.operands.Doomed := by
  cases h with
  | here doomed => exact doomed
  | inside rest => cases rest

end DoomedIn

section
variable {bracket : Bracket} {args : List Tree} {around : List Level} {st st' : ParseState} {i : Nat}

/-- No token closes a doomed bracket, and none ends its last argument. -/
theorem Move.doomed (m : Move r t ahead st st')
    (h : DoomedIn bracket args around (st.level :: st.outer)) :
    DoomedIn bracket args around (st'.level :: st'.outer) := by
  cases m with
  | operands effect => exact h.setOperands effect.doomed
  | comma => exact .inside (h.outside OperandStack.not_doomed_single)
  | openGroup => exact .inside h
  | openCall => exact .inside h
  | closeGroup =>
    exact (h.outside OperandStack.not_doomed_single).setOperands fun hs => hs.attach _
  | closeCall complete =>
    exact (h.outside complete.not_doomed).setOperands fun hs => hs.attach _

/-! ## runs -/

namespace ParseState

theorem doomed_step (hr : Reached r st done (t :: ahead)) (hn : Numbered i (t :: ahead))
    (hstep : st.step r limits t ahead = .ok st')
    (h : DoomedIn bracket args around (st.level :: st.outer)) :
    DoomedIn bracket args around (st'.level :: st'.outer) := by
  rcases (reads_step hr.reads hn hstep).2 with hmove | rfl
  · exact hmove.doomed h
  · exact h

/-- Whatever lexemes a run goes over, a doomed bracket stays open and doomed. -/
theorem Reached.doomed {ls : List Lexeme} (hr : Reached r st done (ls ++ ahead))
    (hn : Numbered i (ls ++ ahead))
    (hrun : ParseState.readBefore r limits ahead ls st = .ok st')
    (h : DoomedIn bracket args around (st.level :: st.outer)) :
    DoomedIn bracket args around (st'.level :: st'.outer) := by
  induction ls generalizing st done i with
  | nil =>
    cases hrun
    exact h
  | cons t ts ih =>
    obtain ⟨st₁, hstep, hrest⟩ := bind_eq_ok.1 hrun
    exact ih (hr.step hn hstep) hn.2 hrest (doomed_step hr hn hstep h)

end ParseState

/-- A parse that has an open bracket with a doomed stack fails. -/
theorem parse_of_doomed {stream : TokenStream} {before after : List Lexeme}
    (hlexemes : stream.lexemes = before ++ after)
    (hrun : ParseState.readBefore r limits after before {} = .ok st)
    (h : DoomedIn bracket args around (st.level :: st.outer)) :
    ∃ e, parse stream r limits = .error e := by
  cases hparse : parse stream r limits with
  | error e => exact ⟨e, rfl⟩
  | ok e =>
    exfalso
    obtain ⟨st', hall, hroot⟩ := bind_eq_ok.1 hparse
    obtain ⟨root, hsingle, -⟩ := bind_eq_ok.1 hroot
    have hn := numbered_lexemes stream
    rw [hlexemes, ParseState.run_append, hrun, ok_bind] at hall
    rw [hlexemes] at hn
    have hreached := (ParseState.reached_start (before ++ after)).readBefore hn hrun
    obtain ⟨hdoomed, hreads⟩ := ParseState.run_invariant
      (P := fun levels _ => DoomedIn bracket args around levels) (fun m h => m.doomed h)
      hreached.reads (Numbered.append.1 hn).2 h hall
    -- at the end only the whole is open, and it leaves one operand
    rw [hreads.closed.1] at hdoomed
    have hwhole := hdoomed.of_single
    rw [OperandStack.single_ok hsingle] at hwhole
    exact OperandStack.not_doomed_single hwhole

end

end ExprEngine
