import ExprEngine.Proofs.Parse.Agreement
import ExprEngine.Proofs.Parse.Bounds

/-!
# Where the errors of a parse come from

Most causes are given in several places. Two are given in one place each: a missing operator where
a bracket closes, or an argument or the source ends, over more than one finished operand, and an
invalid constant at a number that has no value. What a cause quotes is the text of a lexeme.

* `ParseCause.Ordinary`      every other cause;
* `ParseCause.quoted?`       the text that a cause quotes;
* `OperandStack.Apart`       an error about the two oldest operands of a stack;
* `ParseState.Fault`         what an error of a step may be about;
* `step_faults`              one token;
* `WordAmong`                a text that a parse may quote;
* `ParseError.Explained`     what an error of a parse may be about, told by its lexemes;
* `parse_explained`          a whole parse.
-/

namespace ExprEngine

/-- Every cause but a missing operator and a constant without a value. -/
def ParseCause.Ordinary (c : ParseCause) : Prop := c ≠ .missingOperator ∧ c ≠ .invalidConstant

/-- The text that the message of a cause quotes. -/
def ParseCause.quoted? : ParseCause → Option String
  | invalidOperator text => some text
  | unknownVariable name => some name
  | unknownFunction name => some name
  | tooManyArguments name _ => some name
  | missingArguments name _ => some name
  | _ => none

/-- An ordinary cause that quotes nothing but texts with a property. -/
structure ParseCause.Plain (N : String → Prop) (c : ParseCause) : Prop where
  ordinary : c.Ordinary
  quotes : ∀ text, c.quoted? = some text → N text

/-- A cause that quotes nothing. -/
theorem ParseCause.Plain.silent {N : String → Prop} {c : ParseCause} (h : c.Ordinary)
    (hnone : c.quoted? = none) : c.Plain N :=
  ⟨h, fun _ htext => nomatch hnone.symm.trans htext⟩

/-- A cause that quotes one text. -/
theorem ParseCause.Plain.quoting {N : String → Prop} {c : ParseCause} {text : String}
    (h : c.Ordinary) (hquoted : c.quoted? = some text) (htext : N text) : c.Plain N := by
  refine ⟨h, fun text' htext' => ?_⟩
  cases hquoted.symm.trans htext'
  exact htext

/-- A computation that fails for ordinary causes only, which quote texts with a property. -/
abbrev Ordinarily {α : Type} (N : String → Prop) : Except ParseError α → Prop :=
  Ends (fun e => e.cause.Plain N) fun _ => True

variable {N : String → Prop}

/-! ## the operand stack -/

namespace OperandStack

variable {max : Nat} {s : OperandStack}

/-- An error about the two oldest operands of a stack, both of them finished. -/
def Apart (s : OperandStack) (e : ParseError) : Prop :=
  ∃ a b newer, s.reverse = .done a :: .done b :: newer ∧
    e = { b.origin.parseError .missingOperator with related := some a.extent }

theorem push_ordinarily (e : Entry) : Ordinarily N (push max e s) := by
  unfold push
  split
  · exact .silent ⟨nofun, nofun⟩ rfl
  · trivial

theorem connect_ordinarily (t : Tree) : Ordinarily N (connect max s t) := by
  fun_induction connect max s t with
  | case1 p below t t' hf ih => exact ih
  | case2 p below t p' hf => trivial
  | case3 p below t hf => exact push_ordinarily _
  | case4 s t hs => exact push_ordinarily _

theorem pushAll_ordinarily (ps : List Pending) : Ordinarily N (pushAll max ps s) := by
  induction ps generalizing s with
  | nil => trivial
  | cons p ps ih =>
    rw [pushAll]
    split
    · exact ih
    · rename_i e he
      exact (push_ordinarily (.pending p)).of_error he

theorem leftOperand_ordinarily (b : Binding) (e : Entry) : Ordinarily N (e.leftOperand b) := by
  cases e with
  | done t => trivial
  | pending p =>
    cases p with
    | branch => trivial
    | _ => exact .silent ⟨nofun, nofun⟩ rfl

theorem takeLeft_ordinarily (b : Binding) (here : Lexeme) : Ordinarily N (takeLeft max b here s) := by
  cases s with
  | nil => exact .silent ⟨nofun, nofun⟩ rfl
  | cons e below =>
    rw [takeLeft]
    split
    · rename_i err he
      exact (leftOperand_ordinarily b e).of_error he
    · rename_i reopened operand he
      split
      · rename_i err hpush
        exact (pushAll_ordinarily reopened).of_error hpush
      · trivial

theorem separate_ordinarily {here : Lexeme} (hhere : N here.text) :
    Ordinarily N (separate here s) := by
  unfold separate
  split
  · exact .silent ⟨nofun, nofun⟩ rfl
  · trivial
  · exact .silent ⟨nofun, nofun⟩ rfl
  · exact .quoting ⟨nofun, nofun⟩ rfl hhere

/-- Where one operand is asked for, an operator is missing if there are more that are finished. -/
theorem single_faults {ifEmpty : ParseError} (hempty : ifEmpty.cause.Plain N) :
    Ends (fun e => e.cause.Plain N ∨ s.Apart e) (fun _ => True) (s.single ifEmpty) := by
  unfold single
  split
  · exact .inl (.silent ⟨nofun, nofun⟩ rfl)
  rename_i hfinished
  split
  · exact .inl hempty
  · trivial
  rename_i first second newer hs
  have hdone : ∀ e ∈ s.reverse, ∃ t, e = .done t := by
    intro e he
    cases e with
    | done t => exact ⟨t, rfl⟩
    | pending p => cases List.findSome?_eq_none_iff.1 hfinished _ he
  rw [hs] at hdone
  obtain ⟨a, rfl⟩ := hdone first (by simp)
  obtain ⟨b, rfl⟩ := hdone second (by simp)
  exact .inr ⟨a, b, newer, hs, rfl⟩

end OperandStack

/-! ## one token -/

namespace ParseState

variable {r : Registry} {limits : Limits} {st : ParseState} {t : Lexeme}

theorem alloc_ordinarily (token : Nat) (span : Span) : Ordinarily N (st.alloc limits token span) := by
  unfold alloc
  split
  · exact .silent ⟨nofun, nofun⟩ rfl
  · trivial

theorem place_ordinarily (token : Nat) (span : Span) (make : Origin → Tree) :
    Ordinarily N (st.place limits token span make) :=
  (alloc_ordinarily token span).bind fun _ _ _ =>
    (OperandStack.connect_ordinarily _).bind fun _ _ _ => trivial

theorem await_ordinarily (token : Nat) (span : Span) (make : Origin → Pending) :
    Ordinarily N (st.await limits token span make) :=
  (alloc_ordinarily token span).bind fun _ _ _ =>
    (OperandStack.push_ordinarily _).bind fun _ _ _ => trivial

theorem infixOperator_ordinarily (b : Binding) (make : Tree → Origin → Pending) :
    Ordinarily N (st.infixOperator limits t b make) :=
  (OperandStack.takeLeft_ordinarily b t).bind fun _ _ _ => await_ordinarily _ _ _

theorem operator_ordinarily (ht : N t.text) : Ordinarily N (st.operator limits t) := by
  unfold operator
  split
  · exact (OperandStack.separate_ordinarily ht).map fun _ _ => trivial
  split
  · exact .quoting ⟨nofun, nofun⟩ rfl ht
  · exact await_ordinarily _ _ _
  · exact infixOperator_ordinarily _ _
  · exact infixOperator_ordinarily _ _

theorem descend_ordinarily (opening : Lexeme) (bracket : Bracket) (skip : Nat) :
    Ordinarily N (st.descend limits opening bracket skip) := by
  unfold descend
  split
  · exact .silent ⟨nofun, nofun⟩ rfl
  · trivial

theorem openCall_ordinarily (name opening : Lexeme) (ahead : List Lexeme) :
    Ordinarily N (st.openCall limits name opening ahead) := by
  unfold openCall
  split
  · exact .silent ⟨nofun, nofun⟩ rfl
  · exact descend_ordinarily _ _ _

theorem openParenthesis_ordinarily (ahead : List Lexeme) :
    Ordinarily N (st.openParenthesis limits t ahead) := by
  unfold openParenthesis
  split
  · exact .silent ⟨nofun, nofun⟩ rfl
  dsimp only
  split
  · exact (await_ordinarily _ _ _).map fun _ _ => trivial
  · exact descend_ordinarily _ _ _

theorem reference_ordinarily (ht : N t.text) : Ordinarily N (st.reference r limits t) := by
  unfold reference
  split
  · exact place_ordinarily _ _ _
  · exact .quoting ⟨nofun, nofun⟩ rfl ht

theorem identifier_ordinarily (ht : N t.text) (ahead : List Lexeme) :
    Ordinarily N (st.identifier r limits t ahead) := by
  unfold identifier
  split
  · exact place_ordinarily _ _ _
  split
  · split
    · exact openCall_ordinarily _ _ _
    · exact reference_ordinarily ht
  · exact reference_ordinarily ht

theorem resolveCall_ordinarily {name : Lexeme} (hname : N name.text) (count : Nat) :
    Ordinarily N (resolveCall r name count) := by
  unfold resolveCall
  split
  · exact .quoting ⟨nofun, nofun⟩ rfl hname
  split
  · trivial
  all_goals exact .quoting ⟨nofun, nofun⟩ rfl hname

theorem fillDefaults_ordinarily (close : Lexeme) (vs : List Value) :
    Ordinarily N (fillDefaults limits close vs st) := by
  induction vs generalizing st with
  | nil => trivial
  | cons v vs ih => exact (alloc_ordinarily _ _).bind fun _ _ _ => ih.bind fun _ _ _ => trivial

/-- What an error of a step may be about: operands with no operator between them, the token, which
is a number without a value, or something else, for which texts with a property are quoted. -/
inductive Fault (N : String → Prop) (st : ParseState) (t : Lexeme) : ParseError → Prop
  | apart {e : ParseError} (operands : st.level.operands.Apart e) : Fault N st t e
  | constant (kind : t.kind = .number) (valueless : Literal.number? t.text.toList = none) :
      Fault N st t (t.parseError .invalidConstant)
  | other {e : ParseError} (cause : e.cause.Plain N) : Fault N st t e

/-- A computation that fails only for what a step may be about. -/
abbrev Faults {α : Type} (N : String → Prop) (st : ParseState) (t : Lexeme) :
    Except ParseError α → Prop :=
  Ends (Fault N st t) fun _ => True

theorem faults_of_ordinarily {α : Type} {x : Except ParseError α} (h : Ordinarily N x) :
    Faults N st t x := h.mono fun _ he => .other he

theorem single_step_faults {ifEmpty : ParseError} (hempty : ifEmpty.cause.Plain N) :
    Faults N st t (st.level.operands.single ifEmpty) :=
  (OperandStack.single_faults hempty).mono fun _ he => he.elim .other .apart

theorem closeArguments_faults (close : Lexeme) (bare : Bool) :
    Faults N st t (closeArguments close bare st.level) := by
  unfold closeArguments
  split
  · trivial
  · refine (single_step_faults ?_).map fun _ _ => trivial
    exact .silent ⟨nofun, nofun⟩ rfl

/-- A bracket that closes quotes nothing but the name of its call. -/
theorem ascend_faults (hcall : ∀ name span close bare,
    st.level.bracket = .call name span close bare → N name.text) :
    Faults N st t (st.ascend r limits) := by
  unfold ascend
  split
  · trivial
  dsimp only
  split
  · trivial
  · refine (single_step_faults ?_).bind fun _ _ _ => ?_
    · exact .silent ⟨nofun, nofun⟩ rfl
    · exact faults_of_ordinarily (place_ordinarily _ _ _)
  · rename_i name span close bare hbracket
    have hname := hcall name span close bare hbracket
    refine (closeArguments_faults _ _).bind fun args _ _ => ?_
    refine (faults_of_ordinarily (resolveCall_ordinarily hname args.length)).bind fun f _ _ => ?_
    refine (faults_of_ordinarily (fillDefaults_ordinarily _ _)).bind fun filled _ _ => ?_
    exact faults_of_ordinarily (place_ordinarily _ _ _)

theorem comma_faults (u : Lexeme) : Faults N st t (st.comma u) := by
  unfold comma
  split
  · refine (single_step_faults ?_).map fun _ _ => trivial
    exact .silent ⟨nofun, nofun⟩ rfl
  · exact .other (.silent ⟨nofun, nofun⟩ rfl)

/-- A token that is read quotes nothing but itself. -/
theorem token_faults (ht : t.kind = .identifier ∨ t.kind = .operator → N t.text)
    (ahead : List Lexeme) : Faults N st t (st.token r limits t ahead) := by
  unfold token
  split
  · rename_i hkind
    split
    · exact faults_of_ordinarily (place_ordinarily _ _ _)
    · rename_i hvalueless
      exact .constant hkind hvalueless
  · exact faults_of_ordinarily (place_ordinarily _ _ _)
  · rename_i hkind
    exact faults_of_ordinarily (identifier_ordinarily (ht (.inl hkind)) _)
  · split
    · exact faults_of_ordinarily (openParenthesis_ordinarily _)
    · exact .other (.silent ⟨nofun, nofun⟩ rfl)
  · rename_i hkind
    exact faults_of_ordinarily (operator_ordinarily (ht (.inr hkind)))
  · exact comma_faults t

theorem step_faults (ht : t.kind = .identifier ∨ t.kind = .operator → N t.text)
    (hcall : ∀ name span close bare, st.level.bracket = .call name span close bare → N name.text)
    (ahead : List Lexeme) : Faults N st t (st.step r limits t ahead) := by
  unfold step
  split
  · trivial
  split
  · exact ascend_faults hcall
  · exact token_faults ht ahead

end ParseState

/-! ## whole parses -/

variable {r : Registry}

/-- The lexemes of the oldest entries of a stack come before those of the others. -/
theorem StackPhrase.split {newer older : OperandStack} {ls : List Lexeme}
    (h : StackPhrase r (newer ++ older) ls) :
    ∃ os ns, ls = os ++ ns ∧ StackPhrase r older os := by
  induction newer generalizing ls with
  | nil => exact ⟨ls, [], (List.append_nil ls).symm, h⟩
  | cons e newer ih =>
    obtain _ | ⟨rest, top⟩ := h
    obtain ⟨os, ns, rfl, hos⟩ := ih rest
    exact ⟨os, _, List.append_assoc .., hos⟩

/-- The operands that the innermost bracket holds stand for a piece of the lexemes. -/
theorem Reads.operands {l : Level} {outer : List Level} {done ahead : List Lexeme}
    (h : Reads r (l :: outer) done ahead) : ∃ ls, ls <:+ done ∧ StackPhrase r l.operands ls := by
  cases h with
  | whole stack => exact ⟨_, List.suffix_refl _, stack⟩
  | @group opening _ _ _ _ ls done _ _ _ _ _ stack =>
    refine ⟨ls, ⟨done ++ [opening], by simp⟩, stack⟩
  | @call name opening _ _ _ _ _ _ as ls done _ _ _ _ _ _ stack =>
    refine ⟨ls, ⟨done ++ name :: opening :: as, by simp⟩, stack⟩

/-- A text that a parse may quote: that of a name or of an operator. -/
def WordAmong (ls : List Lexeme) (text : String) : Prop :=
  ∃ l ∈ ls, (l.kind = .identifier ∨ l.kind = .operator) ∧ l.text = text

/-- What an error of a parse may be about: two operands written next to each other, a number without
a value, or something else. -/
inductive ParseError.Explained (r : Registry) (ls : List Lexeme) : ParseError → Prop
  | apart {a b : Tree} {first second : List Lexeme} (adjacent : first ++ second <:+: ls)
      (left : Phrase r a first) (right : Phrase r b second) :
      Explained r ls { b.origin.parseError .missingOperator with related := some a.extent }
  | constant {l : Lexeme} (mem : l ∈ ls) (kind : l.kind = .number)
      (valueless : Literal.number? l.text.toList = none) :
      Explained r ls (l.parseError .invalidConstant)
  | other {e : ParseError} (cause : e.cause.Ordinary)
      (quotes : ∀ text, e.cause.quoted? = some text → WordAmong ls text) : Explained r ls e

theorem ParseCause.Plain.explained {e : ParseError} {ls : List Lexeme}
    (h : e.cause.Plain (WordAmong ls)) : e.Explained r ls := .other h.ordinary h.quotes

/-- What is quoted when a parse is explained stands among its lexemes. -/
theorem ParseError.Explained.quotes {e : ParseError} {ls : List Lexeme} (h : e.Explained r ls) :
    ∀ text, e.cause.quoted? = some text → WordAmong ls text := by
  cases h with
  | apart => exact nofun
  | constant => exact nofun
  | other _ quotes => exact quotes

theorem OperandStack.Apart.explained {s : OperandStack} {e : ParseError} {ls all : List Lexeme}
    (h : s.Apart e) (hs : StackPhrase r s ls) (hls : ls <:+: all) : e.Explained r all := by
  obtain ⟨a, b, newer, hreverse, rfl⟩ := h
  have hstack : s = newer.reverse ++ [.done b, .done a] := by
    rw [← List.reverse_reverse s, hreverse]
    simp
  rw [hstack] at hs
  obtain ⟨os, ns, rfl, hos⟩ := hs.split
  obtain _ | ⟨hfirst, second⟩ := hos
  obtain _ | ⟨hnil, first⟩ := hfirst
  cases hnil
  rw [List.nil_append] at hls
  exact .apart ((List.prefix_append _ ns).isInfix.trans hls) first second

variable {limits : Limits}

/-- Every error of a parse is explained by its lexemes. -/
theorem parse_explained (s : TokenStream) :
    Ends (fun e => e.Explained r s.lexemes) (fun _ => True) (parse s r limits) := by
  have hstart : Reads r [{ bracket := .whole }] ([] ++ s.lexemes.take 0) (s.lexemes.drop 0) :=
    .whole .nil
  have hrun : Ends (fun e : ParseError => e.Explained r s.lexemes) (fun _ => True)
      (ParseState.run r limits s.lexemes {}) := by
    refine ParseState.run_ends s.lexemes ?_ hstart (numbered_lexemes s) rfl trivial
    intro t ts st done i hr _ hall _
    have ht : t ∈ s.lexemes := hall ▸ by simp
    have hread : ∀ l ∈ done ++ (t :: ts).take st.skip, l ∈ s.lexemes := by
      intro l hl
      rw [← hall]
      rcases List.mem_append.1 hl with hl | hl
      · exact List.mem_append_left _ hl
      · exact List.mem_append_right _ (List.mem_of_mem_take hl)
    have hcall : ∀ name span close bare, st.level.bracket = .call name span close bare →
        WordAmong s.lexemes name.text := by
      intro name span close bare hbracket
      obtain ⟨hmem, hkind⟩ := hr.name_mem hbracket
      exact ⟨name, hread name hmem, .inl hkind, rfl⟩
    refine (ParseState.step_faults (fun hkind => ⟨t, ht, hkind, rfl⟩) hcall ts).mono fun e he => ?_
    cases he with
    | apart operands =>
      obtain ⟨ls, hls, hstack⟩ := hr.operands
      refine operands.explained hstack (hls.isInfix.trans ?_)
      refine ⟨[], (t :: ts).drop st.skip, ?_⟩
      rw [← hall, List.nil_append, List.append_assoc, List.take_append_drop]
    | constant kind valueless => exact .constant ht kind valueless
    | other cause => exact cause.explained
  refine hrun.bind fun st hst _ => ?_
  obtain ⟨-, hr⟩ := ParseState.run_invariant (P := fun _ _ => True) (fun _ _ => trivial) hstart
    (numbered_lexemes s) trivial hst
  obtain ⟨ls, hls, hstack⟩ := hr.operands
  have hempty : ParseCause.Plain (WordAmong s.lexemes) .emptyExpression :=
    .silent ⟨nofun, nofun⟩ rfl
  refine Ends.bind ((OperandStack.single_faults hempty).mono fun e he => ?_) fun _ _ _ => trivial
  rcases he with cause | operands
  · exact cause.explained
  · exact operands.explained hstack hls.isInfix

end ExprEngine
