import ExprEngine.Proofs.Addressing
import ExprEngine.Proofs.Declaration
import ExprEngine.Proofs.Machine.Causes
import ExprEngine.Proofs.Parse.Fault
import ExprEngine.Proofs.Text.Lines
import ExprEngine.Proofs.Typing.Culprit

/-!
# The wording of errors

A message quotes at most one text: a name or an operator of the source, or a declared name. None of
them has a line break, so what an error says about itself fits on one line.

* `Error.quoted?`                                 the text that a message quotes;
* `Quotation`                                     the texts that there are to quote;
* `Engine.evaluate_quotes`                        an error quotes no other;
* `Error.oneLine_message`, `Error.oneLine_label`  messages and remarks are of one line.
-/

namespace ExprEngine

/-! ## what is quoted -/

def TypeCause.quoted? : TypeCause → Option String
  | argument function _ _ _ => some function
  | readOnly name => some name
  | _ => none

def EvalCause.quoted? : EvalCause → Option String
  | bindingType name _ _ => some name
  | returnType function _ _ => some function
  | _ => none

/-- The text that the message of an error quotes. -/
def Error.quoted? : Error → Option String
  | lex _ => none
  | parse e => e.cause.quoted?
  | type e => e.cause.quoted?
  | eval e => e.cause.quoted?

/-- A name that a registry declares. -/
def Registry.Names (r : Registry) (name : String) : Prop :=
  name ∈ r.vars.map Variable.name ++ r.funcs.map Signature.name

/-- A text that an evaluation may quote: a word of its source or a declared name. -/
inductive Quotation (r : Registry) (source : String) (text : String) : Prop
  | word {ts : List Token} (tokens : tokenize source = .ok ts)
      (written : WordAmong (TokenStream.lexemes ⟨source.toList, ts⟩) text)
  | declared (names : r.Names text)

variable {r : Registry} {source : String}

theorem Registry.names_variable {x : VarId} {v : Variable} (h : r.variableAt? x = some v) :
    r.Names v.name :=
  List.mem_append_left _ (List.mem_map.2 ⟨v, List.mem_of_getElem? h, rfl⟩)

theorem Registry.names_function {f : FuncId} {s : Signature} (h : r.functionAt? f = some s) :
    r.Names s.name :=
  List.mem_append_right _ (List.mem_map.2 ⟨s, List.mem_of_getElem? h, rfl⟩)

/-- The causes of an evaluation that quote declared names only. -/
def EvalCause.Declared (r : Registry) (c : EvalCause) : Prop :=
  ∀ text, c.quoted? = some text → r.Names text

theorem causes_declared : Causes r (EvalCause.Declared r) where
  operator c hc := by
    cases c with
    | bindingType => exact hc.elim
    | returnType => exact hc.elim
    | _ => exact nofun
  missingContext := nofun
  unbalancedStack _ := nofun
  valueOverflow _ := nofun
  noValue := nofun
  returnType f sig a b hsig := by
    rintro text ⟨⟩
    exact Registry.names_function hsig

theorem State.reads_declared {σ : Type} (s : State σ) : s.Reads r (EvalCause.Declared r) := by
  intro x v hv o
  refine Machine.readBinding_fails fun a b => ?_
  rintro text ⟨⟩
  exact Registry.names_variable hv

/-- Whatever a run fails for, it quotes a declared name. -/
theorem Machine.evaluate_declared {σ : Type} (m : Machine σ) (t : Tree) (w : World σ) :
    Fails (EvalCause.Declared m.registry) (m.evaluate t w).1 := by
  refine evaluate_fails causes_declared w.state.reads_declared ?_
  exact run_fails (I := fun _ => True) causes_declared trivial
    (fun w' _ => w'.state.reads_declared) fun _ _ _ _ _ => trivial

/-- An error about types quotes a declared name. -/
theorem Tree.Fault.declared {n t : Tree} {err : TypeError} (h : n.Fault r t err) :
    ∀ text, err.cause.quoted? = some text → r.Names text := by
  cases h with
  | operand _ _ unfit =>
    cases unfit with
    | argument _ declared =>
      rintro text ⟨⟩
      exact Registry.names_function declared
    | _ => exact nofun
  | target _ _ _ declared =>
    rintro text ⟨⟩
    exact Registry.names_variable declared
  | whole clashes =>
    cases clashes with
    | _ => exact nofun

namespace Engine

/-- An error of compilation quotes a word of the source or a declared name. -/
theorem compile_quotes (engine : Engine) (source : String) (hr : r.Declared) :
    Ends (fun err => ∀ text, err.quoted? = some text → Quotation r source text) (fun _ => True)
      (engine.compile source r) := by
  cases hts : tokenize source with
  | error e =>
    unfold compile parseSource
    rw [hts]
    exact nofun
  | ok ts =>
    rw [compile_of_tokenize _ hts]
    have hparse : Ends (ParseError.Explained r (TokenStream.lexemes ⟨source.toList, ts⟩))
        (fun _ => True) (parse ⟨source.toList, ts⟩ r engine.limits) := parse_explained _
    refine (liftError_ends hparse fun e he text htext => ?_).bind fun expr hexpr _ => ?_
    · exact .word hts (he.quotes text htext)
    have hparsed := liftError_eq_ok hexpr
    cases hcheck : check expr r with
    | ok types => trivial
    | error err =>
      obtain ⟨-, n, hblamed, -⟩ := check_blames hr (.refl r) hparsed hcheck
      exact fun text htext => .declared (hblamed.fault.declared text htext)

/-- Whatever stage an evaluation fails in, its error quotes a word of the source or a declared
name. -/
theorem evaluate_quotes {σ : Type} (engine : Engine) {c : Context σ} (hc : c.registry.Declared)
    {e : Error} (h : (engine.evaluate source c).result = .error e) :
    ∀ text, e.quoted? = some text → Quotation c.registry source text := by
  have hcompile := engine.compile_quotes source hc
  unfold evaluate at h
  cases hcompiled : engine.compile source c.registry with
  | error e' =>
    rw [hcompiled] at h
    cases h
    exact hcompile.of_error hcompiled
  | ok expression =>
    rw [hcompiled] at h
    obtain ⟨err, herr, rfl⟩ := liftError_eq_error h
    exact fun text htext => .declared (Machine.evaluate_declared _ _ _ err herr text htext)

end Engine

/-! ## one line each -/

open Text

theorem WordAmong.oneLine {ts : List Token} {text : String} (hts : tokenize source = .ok ts)
    (h : WordAmong (TokenStream.lexemes ⟨source.toList, ts⟩) text) : OneLine text := by
  obtain ⟨l, hl, hkind, rfl⟩ := h
  have hspells := lexeme_spells hts hl
  rcases hkind with hkind | hkind
  · rw [hkind] at hspells
    exact oneLine_of_isName hspells
  · rw [hkind] at hspells
    rcases hspells with hbranch | ⟨o, ho⟩
    · rw [String.toList_inj.1 hbranch]
      decide
    · rw [String.toList_inj.1 ho]
      exact o.oneLine_symbol

theorem Quotation.oneLine (hr : r.Declared) {text : String} (h : Quotation r source text) :
    OneLine text := by
  cases h with
  | word tokens written => exact written.oneLine tokens
  | declared names => exact oneLine_of_isName (hr.nameable text names).written

theorem LexCause.oneLine_message (c : LexCause) : OneLine c.message := by
  cases c with
  | invalidChar c => exact oneLine_between (by decide) (oneLine_escapedAscii c) (by decide)
  | sourceTooLong n => exact oneLine_between (by decide) (oneLine_nat n) (by decide)
  | _ => decide

theorem ParseCause.oneLine_message {c : ParseCause}
    (h : ∀ text, c.quoted? = some text → OneLine text) : OneLine c.message := by
  cases c with
  | invalidOperator text => exact oneLine_between (by decide) (h text rfl) (by decide)
  | unknownVariable name => exact oneLine_between (by decide) (h name rfl) (by decide)
  | unknownFunction name => exact oneLine_between (by decide) (h name rfl) (by decide)
  | tooManyArguments name max =>
    refine oneLine_between ?_ (oneLine_nat max) (by decide)
    exact oneLine_between (by decide) (h name rfl) (by decide)
  | missingArguments name min =>
    refine oneLine_between ?_ (oneLine_nat min) (by decide)
    exact oneLine_between (by decide) (h name rfl) (by decide)
  | tooManyParts max => exact oneLine_between (by decide) (oneLine_nat max) (by decide)
  | nestingTooDeep max => exact oneLine_between (by decide) (oneLine_nat max) (by decide)
  | operandOverflow max => exact oneLine_between (by decide) (oneLine_nat max) (by decide)
  | _ => decide

theorem TypeCause.oneLine_message {c : TypeCause}
    (h : ∀ text, c.quoted? = some text → OneLine text) : OneLine c.message := by
  cases c with
  | leftOperand op found =>
    refine oneLine_append.2 ⟨?_, op.oneLine_name⟩
    exact oneLine_between (by decide) found.oneLine_name (by decide)
  | rightOperand op found =>
    refine oneLine_append.2 ⟨?_, op.oneLine_name⟩
    exact oneLine_between (by decide) found.oneLine_name (by decide)
  | mismatched op left right =>
    refine oneLine_between ?_ right.oneLine_name (by decide)
    refine oneLine_between ?_ left.oneLine_name (by decide)
    exact oneLine_between (by decide) op.oneLine_name (by decide)
  | condition found => exact oneLine_between (by decide) found.oneLine_name (by decide)
  | cast source target =>
    refine oneLine_between ?_ target.oneLine_name (by decide)
    exact oneLine_between (by decide) source.oneLine_name (by decide)
  | argument function index expected found =>
    refine oneLine_between ?_ expected.oneLine_name (by decide)
    refine oneLine_between ?_ found.oneLine_name (by decide)
    refine oneLine_between ?_ (h function rfl) (by decide)
    exact oneLine_between (by decide) (oneLine_nat (index + 1)) (by decide)
  | readOnly name => exact oneLine_between (by decide) (h name rfl) (by decide)
  | missingContext => decide

theorem EvalCause.oneLine_message {c : EvalCause}
    (h : ∀ text, c.quoted? = some text → OneLine text) : OneLine c.message := by
  cases c with
  | bindingType name expected found =>
    refine oneLine_between ?_ expected.oneLine_name (by decide)
    refine oneLine_between ?_ found.oneLine_name (by decide)
    exact oneLine_between (by decide) (h name rfl) (by decide)
  | returnType function expected found =>
    refine oneLine_between ?_ expected.oneLine_name (by decide)
    refine oneLine_between ?_ found.oneLine_name (by decide)
    exact oneLine_between (by decide) (h function rfl) (by decide)
  | valueOverflow max => exact oneLine_between (by decide) (oneLine_nat max) (by decide)
  | unbalancedStack n => exact oneLine_between (by decide) (oneLine_nat n) (by decide)
  | _ => decide

/-- A message has no line break, if what it quotes has none. -/
theorem Error.oneLine_message {e : Error} (h : ∀ text, e.quoted? = some text → OneLine text) :
    OneLine e.causeMessage := by
  cases e with
  | lex e => exact e.cause.oneLine_message
  | parse e => exact ParseCause.oneLine_message h
  | type e => exact TypeCause.oneLine_message h
  | eval e => exact EvalCause.oneLine_message h

theorem LexCause.oneLine_remark (c : LexCause) : OneLine c.remark := by
  unfold remark
  split <;> decide

theorem ParseCause.oneLine_remark (c : ParseCause) : OneLine c.remark := by
  unfold remark
  split <;> decide

theorem TypeCause.oneLine_remark (c : TypeCause) : OneLine c.remark := by
  unfold remark
  split
  · exact oneLine_between (by decide) (ValueType.oneLine_name _) (by decide)
  · exact oneLine_between (by decide) (ValueType.oneLine_name _) (by decide)
  · exact oneLine_between (by decide) (ValueType.oneLine_name _) (by decide)
  · refine oneLine_between ?_ (ValueType.oneLine_name _) (by decide)
    exact oneLine_between (by decide) (ValueType.oneLine_name _) (by decide)
  · decide
  · exact oneLine_between (by decide) (ValueType.oneLine_name _) (by decide)
  · decide
  · decide

theorem EvalCause.oneLine_remark (c : EvalCause) : OneLine c.remark := by
  unfold remark
  split <;> decide

/-- The remark at a label quotes nothing but types, and has no line break. -/
theorem Error.oneLine_label {e : Error} {source : String} {l : Label}
    (h : l ∈ (e.diagnostic source).labels) : OneLine l.message := by
  cases e with
  | lex e =>
    cases List.mem_singleton.1 h
    exact e.cause.oneLine_remark
  | parse e =>
    rcases List.mem_cons.1 h with rfl | h
    · exact e.cause.oneLine_remark
    · obtain ⟨s, -, rfl⟩ := Option.map_eq_some_iff.1 (Option.mem_toList.1 h)
      exact (by decide : OneLine "previous operand")
  | type e =>
    cases List.mem_singleton.1 h
    exact e.cause.oneLine_remark
  | eval e =>
    cases List.mem_singleton.1 h
    exact e.cause.oneLine_remark

end ExprEngine
