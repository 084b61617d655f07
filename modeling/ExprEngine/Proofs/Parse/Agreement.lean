import ExprEngine.Proofs.Parse.ReadBack

/-!
# Parsing under other limits and over other registries

Limits decide only whether a step fails, never what it yields. Of a registry a parser asks nothing
but what the names mean that it reads. So a parser with wider limits, over a registry that gives
the same names the same meaning, goes the same way until the narrower limits cut it off.

* `L ≤ L'`              limits none of which is narrower;
* `Limits.Cuts`         the failures that wider limits may spare;
* `Registry.SameFor`    registries that give a name the same meaning;
* `step_follows`        one token;
* `parse_follows`       a whole parse.
-/

namespace ExprEngine

/-! ## what may differ -/

/-- Limits none of which is narrower. -/
structure Limits.Within (L L' : Limits) : Prop where
  parts : L.maxParts ≤ L'.maxParts
  operands : L.maxOperands ≤ L'.maxOperands
  nesting : L.maxNesting ≤ L'.maxNesting
  values : L.maxValues ≤ L'.maxValues

instance : LE Limits := ⟨Limits.Within⟩

theorem Limits.le_refl (L : Limits) : L ≤ L :=
  ⟨Nat.le_refl _, Nat.le_refl _, Nat.le_refl _, Nat.le_refl _⟩

/-- Whether a limit is the cause. -/
def ParseCause.IsLimit : ParseCause → Prop
  | .tooManyParts _ => True
  | .nestingTooDeep _ => True
  | .operandOverflow _ => True
  | _ => False

/-- The failures under some limits that other limits may spare. -/
def Limits.Cuts (L L' : Limits) (e : ParseError) : Prop := L ≠ L' ∧ e.cause.IsLimit

/-- Registries that give a name the same meaning, as a variable and as a function. -/
structure Registry.SameFor (r r' : Registry) (name : String) : Prop where
  named : r'.variableNamed? name = r.variableNamed? name
  called : ∀ count, r'.resolve name count = r.resolve name count
  defaults : ∀ count f, r.resolve name count = .ok f →
    ParseState.defaultsAfter r' f count = ParseState.defaultsAfter r f count

theorem Registry.SameFor.refl (r : Registry) (name : String) : r.SameFor r name :=
  ⟨rfl, fun _ => rfl, fun _ _ _ => rfl⟩

variable {L L' : Limits} {r r' : Registry}

/-- A check against a limit passes under wider limits, or is cut off under the narrower ones. -/
theorem Limits.check_follows {α : Type} (limit : Limits → Nat) (failure : Nat → ParseError)
    (hlimit : ∀ max, (failure max).cause.IsLimit) (h : limit L ≤ limit L') (n : Nat)
    (x : Except ParseError α) :
    Follows (L.Cuts L') (if limit L' ≤ n then .error (failure (limit L')) else x)
      (if limit L ≤ n then .error (failure (limit L)) else x) := by
  by_cases hL : L = L'
  · subst hL
    exact .refl _
  by_cases hn : limit L ≤ n
  · rw [if_pos hn]
    exact .of_cut ⟨hL, hlimit _⟩
  · rw [if_neg hn, if_neg (show ¬ limit L' ≤ n by omega)]
    exact .refl _

/-! ## the operand stack -/

namespace OperandStack

theorem push_follows (h : L ≤ L') (e : Entry) (s : OperandStack) :
    Follows (L.Cuts L') (push L'.maxOperands e s) (push L.maxOperands e s) := by
  unfold push
  exact Limits.check_follows Limits.maxOperands
    (fun max => e.origin.parseError (.operandOverflow max)) (fun _ => trivial) h.operands s.length _

theorem connect_follows (h : L ≤ L') (s : OperandStack) (t : Tree) :
    Follows (L.Cuts L') (connect L'.maxOperands s t) (connect L.maxOperands s t) := by
  fun_induction connect L.maxOperands s t with
  | case1 p below t t' hf ih =>
    rw [connect, hf]
    exact ih
  | case2 p below t p' hf =>
    rw [connect, hf]
    exact .refl _
  | case3 p below t hf =>
    rw [connect, hf]
    exact push_follows h _ _
  | case4 s t hs =>
    rw [connect]
    · exact push_follows h _ _
    · exact hs

theorem pushAll_follows (h : L ≤ L') (ps : List Pending) (s : OperandStack) :
    Follows (L.Cuts L') (pushAll L'.maxOperands ps s) (pushAll L.maxOperands ps s) := by
  induction ps generalizing s with
  | nil => exact .refl _
  | cons p ps ih =>
    rw [pushAll, pushAll]
    rcases push_follows h (.pending p) s with heq | ⟨e, he, hcut⟩
    · rw [heq]
      split
      · exact ih _
      · exact .refl _
    · rw [he]
      exact .of_cut hcut

theorem takeLeft_follows (h : L ≤ L') (b : Binding) (here : Lexeme) (s : OperandStack) :
    Follows (L.Cuts L') (takeLeft L'.maxOperands b here s) (takeLeft L.maxOperands b here s) := by
  cases s with
  | nil => exact .refl _
  | cons e below =>
    rw [takeLeft, takeLeft]
    cases e.leftOperand b with
    | error err => exact .refl _
    | ok p =>
      dsimp only
      rcases pushAll_follows h p.1 below with heq | ⟨e, he, hcut⟩
      · rw [heq]
        exact .refl _
      · rw [he]
        exact .of_cut hcut

end OperandStack

/-! ## one token -/

namespace ParseState

variable (st : ParseState)

theorem alloc_follows (h : L ≤ L') (token : Nat) (span : Span) :
    Follows (L.Cuts L') (st.alloc L' token span) (st.alloc L token span) := by
  unfold alloc
  exact Limits.check_follows Limits.maxParts
    (fun max => ⟨.tooManyParts max, some token, span, none⟩) (fun _ => trivial) h.parts st.next _

theorem place_follows (h : L ≤ L') (token : Nat) (span : Span) (make : Origin → Tree) :
    Follows (L.Cuts L') (st.place L' token span make) (st.place L token span make) :=
  (st.alloc_follows h token span).bind fun _ _ =>
    (OperandStack.connect_follows h _ _).bind fun _ _ => .refl _

theorem await_follows (h : L ≤ L') (token : Nat) (span : Span) (make : Origin → Pending) :
    Follows (L.Cuts L') (st.await L' token span make) (st.await L token span make) :=
  (st.alloc_follows h token span).bind fun _ _ =>
    (OperandStack.push_follows h _ _).bind fun _ _ => .refl _

theorem infixOperator_follows (h : L ≤ L') (t : Lexeme) (b : Binding)
    (make : Tree → Origin → Pending) :
    Follows (L.Cuts L') (st.infixOperator L' t b make) (st.infixOperator L t b make) :=
  (OperandStack.takeLeft_follows h b t _).bind fun p _ =>
    (st.setOperands p.2).await_follows h t.index t.span (make p.1)

theorem operator_follows (h : L ≤ L') (t : Lexeme) :
    Follows (L.Cuts L') (st.operator L' t) (st.operator L t) := by
  unfold operator
  split
  · exact .refl _
  split
  · exact .refl _
  · exact st.await_follows h _ _ _
  · exact st.infixOperator_follows h t _ _
  · exact st.infixOperator_follows h t _ _

theorem descend_follows (h : L ≤ L') (opening : Lexeme) (bracket : Bracket) (skip : Nat) :
    Follows (L.Cuts L') (st.descend L' opening bracket skip)
      (st.descend L opening bracket skip) := by
  unfold descend
  exact Limits.check_follows Limits.maxNesting (fun max => opening.parseError (.nestingTooDeep max))
    (fun _ => trivial) h.nesting st.outer.length _

theorem openCall_follows (h : L ≤ L') (name opening : Lexeme) (ahead : List Lexeme) :
    Follows (L.Cuts L') (st.openCall L' name opening ahead) (st.openCall L name opening ahead) := by
  unfold openCall
  split
  · exact .refl _
  · exact st.descend_follows h _ _ _

theorem openParenthesis_follows (h : L ≤ L') (t : Lexeme) (ahead : List Lexeme) :
    Follows (L.Cuts L') (st.openParenthesis L' t ahead) (st.openParenthesis L t ahead) := by
  unfold openParenthesis
  split
  · exact .refl _
  dsimp only
  split
  · exact (st.await_follows h _ _ _).map _
  · exact st.descend_follows h _ _ _

theorem reference_follows (h : L ≤ L') {t : Lexeme} (ht : r.SameFor r' t.text) :
    Follows (L.Cuts L') (st.reference r' L' t) (st.reference r L t) := by
  unfold reference
  rw [ht.named]
  split
  · exact st.place_follows h _ _ _
  · exact .refl _

theorem identifier_follows (h : L ≤ L') {t : Lexeme} (ht : r.SameFor r' t.text)
    (ahead : List Lexeme) :
    Follows (L.Cuts L') (st.identifier r' L' t ahead) (st.identifier r L t ahead) := by
  unfold identifier
  split
  · exact st.place_follows h _ _ _
  split
  · split
    · exact st.openCall_follows h _ _ _
    · exact st.reference_follows h ht
  · exact st.reference_follows h ht

theorem fillDefaults_follows (h : L ≤ L') (close : Lexeme) (vs : List Value) :
    Follows (L.Cuts L') (fillDefaults L' close vs st) (fillDefaults L close vs st) := by
  induction vs generalizing st with
  | nil => exact .refl _
  | cons v vs ih =>
    exact (st.alloc_follows h _ _).bind fun p _ => (ih p.2).bind fun _ _ => .refl _

theorem resolveCall_same {name : Lexeme} (hname : r.SameFor r' name.text) (count : Nat) :
    resolveCall r' name count = resolveCall r name count := by
  unfold resolveCall
  rw [hname.called]

theorem ascend_follows (h : L ≤ L')
    (hcall : ∀ name span close bare, st.level.bracket = .call name span close bare →
      r.SameFor r' name.text) :
    Follows (L.Cuts L') (st.ascend r' L') (st.ascend r L) := by
  obtain ⟨⟨bracket, operands, args⟩, outer, next, skip⟩ := st
  cases outer with
  | nil => exact .refl _
  | cons around outer =>
    cases bracket with
    | whole => exact .refl _
    | group opening span close =>
      exact (Follows.refl _).bind fun inner _ =>
        place_follows ⟨around, outer, next, skip⟩ h opening span (.group · inner)
    | call name span close bare =>
      have hname : r.SameFor r' name.text := hcall name span close bare rfl
      refine (Follows.refl _).bind fun written _ => ?_
      rw [resolveCall_same hname]
      refine (Follows.refl _).bind fun f hf => ?_
      obtain ⟨-, hresolve⟩ := resolveCall_ok hf
      rw [hname.defaults written.length f hresolve]
      refine (fillDefaults_follows _ h close _).bind fun p _ => ?_
      exact p.2.place_follows h name.index span (.call · f (written ++ p.1))

theorem token_follows (h : L ≤ L') {t : Lexeme}
    (ht : t.kind = .identifier → r.SameFor r' t.text) (ahead : List Lexeme) :
    Follows (L.Cuts L') (st.token r' L' t ahead) (st.token r L t ahead) := by
  unfold token
  split
  · split
    · exact st.place_follows h _ _ _
    · exact .refl _
  · exact st.place_follows h _ _ _
  · rename_i hk
    exact st.identifier_follows h (ht hk) _
  · split
    · exact st.openParenthesis_follows h _ _
    · exact .refl _
  · exact st.operator_follows h t
  · exact .refl _

/-- A step goes the same way under wider limits, where names mean the same. -/
theorem step_follows (h : L ≤ L') {t : Lexeme}
    (ht : t.kind = .identifier → r.SameFor r' t.text)
    (hcall : ∀ name span close bare, st.level.bracket = .call name span close bare →
      r.SameFor r' name.text) (ahead : List Lexeme) :
    Follows (L.Cuts L') (st.step r' L' t ahead) (st.step r L t ahead) := by
  unfold step
  split
  · exact .refl _
  split
  · exact st.ascend_follows h hcall
  · exact st.token_follows h ht ahead

end ParseState

/-! ## runs -/

/-- The name of an open call has been read. -/
theorem Reads.name_mem {l : Level} {outer : List Level} {done ahead : List Lexeme}
    (h : Reads r (l :: outer) done ahead) {name close : Lexeme} {span : Span} {bare : Bool}
    (hl : l.bracket = .call name span close bare) : name ∈ done ∧ name.kind = .identifier := by
  obtain ⟨bracket, operands, args⟩ := l
  obtain rfl : bracket = .call name span close bare := hl
  obtain ⟨opening, l, outer', as, ls, done', inside, rest, kind, -, -, -, -, -, -, -, -, rfl,
    -⟩ := h.call_inv
  exact ⟨by simp, kind⟩

/-- A run goes the same way, where the names mean the same that it has read and has before it. -/
theorem ParseState.run_follows (h : L ≤ L') {ls : List Lexeme} {st : ParseState}
    {done : List Lexeme} {i : Nat}
    (hr : Reads r (st.level :: st.outer) (done ++ ls.take st.skip) (ls.drop st.skip))
    (hn : Numbered i ls)
    (hsame : ∀ t ∈ done ++ ls, t.kind = .identifier → r.SameFor r' t.text) :
    Follows (L.Cuts L') (run r' L' ls st) (run r L ls st) := by
  induction ls generalizing st done i with
  | nil => exact .refl _
  | cons t ts ih =>
    have hcall : ∀ name span close bare, st.level.bracket = .call name span close bare →
        r.SameFor r' name.text := by
      intro name span close bare hl
      obtain ⟨hmem, hk⟩ := hr.name_mem hl
      refine hsame name ?_ hk
      rcases List.mem_append.1 hmem with hmem | hmem
      · exact List.mem_append_left _ hmem
      · exact List.mem_append_right _ (List.mem_of_mem_take hmem)
    rw [run, run]
    rcases st.step_follows h (hsame t (by simp)) hcall ts with heq | ⟨e, he, hcut⟩
    · rw [heq]
      split
      · rename_i st' hstep
        rw [List.append_cons] at hsame
        exact ih (reads_step hr hn hstep).1 hn.2 hsame
      · exact .refl _
    · rw [he]
      exact .of_cut hcut

/-- A parse goes the same way under wider limits, where the names of the source mean the same. -/
theorem parse_follows (h : L ≤ L') {s : TokenStream}
    (hsame : ∀ t ∈ s.lexemes, t.kind = .identifier → r.SameFor r' t.text) :
    Follows (L.Cuts L') (parse s r' L') (parse s r L) := by
  have hstart : Reads r [{ bracket := .whole }] ([] ++ s.lexemes.take 0) (s.lexemes.drop 0) :=
    .whole .nil
  exact (ParseState.run_follows h hstart (numbered_lexemes s) hsame).bind fun _ _ => .refl _

end ExprEngine
