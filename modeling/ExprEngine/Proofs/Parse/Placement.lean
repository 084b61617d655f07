import ExprEngine.Parse
import ExprEngine.Proofs.Outcome
import ExprEngine.Proofs.Relabel

/-!
# Parsing does not look at spans

The parser carries the spans of lexemes along and never looks at them. So it commutes with
forgetting them, at every step and in all that it answers.

* `Lexeme.unplaced`, `ParseState.unplaced`   what the parser handles, with the spans forgotten;
* `ParseError.unplaced`                      an error with its spans forgotten;
* `step_unplaced`, `run_unplaced`            the parser on lexemes without spans;
* `parse_congr`                              lexemes that differ in their spans are parsed alike.
-/

namespace ExprEngine

/-! ## spans forgotten -/

/-- A lexeme with its span forgotten. -/
def Lexeme.unplaced (t : Lexeme) : Lexeme := { t with span := .zero }

/-- An error with its spans forgotten, but not whether there is a second one. -/
def ParseError.unplaced (e : ParseError) : ParseError :=
  { e with span := .zero, related := e.related.map fun _ => .zero }

def Pending.unplaced : Pending → Pending
  | unary o op => unary o.unplaced op
  | cast o ty => cast o.unplaced ty
  | binary o op l => binary o.unplaced op l.unplaced
  | condition o c => condition o.unplaced c.unplaced
  | branch o c y => branch o.unplaced c.unplaced y.unplaced
  | otherwise o c y => otherwise o.unplaced c.unplaced y.unplaced

def Entry.unplaced : Entry → Entry
  | done t => done t.unplaced
  | pending p => pending p.unplaced

def OperandStack.unplaced (s : OperandStack) : OperandStack := s.map Entry.unplaced

def Bracket.unplaced : Bracket → Bracket
  | whole => whole
  | group opening _ close => group opening .zero close
  | call name _ close bare => call name.unplaced .zero close.unplaced bare

def Level.unplaced (l : Level) : Level :=
  ⟨l.bracket.unplaced, l.operands.unplaced, l.args.map Tree.unplaced⟩

def ParseState.unplaced (st : ParseState) : ParseState :=
  ⟨st.level.unplaced, st.outer.map Level.unplaced, st.next, st.skip⟩

def Expr.unplaced (e : Expr) : Expr := ⟨e.tree.unplaced, e.partCount⟩

/-- An outcome of the parser with the spans forgotten. -/
abbrev unplacing {α β : Type} (g : α → β) : Except ParseError α → Except ParseError β :=
  mapOutcome ParseError.unplaced g

/-! ## trees -/

namespace Tree

@[simp] theorem unplaced_hole : hole.unplaced = hole := mapOrigin_hole

@[simp] theorem unplaced_constant (o : Origin) (v : Value) :
    (constant o v).unplaced = constant o.unplaced v := mapOrigin_constant ..

@[simp] theorem unplaced_reference (o : Origin) (x : VarId) :
    (reference o x).unplaced = reference o.unplaced x := mapOrigin_reference ..

@[simp] theorem unplaced_unary (o : Origin) (op : UnaryOp) (x : Tree) :
    (unary o op x).unplaced = unary o.unplaced op x.unplaced := mapOrigin_unary ..

@[simp] theorem unplaced_binary (o : Origin) (op : BinaryOp) (l x : Tree) :
    (binary o op l x).unplaced = binary o.unplaced op l.unplaced x.unplaced := mapOrigin_binary ..

@[simp] theorem unplaced_choice (o : Origin) (c y n : Tree) :
    (choice o c y n).unplaced = choice o.unplaced c.unplaced y.unplaced n.unplaced :=
  mapOrigin_choice ..

@[simp] theorem unplaced_cast (o : Origin) (ty : ValueType) (x : Tree) :
    (cast o ty x).unplaced = cast o.unplaced ty x.unplaced := mapOrigin_cast ..

@[simp] theorem unplaced_group (o : Origin) (x : Tree) :
    (group o x).unplaced = group o.unplaced x.unplaced := mapOrigin_group ..

@[simp] theorem unplaced_call (o : Origin) (fn : FuncId) (args : List Tree) :
    (call o fn args).unplaced = call o.unplaced fn (args.map unplaced) := mapOrigin_call ..

@[simp] theorem origin_unplaced (t : Tree) : t.unplaced.origin = t.origin.unplaced :=
  origin_mapOrigin rfl t

theorem cover_zero {ns : List Span} (h : ∀ s ∈ ns, s = .zero) : Span.zero.cover ns = .zero := by
  induction ns with
  | nil => rfl
  | cons s ns ih =>
    obtain ⟨rfl, hns⟩ := List.forall_mem_cons.1 h
    exact ih hns

@[simp] theorem extent_unplaced (t : Tree) : t.unplaced.extent = .zero := by
  rw [extent, origin_unplaced]
  refine cover_zero fun s hs => ?_
  obtain ⟨n, hn, rfl⟩ := List.mem_map.1 hs
  rw [unplaced, nodes_mapOrigin] at hn
  obtain ⟨n, -, rfl⟩ := List.mem_map.1 hn
  exact congrArg Origin.span (origin_unplaced n)

theorem keepsWhole_unplaced (b : Binding) (t : Tree) : b.keepsWhole t.unplaced = b.keepsWhole t := by
  rw [Binding.keepsWhole, Binding.keepsWhole, unplaced, precedence?_mapOrigin]

theorem reopen_unplaced (b : Binding) (t : Tree) :
    t.unplaced.reopen b = ((t.reopen b).1.map Pending.unplaced, (t.reopen b).2.unplaced) := by
  induction t using operand_induction with
  | part t ih =>
    cases t with
    | binary o op l x =>
      have hx := ih x (by simp [operands])
      have hkeeps := keepsWhole_unplaced b (.binary o op l x)
      rw [unplaced_binary] at hkeeps ⊢
      rw [reopen, reopen, hkeeps]
      split
      · simp
      · simp [hx, Pending.unplaced]
    | choice o c y n =>
      have hn := ih n (by simp [operands])
      have hkeeps := keepsWhole_unplaced b (.choice o c y n)
      rw [unplaced_choice] at hkeeps ⊢
      rw [reopen, reopen, hkeeps]
      split
      · simp
      · simp [hn, Pending.unplaced]
    | _ => simp [reopen]

end Tree

/-! ## the operand stack -/

theorem Pending.origin_unplaced (p : Pending) : p.unplaced.origin = p.origin.unplaced := by
  cases p <;> rfl

theorem Pending.tree_unplaced (p : Pending) : p.unplaced.tree = p.tree.unplaced := by
  cases p <;> simp [unplaced, tree]

theorem Entry.origin_unplaced (e : Entry) : e.unplaced.origin = e.origin.unplaced := by
  cases e with
  | done t => exact t.origin_unplaced
  | pending p => exact p.origin_unplaced

theorem Entry.tree_unplaced (e : Entry) : e.unplaced.tree = e.tree.unplaced := by
  cases e with
  | done t => rfl
  | pending p => exact p.tree_unplaced

theorem Pending.fill?_unplaced (p : Pending) (t : Tree) :
    p.unplaced.fill? t.unplaced = (p.fill? t).map Entry.unplaced := by
  cases p <;> simp [unplaced, fill?, Entry.unplaced]

namespace OperandStack

theorem push_unplaced (max : Nat) (e : Entry) (s : OperandStack) :
    push max e.unplaced s.unplaced = unplacing unplaced (push max e s) := by
  unfold push
  rw [unplaced, List.length_map, e.origin_unplaced]
  split <;> rfl

theorem connect_unplaced (max : Nat) (s : OperandStack) (t : Tree) :
    connect max s.unplaced t.unplaced = unplacing unplaced (connect max s t) := by
  induction s generalizing t with
  | nil => exact push_unplaced max (.done t) []
  | cons e below ih =>
    cases e with
    | done u => exact push_unplaced max (.done t) (.done u :: below)
    | pending p =>
      show connect max (.pending p.unplaced :: unplaced below) t.unplaced = _
      rw [connect, connect, p.fill?_unplaced]
      cases hfill : p.fill? t with
      | none => exact push_unplaced max (.done t) (.pending p :: below)
      | some e =>
        cases e with
        | done t' => exact ih t'
        | pending p' => rfl

theorem pushAll_unplaced (max : Nat) (ps : List Pending) (s : OperandStack) :
    pushAll max (ps.map Pending.unplaced) s.unplaced = unplacing unplaced (pushAll max ps s) := by
  induction ps generalizing s with
  | nil => rfl
  | cons p ps ih =>
    have hpush := push_unplaced max (.pending p) s
    rw [List.map_cons, pushAll, pushAll, show push max (.pending p.unplaced) s.unplaced = _ from hpush]
    cases push max (.pending p) s with
    | error e => rfl
    | ok s' => exact ih s'

end OperandStack

theorem Entry.leftOperand_unplaced (b : Binding) (e : Entry) :
    e.unplaced.leftOperand b =
      unplacing (fun p => (p.1.map Pending.unplaced, p.2.unplaced)) (e.leftOperand b) := by
  cases e with
  | done t => exact congrArg Except.ok (t.reopen_unplaced b)
  | pending p =>
    cases p with
    | branch o c y =>
      show Except.ok _ = Except.ok _
      rw [Tree.reopen_unplaced]
      rfl
    | _ => rfl

namespace OperandStack

theorem takeLeft_unplaced (max : Nat) (b : Binding) (here : Lexeme) (s : OperandStack) :
    takeLeft max b here.unplaced s.unplaced =
      unplacing (fun p => (p.1.unplaced, p.2.unplaced)) (takeLeft max b here s) := by
  cases s with
  | nil => rfl
  | cons e below =>
    show takeLeft max b here.unplaced (e.unplaced :: unplaced below) = _
    rw [takeLeft, takeLeft, e.leftOperand_unplaced]
    cases e.leftOperand b with
    | error err => rfl
    | ok p =>
      have hpushed := pushAll_unplaced max p.1 below
      cases hpush : pushAll max p.1 below <;> simp_all

theorem separate_unplaced (here : Lexeme) (s : OperandStack) :
    separate here.unplaced s.unplaced = unplacing unplaced (separate here s) := by
  cases s with
  | nil => rfl
  | cons e below =>
    cases e with
    | done t => rfl
    | pending p => cases p <;> rfl

theorem unfinished?_unplaced (s : OperandStack) :
    s.unplaced.unfinished? = s.unfinished?.map Pending.unplaced := by
  unfold unfinished?
  rw [unplaced, ← List.map_reverse]
  induction s.reverse with
  | nil => rfl
  | cons e es ih =>
    cases e with
    | done t => exact ih
    | pending p => rfl

theorem single_unplaced (s : OperandStack) (ifEmpty : ParseError) :
    s.unplaced.single ifEmpty.unplaced = unplacing Tree.unplaced (s.single ifEmpty) := by
  unfold single
  rw [unfinished?_unplaced]
  cases s.unfinished? with
  | some p =>
    show Except.error _ = Except.error _
    rw [p.origin_unplaced]
    rfl
  | none =>
    simp only [Option.map_none]
    rw [unplaced, ← List.map_reverse]
    match s.reverse with
    | [] => rfl
    | [e] => exact congrArg Except.ok e.tree_unplaced
    | first :: second :: es =>
      show Except.error _ = Except.error _
      rw [second.origin_unplaced, first.tree_unplaced, Tree.extent_unplaced]
      rfl

end OperandStack

/-! ## lexemes ahead -/

section

variable (ts : List Lexeme) (st : ParseState)

theorem closing?_unplaced (depth : Nat) :
    closing? depth (ts.map Lexeme.unplaced) = (closing? depth ts).map Lexeme.unplaced := by
  induction ts generalizing depth with
  | nil => rfl
  | cons t ts ih =>
    have hopening : t.unplaced.isOpening = t.isOpening := rfl
    have hkind : t.unplaced.kind = t.kind := rfl
    rw [List.map_cons, closing?, closing?, hopening, hkind, ih, ih, ih]
    repeat' split
    all_goals rfl

theorem Bracket.close?_unplaced (b : Bracket) : b.unplaced.close? = b.close? := by
  cases b <;> rfl

namespace ParseState

theorem within_unplaced :
    st.unplaced.within (ts.map Lexeme.unplaced) = (st.within ts).map Lexeme.unplaced := by
  unfold within
  rw [show st.unplaced.level.bracket = st.level.bracket.unplaced from rfl, Bracket.close?_unplaced]
  split
  · rfl
  · rw [List.takeWhile_map]
    rfl

theorem castTarget?_unplaced (opening close : Lexeme) :
    castTarget? opening.unplaced close.unplaced (ts.map Lexeme.unplaced) =
      castTarget? opening close ts := by
  cases ts <;> rfl

end ParseState

end

/-! ## one token -/

namespace ParseState

variable (r : Registry) (limits : Limits) (t : Lexeme) (ahead : List Lexeme) (st : ParseState)

theorem alloc_unplaced (token : Nat) (span : Span) :
    st.unplaced.alloc limits token .zero =
      unplacing (fun p => (p.1.unplaced, p.2.unplaced)) (st.alloc limits token span) := by
  unfold alloc
  rw [show st.unplaced.next = st.next from rfl]
  split <;> rfl

theorem setOperands_unplaced (s : OperandStack) :
    (st.setOperands s).unplaced = st.unplaced.setOperands s.unplaced := rfl

theorem place_unplaced (token : Nat) (span : Span) {make make' : Origin → Tree}
    (h : ∀ o, (make o).unplaced = make' o.unplaced) :
    st.unplaced.place limits token .zero make' =
      unplacing unplaced (st.place limits token span make) := by
  unfold place
  rw [st.alloc_unplaced limits token span]
  refine (mapOutcome_bind fun p => ?_).symm
  show unplacing unplaced (p.2.level.operands.connect limits.maxOperands (make p.1) >>= _) =
    (p.2.level.operands.unplaced.connect limits.maxOperands (make' p.1.unplaced) >>= _)
  rw [← h, OperandStack.connect_unplaced]
  exact mapOutcome_bind fun _ => rfl

theorem await_unplaced (token : Nat) (span : Span) {make make' : Origin → Pending}
    (h : ∀ o, (make o).unplaced = make' o.unplaced) :
    st.unplaced.await limits token .zero make' =
      unplacing unplaced (st.await limits token span make) := by
  unfold await
  rw [st.alloc_unplaced limits token span]
  refine (mapOutcome_bind fun p => ?_).symm
  show unplacing unplaced (p.2.level.operands.push limits.maxOperands (.pending (make p.1)) >>= _) =
    (p.2.level.operands.unplaced.push limits.maxOperands (.pending (make' p.1.unplaced)) >>= _)
  rw [← h, show Entry.pending (make p.1).unplaced = (Entry.pending (make p.1)).unplaced from rfl,
    OperandStack.push_unplaced]
  exact mapOutcome_bind fun _ => rfl

theorem infixOperator_unplaced (b : Binding) {make make' : Tree → Origin → Pending}
    (h : ∀ l o, (make l o).unplaced = make' l.unplaced o.unplaced) :
    st.unplaced.infixOperator limits t.unplaced b make' =
      unplacing unplaced (st.infixOperator limits t b make) := by
  unfold infixOperator
  rw [show st.unplaced.level.operands = st.level.operands.unplaced from rfl,
    OperandStack.takeLeft_unplaced]
  refine (mapOutcome_bind fun p => ?_).symm
  exact (await_unplaced limits (st.setOperands p.2) t.index t.span (h p.1)).symm

theorem operator_unplaced :
    st.unplaced.operator limits t.unplaced = unplacing unplaced (st.operator limits t) := by
  unfold operator
  rw [show t.unplaced.text = t.text from rfl,
    show st.unplaced.level.operands = st.level.operands.unplaced from rfl]
  split
  · rw [OperandStack.separate_unplaced]
    refine Eq.symm (mapOutcome_map ?_)
    exact st.setOperands_unplaced
  split
  · rfl
  · exact await_unplaced limits st t.index t.span fun _ => rfl
  · exact infixOperator_unplaced limits t st _ fun _ _ => rfl
  · exact infixOperator_unplaced limits t st _ fun _ _ => rfl

theorem descend_unplaced (bracket : Bracket) (skip : Nat) :
    st.unplaced.descend limits t.unplaced bracket.unplaced skip =
      unplacing unplaced (st.descend limits t bracket skip) := by
  unfold descend
  rw [show st.unplaced.outer.length = st.outer.length from List.length_map _]
  split <;> rfl

theorem openCall_unplaced (opening : Lexeme) :
    st.unplaced.openCall limits t.unplaced opening.unplaced (ahead.map Lexeme.unplaced) =
      unplacing unplaced (st.openCall limits t opening ahead) := by
  unfold openCall
  rw [← List.map_cons, closing?_unplaced]
  cases closing? 0 (opening :: ahead) with
  | none => rfl
  | some close => exact descend_unplaced limits opening st (.call t (t.span.merge close.span) close _) 1

theorem openParenthesis_unplaced :
    st.unplaced.openParenthesis limits t.unplaced (ahead.map Lexeme.unplaced) =
      unplacing unplaced (st.openParenthesis limits t ahead) := by
  unfold openParenthesis
  rw [← List.map_cons, closing?_unplaced]
  cases closing? 0 (t :: ahead) with
  | none => rfl
  | some close =>
    simp only [Option.map_some]
    rw [castTarget?_unplaced]
    split
    · rename_i target _
      have hawait : st.unplaced.await limits t.index .zero (.cast · target) =
          unplacing unplaced (st.await limits t.index (t.span.merge close.span) (.cast · target)) :=
        await_unplaced limits st _ _ fun _ => rfl
      show Except.map _ (st.unplaced.await limits t.index .zero (.cast · target)) = _
      rw [hawait]
      refine Eq.symm (mapOutcome_map ?_)
      exact fun _ => rfl
    · exact descend_unplaced limits t st (.group t.index (t.span.merge close.span) close.index) 0

theorem reference_unplaced :
    st.unplaced.reference r limits t.unplaced = unplacing unplaced (st.reference r limits t) := by
  unfold reference
  rw [show t.unplaced.text = t.text from rfl]
  split
  · exact place_unplaced limits st t.index t.span fun o => Tree.unplaced_reference o _
  · rfl

theorem identifier_unplaced :
    st.unplaced.identifier r limits t.unplaced (ahead.map Lexeme.unplaced) =
      unplacing unplaced (st.identifier r limits t ahead) := by
  unfold identifier
  rw [show t.unplaced.text = t.text from rfl]
  split
  · exact place_unplaced limits st t.index t.span fun o => Tree.unplaced_constant o _
  · cases ahead with
    | nil => exact reference_unplaced r limits t st
    | cons opening rest =>
      show (if opening.isOpening = true then _ else _) = _
      simp only []
      split
      · exact openCall_unplaced limits t rest st opening
      · exact reference_unplaced r limits t st

theorem resolveCall_unplaced (count : Nat) :
    resolveCall r t.unplaced count = unplacing id (resolveCall r t count) := by
  unfold resolveCall
  rw [show t.unplaced.text = t.text from rfl]
  split
  · rfl
  split <;> rfl

theorem fillDefaults_unplaced (vs : List Value) :
    fillDefaults limits t.unplaced vs st.unplaced =
      unplacing (fun p => (p.1.map Tree.unplaced, p.2.unplaced)) (fillDefaults limits t vs st) := by
  induction vs generalizing st with
  | nil => rfl
  | cons v vs ih =>
    rw [fillDefaults, fillDefaults, show t.unplaced.span = .zero from rfl,
      show t.unplaced.index = t.index from rfl, st.alloc_unplaced limits t.index t.span]
    refine (mapOutcome_bind fun p => ?_).symm
    show _ = (fillDefaults limits t.unplaced vs p.2.unplaced >>= _)
    rw [ih]
    refine mapOutcome_bind fun q => ?_
    show Except.ok (List.map Tree.unplaced (.constant p.1 v :: q.1), q.2.unplaced) = _
    rw [List.map_cons, Tree.unplaced_constant]
    rfl

theorem closeArguments_unplaced (bare : Bool) (l : Level) :
    closeArguments t.unplaced bare l.unplaced =
      unplacing (List.map Tree.unplaced) (closeArguments t bare l) := by
  unfold closeArguments
  split
  · rfl
  · have hsingle := l.operands.single_unplaced ⟨.emptyArgument, none, t.span, none⟩
    show Except.map _ (l.operands.unplaced.single
      (ParseError.unplaced ⟨.emptyArgument, none, t.span, none⟩)) = _
    rw [hsingle]
    refine Eq.symm (mapOutcome_map ?_)
    exact fun u => List.map_append

theorem ascend_unplaced :
    st.unplaced.ascend r limits = unplacing unplaced (st.ascend r limits) := by
  obtain ⟨level, outer, next, skip⟩ := st
  cases outer with
  | nil => rfl
  | cons below outer =>
    obtain ⟨bracket, operands, args⟩ := level
    cases bracket with
    | whole => rfl
    | group opening span close =>
      show (operands.unplaced.single (ParseError.unplaced ⟨.emptyExpression, none, span, none⟩) >>=
        fun inner => place limits opening .zero (.group · inner)
          (ParseState.unplaced ⟨below, outer, next, skip⟩)) = _
      rw [OperandStack.single_unplaced]
      refine Eq.symm (mapOutcome_bind fun inner => ?_)
      exact (place_unplaced limits _ opening span fun o => Tree.unplaced_group o inner).symm
    | call name span close bare =>
      show (closeArguments close.unplaced bare (Level.unplaced ⟨.call name span close bare, operands, args⟩) >>=
        fun args => resolveCall r name.unplaced args.length >>= fun f =>
          fillDefaults limits close.unplaced (defaultsAfter r f args.length)
            (ParseState.unplaced ⟨below, outer, next, skip⟩) >>= fun p =>
            place limits name.index .zero (.call · f (args ++ p.1)) p.2) = _
      rw [closeArguments_unplaced]
      refine Eq.symm (mapOutcome_bind fun args => ?_)
      rw [resolveCall_unplaced, List.length_map]
      refine mapOutcome_bind fun f => ?_
      rw [fillDefaults_unplaced]
      refine mapOutcome_bind fun p => ?_
      refine (place_unplaced limits p.2 name.index span fun o => ?_).symm
      rw [Tree.unplaced_call, List.map_append]
      rfl

theorem comma_unplaced : st.unplaced.comma t.unplaced = unplacing unplaced (st.comma t) := by
  obtain ⟨⟨bracket, operands, args⟩, outer, next, skip⟩ := st
  cases bracket with
  | call name span close bare =>
    have hsingle := operands.single_unplaced ⟨.emptyArgument, none, t.span, none⟩
    show Except.map _ (operands.unplaced.single
      (ParseError.unplaced ⟨.emptyArgument, none, t.span, none⟩)) = _
    rw [hsingle]
    refine Eq.symm (mapOutcome_map ?_)
    intro arg
    simp [unplaced, Level.unplaced, OperandStack.unplaced]
  | _ => rfl

theorem token_unplaced :
    st.unplaced.token r limits t.unplaced (ahead.map Lexeme.unplaced) =
      unplacing unplaced (st.token r limits t ahead) := by
  unfold token
  rw [show t.unplaced.kind = t.kind from rfl, show t.unplaced.text = t.text from rfl,
    show t.unplaced.isOpening = t.isOpening from rfl, within_unplaced]
  split
  · split
    · exact place_unplaced limits st t.index t.span fun o => Tree.unplaced_constant o _
    · rfl
  · exact place_unplaced limits st t.index t.span fun o => Tree.unplaced_constant o _
  · exact identifier_unplaced r limits t _ st
  · split
    · exact openParenthesis_unplaced limits t _ st
    · rfl
  · exact operator_unplaced limits t st
  · exact comma_unplaced t st

/-- A step does not look at spans. -/
theorem step_unplaced :
    step r limits t.unplaced (ahead.map Lexeme.unplaced) st.unplaced =
      unplacing unplaced (step r limits t ahead st) := by
  obtain ⟨level, outer, next, skip⟩ := st
  cases skip with
  | succ skip => rfl
  | zero =>
    have hclose : level.unplaced.bracket.close? = level.bracket.close? := level.bracket.close?_unplaced
    show (if level.unplaced.bracket.close? = some t.index then _ else _) =
      unplacing unplaced (if level.bracket.close? = some t.index then _ else _)
    rw [hclose]
    split
    · exact ascend_unplaced r limits ⟨level, outer, next, 0⟩
    · exact token_unplaced r limits t ahead ⟨level, outer, next, 0⟩

/-- A run does not look at spans. -/
theorem run_unplaced (ts : List Lexeme) :
    run r limits (ts.map Lexeme.unplaced) st.unplaced = unplacing unplaced (run r limits ts st) := by
  induction ts generalizing st with
  | nil => rfl
  | cons t ts ih =>
    rw [List.map_cons, run, run, step_unplaced]
    cases step r limits t ts st with
    | error e => rfl
    | ok st' => exact ih st'

end ParseState

/-- Lexemes that differ in their spans only are parsed alike. -/
theorem parse_congr {s s' : TokenStream} (r : Registry) (limits : Limits)
    (h : s.lexemes.map Lexeme.unplaced = s'.lexemes.map Lexeme.unplaced) :
    unplacing Expr.unplaced (parse s r limits) = unplacing Expr.unplaced (parse s' r limits) := by
  have hparse : ∀ s : TokenStream, unplacing Expr.unplaced (parse s r limits) =
      (ParseState.run r limits (s.lexemes.map Lexeme.unplaced) {} >>= fun st =>
        st.level.operands.single ⟨.emptyExpression, none, .zero, none⟩ >>= fun root =>
          .ok ⟨root, st.next⟩) := by
    intro s
    have hrun := ParseState.run_unplaced r limits {} s.lexemes
    rw [show ParseState.unplaced {} = {} from rfl] at hrun
    rw [hrun, parse]
    refine mapOutcome_bind fun st => ?_
    have hsingle := st.level.operands.single_unplaced
      ⟨.emptyExpression, none, .point s.endOffset, none⟩
    show _ = (st.level.operands.unplaced.single
      (ParseError.unplaced ⟨.emptyExpression, none, .point s.endOffset, none⟩) >>= _)
    rw [hsingle]
    exact mapOutcome_bind fun root => rfl
  rw [hparse, hparse, h]

end ExprEngine
