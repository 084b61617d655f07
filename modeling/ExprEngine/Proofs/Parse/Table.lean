import ExprEngine.Proofs.Parse.Constants
import ExprEngine.Proofs.Parse.Slots

/-!
# The parser in a table is the parser

Both read the same tokens in the same order. A token asks both for the same, since that depends on
the brackets alone, and what it asks for leaves a table with the entries of the trees.

* `step_eq_perform`            a step on trees, by what the token asks for;
* `Represents`                 a state of the table for a state with trees;
* `Represents.perform`         what a token asks for, in the table and on trees;
* `Represents.step`            one token more;
* `Represents.readBefore`      a run up to some lexemes;
* `parseTable_eq`              the table of a parsed expression;
* `parse_isTree`               it is one tree.
-/

namespace ExprEngine

variable {r : Registry} {limits : Limits}

/-! ## steps on trees -/

namespace ParseState

/-- What a token asks for, on trees. -/
def perform (r : Registry) (limits : Limits) :
    Request → ParseState → Except ParseError ParseState
  | .pass, st => .ok { st with skip := st.skip - 1 }
  | .refuse e, _ => .error e
  | .constant t v, st => st.place limits t.index t.span (.constant · v)
  | .reference t x, st => st.place limits t.index t.span (.reference · x)
  | .operator t (.unary op), st => st.unary limits t op
  | .operator t (.binary op), st =>
    st.infixOperator limits t (Operator.binary op).binding fun l o => .binary o op l
  | .operator t .choice, st =>
    st.infixOperator limits t Operator.choice.binding fun c o => .condition o c
  | .separate t, st => (st.level.operands.separate t).map st.setOperands
  | .cast t span target, st =>
    (st.await limits t.index span (.cast · target)).map fun st => { st with skip := 2 }
  | .descend opening bracket skip, st => st.descend limits opening bracket skip
  | .ascend, st => st.ascend r limits
  | .comma t, st =>
    (st.level.operands.single ⟨.emptyArgument, none, t.span, none⟩).map fun arg =>
      { st with level := { st.level with operands := [], args := st.level.args ++ [arg] } }

variable {t : Lexeme} {ahead : List Lexeme} {st : ParseState}

theorem operator_eq_perform : st.operator limits t = st.perform r limits (.ofOperator t) := by
  unfold operator Request.ofOperator
  split
  · rfl
  · cases Operator.ofSymbol? t.text with
    | none => rfl
    | some op => cases op <;> rfl

theorem reference_eq_perform : st.reference r limits t = st.perform r limits (.ofReference r t) := by
  unfold reference Request.ofReference
  cases r.variableNamed? t.text <;> rfl

theorem identifier_eq_perform :
    st.identifier r limits t ahead = st.perform r limits (.ofIdentifier r t ahead) := by
  unfold identifier Request.ofIdentifier
  cases booleanNamed? t.text with
  | some b => rfl
  | none =>
    cases ahead with
    | nil => exact reference_eq_perform
    | cons opening rest =>
      dsimp only
      split
      · unfold openCall Request.ofCall
        cases closing? 0 (opening :: rest) <;> rfl
      · exact reference_eq_perform

theorem openParenthesis_eq_perform :
    st.openParenthesis limits t ahead = st.perform r limits (.ofParenthesis t ahead) := by
  unfold openParenthesis Request.ofParenthesis
  cases closing? 0 (t :: ahead) with
  | none => rfl
  | some close =>
    dsimp only
    cases castTarget? t close ahead <;> rfl

theorem token_eq_perform :
    st.token r limits t ahead = st.perform r limits (.ofToken r st.level.bracket t ahead) := by
  unfold token Request.ofToken
  cases t.kind with
  | number => cases Literal.number? t.text.toList <;> rfl
  | string => rfl
  | identifier => exact identifier_eq_perform
  | parenthesis =>
    dsimp only
    split
    · exact openParenthesis_eq_perform
    · rfl
  | operator => exact operator_eq_perform
  | comma =>
    show st.comma t = _
    unfold comma
    cases st.level.bracket <;> rfl

/-- A step is what its token asks for. -/
theorem step_eq_perform : st.step r limits t ahead =
    st.perform r limits (.next r st.level.bracket st.skip t ahead) := by
  obtain ⟨l, outer, next, skip⟩ := st
  cases skip with
  | succ skip => rfl
  | zero =>
    show (if l.bracket.close? = some t.index then _ else _) = _
    unfold Request.next
    dsimp only
    split
    · rfl
    · exact token_eq_perform

end ParseState

/-! ## states -/

/-- A level with ids for its trees. -/
def Level.table (l : Level) : TableLevel := ⟨l.bracket, l.operands.map Entry.id, l.args.map Tree.id⟩

/-- A level without holes where its trees have operands. -/
structure Level.Complete (l : Level) : Prop where
  operands : ∀ e ∈ l.operands, e.Complete
  args : ∀ x ∈ l.args, x.Complete

/-- A state of the table for a state with trees: the same brackets and ids, and a table with the
entries of the trees and others. -/
structure Represents (rest : Multiset Cell) (ts : TableState) (st : ParseState) : Prop where
  level : ts.level = st.level.table
  outer : ts.outer = st.outer.map Level.table
  skip : ts.skip = st.skip
  complete : ∀ l ∈ st.level :: st.outer, l.Complete
  stores : ts.arena.Stores st.next (cellsOfLevels (st.level :: st.outer) + rest)

theorem represents_start : Represents 0 {} {} where
  level := rfl
  outer := rfl
  skip := rfl
  complete := List.forall_mem_singleton.2 ⟨nofun, nofun⟩
  stores := Arena.stores_empty

namespace Represents

variable {F F' : Multiset Cell} {ts : TableState} {st : ParseState} {token : Nat} {span : Span}
  {k : PartKind}

theorem congr (h : Represents F ts st) (hF : F = F') : Represents F' ts st := hF ▸ h

/-- The operands of the innermost level, and all that is beside them. -/
theorem stacked (h : Represents F ts st) :
    Stacked st.next (cellsOfAll st.level.args + cellsOfLevels st.outer + F)
      (ts.arena, ts.level.operands) st.level.operands := by
  refine ⟨?_, (h.complete _ List.mem_cons_self).operands, h.stores.congr ?_⟩
  · rw [h.level]
    rfl
  · rw [cellsOfLevels_cons, Level.cells]
    abel

/-- Other operands in the innermost level, with parts that they left. -/
theorem setOperands (h : Represents F ts st) {x : Arena × List PartId} {s : OperandStack}
    (hx : Stacked st.next (cellsOfAll st.level.args + cellsOfLevels st.outer + F') x s) :
    Represents F' (ts.setOperands x) (st.setOperands s) := by
  have hlevel : ts.level = st.level.table := h.level
  obtain ⟨hfirst, houter⟩ := List.forall_mem_cons.1 h.complete
  refine ⟨?_, h.outer, h.skip, ?_, hx.stores.congr ?_⟩
  · show ({ ts.level with operands := x.2 } : TableLevel) = _
    rw [hlevel, hx.ids]
    rfl
  · exact List.forall_mem_cons.2 ⟨⟨hx.complete, hfirst.args⟩, houter⟩
  · show _ = cellsOfLevels ({ st.level with operands := s } :: st.outer) + F'
    rw [cellsOfLevels_cons, Level.cells]
    abel

/-- A new part gets the next id. -/
theorem make (h : Represents F ts st) :
    Mirrors
      (fun x y => y.1 = ⟨st.next, token, span⟩ ∧ x.1 = st.next ∧
        y.2 = { st with next := st.next + 1 } ∧
        Represents ({(st.next, ⟨k, token, span⟩)} + F) { ts with arena := x.2 } y.2)
      (ts.arena.make limits ⟨k, token, span⟩) (st.alloc limits token span) := by
  unfold Arena.make ParseState.alloc
  rw [h.stores.size_eq]
  split
  · exact .error _
  · refine .ok ⟨rfl, rfl, rfl, h.level, h.outer, h.skip, h.complete, ?_⟩
    refine (h.stores.alloc _).congr ?_
    abel

/-- A part is made and handed over in some way. -/
theorem handOver (h : Represents F ts st)
    (give : Origin → OperandStack → Except ParseError OperandStack)
    (hgive : ∀ {G a ids s},
      Stacked (st.next + 1) ({(st.next, ⟨k, token, span⟩)} + F + G) (a, ids) s →
        Mirrors (Stacked (st.next + 1) G) (a.connect limits.maxOperands ids st.next)
          (give ⟨st.next, token, span⟩ s)) :
    Mirrors (Represents 0) (ts.place limits ⟨k, token, span⟩) (do
      let (o, st) ← st.alloc limits token span
      let s ← give o st.level.operands
      return st.setOperands s) := by
  refine Mirrors.bind h.make ?_
  rintro ⟨id, a⟩ ⟨o, st'⟩ ⟨rfl, rfl, rfl, h'⟩
  refine Mirrors.bind (hgive (h'.stacked.congr ?_)) fun x s hx => .ok (h'.setOperands hx)
  abel

/-- A finished part is made and handed over. -/
theorem place (h : Represents F ts st) {make : Origin → Tree}
    (hmake : ∀ o, o = ⟨st.next, token, span⟩ → (make o).Complete ∧ (make o).id = o.id ∧
      (make o).cells = {(o.id, ⟨k, token, span⟩)} + F) :
    Mirrors (Represents 0) (ts.place limits ⟨k, token, span⟩)
      (st.place limits token span make) := by
  obtain ⟨hcomplete, hid, hcells⟩ := hmake _ rfl
  refine h.handOver (fun o s => s.connect limits.maxOperands (make o)) fun {G a ids s} hs => ?_
  show Mirrors _ (a.connect limits.maxOperands ids (⟨st.next, token, span⟩ : Origin).id) _
  rw [← hid]
  exact (hs.congr (by rw [hcells])).connect hcomplete

/-- An operator that waits is made and pushed. -/
theorem await (h : Represents F ts st) {make : Origin → Pending}
    (hmake : ∀ o, o = ⟨st.next, token, span⟩ → (∀ x ∈ (make o).operands, x.Complete) ∧
      (make o).origin.id = o.id ∧ (make o).cells = {(o.id, ⟨k, token, span⟩)} + F) :
    Mirrors (Represents 0) (ts.place limits ⟨k, token, span⟩)
      (st.await limits token span make) := by
  obtain ⟨hcomplete, hid, hcells⟩ := hmake _ rfl
  refine h.handOver (fun o s => s.push limits.maxOperands (.pending (make o)))
    fun {G a ids s} hs => ?_
  show Mirrors _ (a.connect limits.maxOperands ids (⟨st.next, token, span⟩ : Origin).id) _
  rw [← hid]
  exact (hs.congr (by rw [hcells])).connect_pending hcomplete

theorem binding_lt {op : Operator} (h : op.arity ≠ 1) : op.binding.precedence < castPrecedence := by
  have hall : ∀ op ∈ Operator.all, op.arity ≠ 1 → op.binding.precedence < castPrecedence := by
    decide
  exact hall op op.mem_all h

/-- An operator between its operands takes the left one and waits for the next. -/
theorem infixOperator (h : Represents 0 ts st) {t : Lexeme} {op : Operator} (hop : op.arity ≠ 1)
    {make : Tree → Origin → Pending}
    (hmake : ∀ o left, left.Complete → (make left o).origin = o ∧ (make left o).operands = [left] ∧
      (make left o).kind = (PartKind.ofOperator op).fill left.id true) :
    Mirrors (Represents 0) (ts.infixOperator limits t op)
      (st.infixOperator limits t op.binding make) := by
  refine Mirrors.bind (h.stacked.takeLeft (binding_lt hop)) ?_
  rintro ⟨id, x⟩ ⟨left, s⟩ ⟨rfl, hleft, hx⟩
  have h' : Represents left.cells (ts.setOperands x) (st.setOperands s) := by
    apply h.setOperands
    refine hx.congr ?_
    abel
  refine h'.await fun o ho => ?_
  obtain ⟨horigin, hoperands, hkind⟩ := hmake o left hleft
  refine ⟨?_, by rw [horigin], ?_⟩
  · rw [hoperands]
    exact List.forall_mem_singleton.2 hleft
  · rw [Pending.cells, Pending.part, hoperands, hkind, horigin, ho, cellsOfAll_cons,
      cellsOfAll_nil, add_zero]

theorem pass (h : Represents 0 ts st) (skip : Nat) :
    Represents 0 { ts with skip } { st with skip } :=
  ⟨h.level, h.outer, rfl, h.complete, h.stores⟩

/-- One bracket deeper. -/
theorem descend (h : Represents 0 ts st) (opening : Lexeme) (bracket : Bracket) (skip : Nat) :
    Mirrors (Represents 0) (ts.descend limits opening bracket skip)
      (st.descend limits opening bracket skip) := by
  have hlength : ts.outer.length = st.outer.length := by
    rw [h.outer, List.length_map]
  unfold TableState.descend ParseState.descend
  rw [hlength]
  split
  · exact .error _
  · refine .ok ⟨rfl, ?_, rfl, List.forall_mem_cons.2 ⟨⟨nofun, nofun⟩, h.complete⟩, ?_⟩
    · show ts.level :: ts.outer = _
      rw [h.level, h.outer]
      rfl
    · refine h.stores.congr ?_
      show _ = cellsOfLevels ({ bracket } :: st.level :: st.outer) + 0
      rw [cellsOfLevels_cons { bracket := bracket }]
      show _ = 0 + 0 + _ + 0
      abel

/-- The defaults of a call, made one after the other. -/
theorem fillDefaults (h : Represents F ts st) (close : Lexeme) (vs : List Value) :
    Mirrors
      (fun x y => x.1 = y.1.map Tree.id ∧ (∀ t ∈ y.1, t.Complete) ∧
        Represents (cellsOfAll y.1 + F) { ts with arena := x.2 } y.2)
      (TableState.fillDefaults limits close vs ts.arena)
      (ParseState.fillDefaults limits close vs st) := by
  induction vs generalizing ts st F with
  | nil => exact .ok ⟨rfl, nofun, by rwa [cellsOfAll_nil, zero_add]⟩
  | cons v vs ih =>
    refine Mirrors.bind h.make ?_
    rintro ⟨id, a⟩ ⟨o, st'⟩ ⟨rfl, rfl, rfl, h'⟩
    refine Mirrors.bind (ih h') ?_
    rintro ⟨ids, a'⟩ ⟨trees, st''⟩ ⟨rfl, hcomplete, h''⟩
    refine .ok ⟨rfl, List.forall_mem_cons.2 ⟨trivial, hcomplete⟩, h''.congr ?_⟩
    rw [cellsOfAll_cons, Tree.cells_constant]
    abel

end Represents

/-! ## brackets that close -/

/-- What a bracket keeps beside its last operand when it closes: only a call has arguments, and it
has nothing at all between bare brackets. -/
def Level.Settled (l : Level) : Prop :=
  match l.bracket with
  | .whole => False
  | .group _ _ _ => l.args = []
  | .call _ _ _ bare => bare = true → l.operands = [] ∧ l.args = []

namespace Represents

variable {F F' : Multiset Cell} {ts : TableState} {st : ParseState}

/-- The state around the innermost bracket, with the parts that were found in it. -/
theorem around (h : Represents 0 ts st) {level : Level} {outer : List Level}
    (houter : st.outer = level :: outer) :
    Represents st.level.cells
      { ts with level := level.table, outer := outer.map Level.table }
      { st with level := level, outer := outer } := by
  have hcomplete := (List.forall_mem_cons.1 h.complete).2
  have hstores := h.stores
  rw [houter] at hcomplete hstores
  refine ⟨rfl, rfl, h.skip, hcomplete, hstores.congr ?_⟩
  rw [cellsOfLevels_cons]
  abel

/-- The arguments of a call. -/
theorem closeArguments (h : Represents 0 ts st) {name close : Lexeme} {span : Span} {bare : Bool}
    (hbracket : st.level.bracket = .call name span close bare) (hsettled : st.level.Settled) :
    Mirrors
      (fun ids trees => ids = trees.map Tree.id ∧ (∀ t ∈ trees, t.Complete) ∧
        st.level.cells = cellsOfAll trees)
      (.of (ts.closeArguments close bare)) (ParseState.closeArguments close bare st.level) := by
  unfold Level.Settled at hsettled
  rw [hbracket] at hsettled
  unfold TableState.closeArguments ParseState.closeArguments
  cases bare with
  | true =>
    obtain ⟨hoperands, hargs⟩ := hsettled rfl
    refine .ok ⟨rfl, nofun, ?_⟩
    rw [Level.cells, hoperands, hargs]
    rfl
  | false =>
    show Mirrors _ (.of (Except.map _ _)) _
    rw [Attempt.of_map]
    refine Mirrors.map h.stacked.single ?_
    rintro id t ⟨rfl, hoperands⟩
    obtain ⟨hlevel, -⟩ := List.forall_mem_cons.1 h.complete
    have ht : t.Complete := hlevel.operands (.done t) (by rw [hoperands]; simp)
    refine ⟨?_, ?_, ?_⟩
    · rw [h.level, List.map_append]
      rfl
    · exact List.forall_mem_append.2 ⟨hlevel.args, List.forall_mem_singleton.2 ht⟩
    · rw [Level.cells, hoperands, cellsOfAll_append, cellsOfAll_cons, OperandStack.cells_cons]
      exact add_comm ..

theorem bracket (h : Represents F ts st) : ts.level.bracket = st.level.bracket := by
  rw [h.level]
  rfl

/-- A bracket closes. -/
theorem ascend (h : Represents 0 ts st) (hsettled : st.outer ≠ [] → st.level.Settled) :
    Mirrors (Represents 0) (ts.ascend r limits) (st.ascend r limits) := by
  unfold TableState.ascend ParseState.ascend
  rw [h.outer, h.bracket]
  cases houter : st.outer with
  | nil => exact .ok h
  | cons level outer =>
    have hs := hsettled (by rw [houter]; exact List.cons_ne_nil _ _)
    have hs' := hs
    unfold Level.Settled at hs'
    have haround := h.around houter
    have hlevel := List.forall_mem_cons.1 h.complete
    cases hbracket : st.level.bracket with
    | whole =>
      rw [hbracket] at hs'
      exact hs'.elim
    | group opening span close =>
      rw [hbracket] at hs'
      refine Mirrors.bind h.stacked.single ?_
      rintro id t ⟨rfl, hoperands⟩
      have ht : t.Complete := hlevel.1.operands (.done t) (by rw [hoperands]; simp)
      refine haround.place fun o ho => ⟨ht, rfl, ?_⟩
      subst ho
      rw [Tree.cells_group, Level.cells, hoperands, hs', OperandStack.cells_cons]
      exact congrArg _ ((add_zero _).trans (add_zero _)).symm
    | call name span close bare =>
      refine Mirrors.bind (h.closeArguments hbracket hs) ?_
      rintro ids written ⟨rfl, hwritten, hcells⟩
      rw [List.length_map]
      refine Mirrors.bind (.of_eq _) ?_
      rintro f _ rfl
      rw [hcells] at haround
      refine Mirrors.bind (haround.fillDefaults close _) ?_
      rintro ⟨ids, a⟩ ⟨filled, st'⟩ ⟨rfl, hfilled, h'⟩
      refine h'.place fun o ho => ⟨?_, rfl, ?_⟩
      · exact completeAll_iff.2 (List.forall_mem_append.2 ⟨hwritten, hfilled⟩)
      · subst ho
        rw [Tree.cells_call, List.map_append, cellsOfAll_append, add_comm (cellsOfAll written)]

/-- A comma ends an argument. -/
theorem comma (h : Represents 0 ts st) (t : Lexeme) :
    Mirrors (Represents 0) (ts.comma t) (st.perform r limits (.comma t)) := by
  refine Mirrors.map h.stacked.single ?_
  rintro id x ⟨rfl, hoperands⟩
  obtain ⟨hlevel, houter⟩ := List.forall_mem_cons.1 h.complete
  have hx : x.Complete := hlevel.operands (.done x) (by rw [hoperands]; simp)
  refine ⟨?_, h.outer, h.skip, ?_, h.stores.congr ?_⟩
  · show ({ ts.level with operands := [], args := ts.level.args ++ [x.id] } : TableLevel) = _
    rw [h.level]
    show (⟨_, [], st.level.args.map Tree.id ++ [x.id]⟩ : TableLevel) =
      ⟨_, [], (st.level.args ++ [x]).map Tree.id⟩
    rw [List.map_append]
    rfl
  · refine List.forall_mem_cons.2 ⟨⟨nofun, ?_⟩, houter⟩
    exact List.forall_mem_append.2 ⟨hlevel.args, List.forall_mem_singleton.2 hx⟩
  · rw [cellsOfLevels_cons, cellsOfLevels_cons, Level.cells, Level.cells, hoperands,
      cellsOfAll_append, cellsOfAll_cons, OperandStack.cells_cons]
    show x.cells + 0 + _ + _ + 0 = 0 + (_ + (x.cells + 0)) + _ + 0
    abel

/-! ## tokens -/

/-- What a token asks for is done in the table as on trees. -/
theorem perform (h : Represents 0 ts st) (q : Request)
    (hsettled : q = .ascend → st.outer ≠ [] → st.level.Settled) :
    Mirrors (Represents 0) (ts.perform r limits q) (st.perform r limits q) := by
  cases q with
  | pass =>
    refine .ok ?_
    rw [h.skip]
    exact h.pass _
  | refuse e => exact .error e
  | constant t v =>
    dsimp only [TableState.perform, ParseState.perform]
    refine h.place ?_
    rintro o rfl
    refine ⟨trivial, rfl, ?_⟩
    rw [Tree.cells_constant, add_zero]
  | reference t x =>
    dsimp only [TableState.perform, ParseState.perform]
    refine h.place ?_
    rintro o rfl
    refine ⟨trivial, rfl, ?_⟩
    rw [Tree.cells_reference, add_zero]
  | operator t op =>
    cases op with
    | unary op =>
      show Mirrors _ (ts.place limits ⟨.ofOperator (.unary op), t.index, t.span⟩)
        (st.await limits t.index t.span (.unary · op))
      refine h.await ?_
      rintro o rfl
      exact ⟨nofun, rfl, rfl⟩
    | binary op =>
      show Mirrors _ (ts.infixOperator limits t (.binary op))
        (st.infixOperator limits t (Operator.binary op).binding fun l o => .binary o op l)
      have hop : (Operator.binary op).arity ≠ 1 := show 2 ≠ 1 by decide
      exact h.infixOperator hop fun o left _ => ⟨rfl, rfl, rfl⟩
    | choice =>
      show Mirrors _ (ts.infixOperator limits t .choice)
        (st.infixOperator limits t Operator.choice.binding fun c o => .condition o c)
      have hop : Operator.choice.arity ≠ 1 := by decide
      exact h.infixOperator hop fun o left _ => ⟨rfl, rfl, rfl⟩
  | separate t =>
    refine Mirrors.map h.stacked.separate ?_
    intro a s hs
    exact h.setOperands hs
  | cast t span target =>
    refine Mirrors.map (h.await ?_) fun ts' st' h' => h'.pass 2
    intro o ho
    subst ho
    exact ⟨nofun, rfl, rfl⟩
  | descend opening bracket skip => exact h.descend opening bracket skip
  | ascend => exact h.ascend (hsettled rfl)
  | comma t => exact h.comma t

end Represents

/-- Only the token that closes a bracket asks for its end. -/
theorem Request.ofToken_ne_ascend {bracket : Bracket} {t : Lexeme} {ahead : List Lexeme} :
    ofToken r bracket t ahead ≠ .ascend := by
  unfold ofToken ofIdentifier ofParenthesis ofOperator ofCall ofReference
  repeat' split
  all_goals exact nofun

/-- A bracket that closes at the next token is settled. -/
theorem Reads.settled {l : Level} {outer : List Level} {done ahead : List Lexeme} {t : Lexeme}
    {i : Nat} (h : Reads r (l :: outer) done (t :: ahead)) (hn : Numbered i (t :: ahead))
    (ht : l.bracket.close? = some t.index) : l.Settled := by
  obtain ⟨bracket, operands, args⟩ := l
  cases bracket with
  | whole => cases ht
  | group opening span close =>
    obtain rfl : close = t.index := Option.some.inj ht
    obtain ⟨_, _, _, _, _, _, _, _, _, _, hargs, _⟩ := h.group_front hn
    exact hargs
  | call name span close bare =>
    obtain ⟨_, _, _, _, _, _, _, _, _, _, _, _, each, stack, nothing, _⟩ := h.call_inv
    intro hbare
    obtain ⟨rfl, rfl⟩ := List.append_eq_nil_iff.1 (nothing hbare).1
    exact ⟨stack.eq_nil, each.eq_nil⟩

namespace Represents

variable {ts : TableState} {st : ParseState} {done ahead : List Lexeme} {t : Lexeme} {i : Nat}

/-- One token more, in the table as on trees. -/
theorem step (h : Represents 0 ts st) (hr : ParseState.Reached r st done (t :: ahead))
    (hn : Numbered i (t :: ahead)) :
    Mirrors (Represents 0) (ts.step r limits t ahead) (st.step r limits t ahead) := by
  rw [ParseState.step_eq_perform]
  unfold TableState.step Request.next
  rw [h.bracket, h.skip]
  cases hskip : st.skip with
  | succ skip => exact h.perform .pass nofun
  | zero =>
    dsimp only
    split
    · rename_i hclose
      have hreads := hr.reads
      rw [hskip, List.take_zero, List.drop_zero] at hreads
      exact h.perform .ascend fun _ _ => hreads.settled hn hclose
    · exact h.perform _ fun hascend => absurd hascend Request.ofToken_ne_ascend

/-- A run up to some lexemes, in the table as on trees. -/
theorem readBefore {ls : List Lexeme} (h : Represents 0 ts st)
    (hr : ParseState.Reached r st done (ls ++ ahead)) (hn : Numbered i (ls ++ ahead)) :
    Mirrors (Represents 0) (ts.readBefore r limits ahead ls)
      (st.readBefore r limits ahead ls) := by
  induction ls generalizing ts st done i with
  | nil => exact .ok h
  | cons t rest ih =>
    refine Mirrors.bind_of_ok (h.step hr hn) fun ts' st' hstep h' => ?_
    exact ih h' (hr.step hn hstep) hn.2

end Represents

/-! ## whole parses -/

theorem ParseState.run_eq_readBefore (ls : List Lexeme) (st : ParseState) :
    run r limits ls st = readBefore r limits [] ls st := by
  induction ls generalizing st with
  | nil => rfl
  | cons t ts ih =>
    rw [run, readBefore, List.append_nil]
    cases st.step r limits t ts with
    | error e => rfl
    | ok st' => exact ih st'

/-- With nothing ahead no bracket is open but the whole, which has no arguments. -/
theorem Reads.closed {l : Level} {outer : List Level} {done : List Lexeme}
    (h : Reads r (l :: outer) done []) : outer = [] ∧ l.args = [] := by
  generalize ha : ([] : List Lexeme) = ahead at h
  cases h with
  | whole stack => exact ⟨rfl, rfl⟩
  | group => simp at ha
  | call => simp at ha

/-- What the parser leaves of all lexemes is stored in the table. -/
theorem ParseState.readBefore_closed {stream : TokenStream} {st : ParseState}
    (hrun : readBefore r limits [] stream.lexemes {} = .ok st) :
    st.outer = [] ∧ st.level.args = [] := by
  have hn : Numbered 0 (stream.lexemes ++ []) := by
    rw [List.append_nil]
    exact numbered_lexemes stream
  have hreads := ((reached_start _).readBefore hn hrun).reads
  rw [List.drop_nil] at hreads
  exact hreads.closed

/-- The parser in a table ends, with the same error or with the table of the parsed tree. -/
theorem parseTable_eq (stream : TokenStream) (r : Registry) (limits : Limits) :
    parseTable stream r limits =
      .of ((parse stream r limits).map fun e => (e.arena, e.tree.id)) := by
  have hn : Numbered 0 (stream.lexemes ++ []) := by
    rw [List.append_nil]
    exact numbered_lexemes stream
  apply Mirrors.eq
  unfold parseTable parse
  rw [ParseState.run_eq_readBefore]
  refine Mirrors.bind_of_ok (represents_start.readBefore (ParseState.reached_start _) hn) ?_
  intro ts st hrun h
  obtain ⟨houter, hargs⟩ := ParseState.readBefore_closed hrun
  refine Mirrors.bind h.stacked.single ?_
  rintro id root ⟨rfl, hoperands⟩
  have hroot : root.Complete :=
    (h.complete _ List.mem_cons_self).operands (.done root) (by rw [hoperands]; simp)
  have hstores : ts.arena.Stores st.next root.cells := by
    refine h.stores.congr ?_
    rw [houter, cellsOfLevels_cons, cellsOfLevels_nil, Level.cells, hoperands, hargs,
      OperandStack.cells_cons]
    show root.cells + 0 + 0 + 0 + 0 = _
    simp only [add_zero]
  have hids : root.ids = Multiset.range st.next := by
    rw [← Tree.map_cells hroot, hstores.ids]
  refine .ok ?_
  rw [hstores.eq (Arena.stores_ofTree hroot hids)]
  rfl

/-- The parser in a table ends for all tokens. A table that it returns is one tree below the root:
every slot is filled, and every part is reached along exactly one path. The table of a parsed
expression is such a one, with an entry for every id that was given out, and is read back as the
parsed tree. -/
theorem parse_isTree (stream : TokenStream) (r : Registry) (limits : Limits) :
    (parseTable stream r limits).Ends ∧
      (∀ a root, parseTable stream r limits = pure (a, root) → a.IsTree root) ∧
      ∀ e, parse stream r limits = .ok e →
        parseTable stream r limits = pure (e.arena, e.tree.id) ∧ e.arena.IsTree e.tree.id ∧
          e.arena.size = e.partCount ∧ e.arena.tree e.tree.id = e.tree := by
  have htable := parseTable_eq stream r limits
  refine ⟨⟨_, htable⟩, fun a root h => ?_, fun e h => ⟨?_, Expr.isTree_arena h⟩⟩
  · rw [htable] at h
    obtain ⟨e, he, hroot⟩ := map_eq_ok.1 (Option.some.inj h)
    cases hroot
    exact (Expr.isTree_arena he).1
  · rw [htable, h]
    rfl

theorem parse_isTree_sample :
    parseTable ⟨sampleSource.toList, sampleTokens⟩ sampleRegistry {} =
        pure ((⟨sampleTree, 9⟩ : Expr).arena, sampleTree.id) ∧
      (⟨sampleTree, 9⟩ : Expr).arena.IsTree sampleTree.id ∧
      (⟨sampleTree, 9⟩ : Expr).arena.size = 9 ∧
      (⟨sampleTree, 9⟩ : Expr).arena.tree sampleTree.id = sampleTree := by
  obtain ⟨-, -, hparsed⟩ := parse_isTree ⟨sampleSource.toList, sampleTokens⟩ sampleRegistry {}
  exact hparsed _ parse_sample

end ExprEngine
