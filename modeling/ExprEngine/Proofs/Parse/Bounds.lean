import ExprEngine.Proofs.Parse.Numbering
import ExprEngine.Proofs.Tree

/-!
# Bounds of a parse

A parse stays within its limits, and whatever it blames lies where its tokens lie: the spans that
it handles are spans of tokens, put together where brackets are.

* `Span.Covering`     a property of spans that holds of covering spans too;
* `Tree.Spans`        a tree all of whose parts have spans with a property;
* `Reads.spans`       open brackets hold only spans put together from the lexemes read;
* `Within`            a state within its limits;
* `step_ends`         a step stays within the limits, or blames a span that it was given;
* `run_ends`          what every step promises, a run promises;
* `parse_ends`        a whole parse.
-/

namespace ExprEngine

/-! ## spans of trees -/

/-- A property of spans that covering spans have with those they cover. -/
structure Span.Covering (Q : Span → Prop) : Prop where
  zero : Q .zero
  merge : ∀ {a b : Span}, Q a → Q b → Q (a.merge b)

theorem Span.Covering.cover {Q : Span → Prop} (hQ : Span.Covering Q) {s : Span} {l : List Span}
    (hs : Q s) (hl : ∀ a ∈ l, Q a) : Q (s.cover l) := by
  induction l generalizing s with
  | nil => exact hs
  | cons a l ih =>
    obtain ⟨ha, hl⟩ := List.forall_mem_cons.1 hl
    exact ih (hQ.merge hs ha) hl

/-- A tree all of whose parts have spans with a property. -/
def Tree.Spans (Q : Span → Prop) (t : Tree) : Prop := ∀ n ∈ t.nodes, Q n.origin.span

variable {Q : Span → Prop}

namespace Tree

variable {t : Tree}

theorem Spans.origin (hQ : Span.Covering Q) (h : t.Spans Q) : Q t.origin.span := by
  cases t with
  | hole => exact hQ.zero
  | _ => exact h _ (List.mem_cons_self ..)

theorem Spans.extent (hQ : Span.Covering Q) (h : t.Spans Q) : Q t.extent :=
  hQ.cover (h.origin hQ) (List.forall_mem_map.2 h)

theorem spans_hole : hole.Spans Q := nofun

theorem spans_unary {o : Origin} {op : UnaryOp} {x : Tree} :
    (unary o op x).Spans Q ↔ Q o.span ∧ x.Spans Q := List.forall_mem_cons

theorem spans_cast {o : Origin} {ty : ValueType} {x : Tree} :
    (cast o ty x).Spans Q ↔ Q o.span ∧ x.Spans Q := List.forall_mem_cons

theorem spans_group {o : Origin} {x : Tree} :
    (group o x).Spans Q ↔ Q o.span ∧ x.Spans Q := List.forall_mem_cons

theorem spans_binary {o : Origin} {op : BinaryOp} {l x : Tree} :
    (binary o op l x).Spans Q ↔ Q o.span ∧ l.Spans Q ∧ x.Spans Q :=
  List.forall_mem_cons.trans (and_congr_right fun _ => List.forall_mem_append)

theorem spans_choice {o : Origin} {c y n : Tree} :
    (choice o c y n).Spans Q ↔ Q o.span ∧ c.Spans Q ∧ y.Spans Q ∧ n.Spans Q := by
  simp only [Spans, nodes, List.forall_mem_cons, List.forall_mem_append, origin, and_assoc]

theorem spans_call {o : Origin} {f : FuncId} {args : List Tree} :
    (call o f args).Spans Q ↔ Q o.span ∧ ∀ n ∈ nodesOfAll args, Q n.origin.span :=
  List.forall_mem_cons

end Tree

/-! ## spans of phrases -/

variable {r : Registry}

theorem Phrase.origin_span (hQ : Span.Covering Q) {t : Tree} {ls : List Lexeme}
    (h : Phrase r t ls) (hls : ∀ l ∈ ls, Q l.span) : Q t.origin.span := by
  cases h with
  | cast =>
    exact hQ.merge (hls _ (List.mem_cons_self ..)) (hls _ (by simp))
  | group => exact hQ.merge (hls _ (List.mem_cons_self ..)) (hls _ (by simp))
  | call => exact hQ.merge (hls _ (List.mem_cons_self ..)) (hls _ (by simp))
  | _ => exact hls _ (by simp)

/-- The spans of a phrase are those of its lexemes, and of brackets. -/
theorem Phrase.spans (hQ : Span.Covering Q) {t : Tree} {ls : List Lexeme} (h : Phrase r t ls)
    (hls : ∀ l ∈ ls, Q l.span) : t.Spans Q := by
  intro n hn
  rcases h.parts n hn with ⟨ms, hms, hphrase⟩ | ⟨l, hl, -, id, v, rfl⟩
  · exact hphrase.origin_span hQ fun l hl => hls l (hms.subset hl)
  · exact hls l hl

/-! ## spans of open brackets -/

theorem Pending.Phrase.spans (hQ : Span.Covering Q) {p : Pending} {ls : List Lexeme}
    (h : p.Phrase r ls) (hls : ∀ l ∈ ls, Q l.span) : p.tree.Spans Q := by
  cases h with
  | unary => exact Tree.spans_unary.2 ⟨hls _ (List.mem_singleton_self _), Tree.spans_hole⟩
  | cast =>
    obtain ⟨hopening, hls⟩ := List.forall_mem_cons.1 hls
    obtain ⟨-, hls⟩ := List.forall_mem_cons.1 hls
    have hclose := List.forall_mem_singleton.1 hls
    exact Tree.spans_cast.2 ⟨hQ.merge hopening hclose, Tree.spans_hole⟩
  | binary _ left =>
    obtain ⟨has, hls⟩ := List.forall_mem_append.1 hls
    have hl := List.forall_mem_singleton.1 hls
    exact Tree.spans_binary.2 ⟨hl, left.spans hQ has, Tree.spans_hole⟩
  | condition _ condition =>
    obtain ⟨hcs, hls⟩ := List.forall_mem_append.1 hls
    have hl := List.forall_mem_singleton.1 hls
    exact Tree.spans_choice.2 ⟨hl, condition.spans hQ hcs, Tree.spans_hole, Tree.spans_hole⟩
  | branch _ condition yes =>
    obtain ⟨hcs, hls⟩ := List.forall_mem_append.1 hls
    obtain ⟨hl, hys⟩ := List.forall_mem_cons.1 hls
    exact Tree.spans_choice.2 ⟨hl, condition.spans hQ hcs, yes.spans hQ hys, Tree.spans_hole⟩
  | otherwise _ _ condition yes =>
    obtain ⟨hcs, hls⟩ := List.forall_mem_append.1 hls
    obtain ⟨hl, hls⟩ := List.forall_mem_cons.1 hls
    obtain ⟨hys, -⟩ := List.forall_mem_append.1 hls
    exact Tree.spans_choice.2 ⟨hl, condition.spans hQ hcs, yes.spans hQ hys, Tree.spans_hole⟩

theorem StackPhrase.spans (hQ : Span.Covering Q) {s : OperandStack} {ls : List Lexeme}
    (h : StackPhrase r s ls) (hls : ∀ l ∈ ls, Q l.span) : ∀ e ∈ s, e.tree.Spans Q := by
  induction h with
  | nil => exact nofun
  | @cons e _ _ _ _ top ih =>
    obtain ⟨hbelow, htop⟩ := List.forall_mem_append.1 hls
    refine List.forall_mem_cons.2 ⟨?_, ih hbelow⟩
    cases e with
    | done t => exact ExprEngine.Phrase.spans hQ top htop
    | pending p => exact Pending.Phrase.spans hQ top htop

/-- The spans that a bracket keeps for its errors and for the part it becomes. -/
def Bracket.Spans (Q : Span → Prop) : Bracket → Prop
  | whole => True
  | group _ span _ => Q span
  | call name span close _ => Q name.span ∧ Q span ∧ Q close.span

structure Level.Spans (Q : Span → Prop) (l : Level) : Prop where
  bracket : l.bracket.Spans Q
  operands : ∀ e ∈ l.operands, e.tree.Spans Q

/-- Open brackets hold only spans put together from the lexemes read and their closing ones. -/
theorem Reads.spans (hQ : Span.Covering Q) {levels : List Level} {done ahead : List Lexeme}
    (h : Reads r levels done ahead) (hls : ∀ t ∈ done ++ ahead, Q t.span) :
    ∀ l ∈ levels, l.Spans Q := by
  induction h with
  | whole stack =>
    have hdone := (List.forall_mem_append.1 hls).1
    exact List.forall_mem_singleton.2 ⟨trivial, stack.spans hQ hdone⟩
  | group _ _ _ stack _ _ ih =>
    simp only [List.forall_mem_append, List.forall_mem_cons] at hls ih
    obtain ⟨⟨hdone, hopening, hstack⟩, -, hclose, hrest⟩ := hls
    have hbelow := List.forall_mem_cons.2 (ih ⟨hdone, hrest⟩)
    refine List.forall_mem_cons.2 ⟨⟨?_, stack.spans hQ hstack⟩, hbelow⟩
    exact hQ.merge hopening hclose
  | call _ _ _ _ stack _ _ _ ih =>
    simp only [List.forall_mem_append, List.forall_mem_cons] at hls ih
    obtain ⟨⟨hdone, hname, -, -, hstack⟩, -, hclose, hrest⟩ := hls
    have hbelow := List.forall_mem_cons.2 (ih ⟨hdone, hrest⟩)
    refine List.forall_mem_cons.2 ⟨⟨?_, stack.spans hQ hstack⟩, hbelow⟩
    exact ⟨hname, hQ.merge hname hclose, hclose⟩

/-! ## the operand stack -/

/-- An error whose spans have a property. -/
structure ParseError.Spans (Q : Span → Prop) (e : ParseError) : Prop where
  span : Q e.span
  related : ∀ s, e.related = some s → Q s

theorem ParseError.Spans.of_span {cause : ParseCause} {token : Option Nat} {span : Span}
    (h : Q span) : ParseError.Spans Q ⟨cause, token, span, none⟩ := ⟨h, nofun⟩

theorem Pending.origin_fill {p : Pending} {t : Tree} {e : Entry} (h : p.fill? t = some e) :
    e.origin = p.origin := by
  cases p <;> cases h <;> rfl

theorem Pending.origin_tree (p : Pending) : p.tree.origin = p.origin := by
  cases p <;> rfl

theorem Entry.origin_tree (e : Entry) : e.tree.origin = e.origin := by
  cases e with
  | done t => rfl
  | pending p => exact p.origin_tree

namespace OperandStack

variable {max : Nat} {s : OperandStack}

theorem push_ends {e : Entry} (he : Q e.origin.span) :
    Ends (ParseError.Spans Q) (fun _ => True) (push max e s) := by
  unfold push
  split
  · exact ParseError.Spans.of_span he
  · trivial

theorem connect_ends {t : Tree} (hs : ∀ e ∈ s, Q e.origin.span) (ht : Q t.origin.span) :
    Ends (ParseError.Spans Q) (fun _ => True) (connect max s t) := by
  fun_induction connect max s t with
  | case1 p below t t' hf ih =>
    obtain ⟨hp, hbelow⟩ := List.forall_mem_cons.1 hs
    have horigin : t'.origin = p.origin := Pending.origin_fill hf
    exact ih hbelow (by rwa [horigin])
  | case2 p below t p' hf => trivial
  | case3 p below t hf => exact push_ends ht
  | case4 s t hs => exact push_ends ht

theorem pushAll_ends {ps : List Pending} (hps : ∀ p ∈ ps, Q p.origin.span) :
    Ends (ParseError.Spans Q) (fun _ => True) (pushAll max ps s) := by
  induction ps generalizing s with
  | nil => trivial
  | cons p ps ih =>
    obtain ⟨hp, hps⟩ := List.forall_mem_cons.1 hps
    have hpush : Ends (ParseError.Spans Q) (fun _ => True) (push max (.pending p) s) :=
      push_ends hp
    rw [pushAll]
    split
    · exact ih hps
    · rename_i e he
      exact hpush.of_error he

/-- The operators that a tree is reopened to are parts of it, and so is its last piece. -/
theorem spans_reopen (b : Binding) {t : Tree} (ht : t.Spans Q) :
    ∀ p ∈ (t.reopen b).1, Q p.origin.span := by
  fun_induction Tree.reopen b t with
  | case1 => exact List.forall_mem_nil _
  | case2 o op l x _ ih =>
    obtain ⟨ho, -, hx⟩ := Tree.spans_binary.1 ht
    exact List.forall_mem_cons.2 ⟨ho, ih hx⟩
  | case3 => exact List.forall_mem_nil _
  | case4 o c y n _ ih =>
    obtain ⟨ho, -, -, hn⟩ := Tree.spans_choice.1 ht
    exact List.forall_mem_cons.2 ⟨ho, ih hn⟩
  | case5 => exact List.forall_mem_nil _

theorem leftOperand_ends (hQ : Span.Covering Q) (b : Binding) {e : Entry} (he : e.tree.Spans Q) :
    Ends (ParseError.Spans Q) (fun p => ∀ q ∈ p.1, Q q.origin.span) (e.leftOperand b) := by
  cases e with
  | done t => exact spans_reopen b he
  | pending p =>
    cases p with
    | branch o c y =>
      obtain ⟨ho, -, hy, -⟩ := Tree.spans_choice.1 he
      exact List.forall_mem_cons.2 ⟨ho, spans_reopen b hy⟩
    | _ => exact ParseError.Spans.of_span (he.origin hQ)

theorem takeLeft_ends (hQ : Span.Covering Q) (b : Binding) {here : Lexeme} (hhere : Q here.span)
    (hs : ∀ e ∈ s, e.tree.Spans Q) :
    Ends (ParseError.Spans Q) (fun _ => True) (takeLeft max b here s) := by
  cases s with
  | nil => exact ParseError.Spans.of_span hhere
  | cons e below =>
    have hleft := leftOperand_ends hQ b (List.forall_mem_cons.1 hs).1
    rw [takeLeft]
    split
    · rename_i err he
      exact hleft.of_error he
    · rename_i reopened operand he
      have hpush : Ends (ParseError.Spans Q) (fun _ => True) (pushAll max reopened below) :=
        pushAll_ends (hleft.of_ok he)
      split
      · rename_i err he
        exact hpush.of_error he
      · trivial

theorem separate_ends (hQ : Span.Covering Q) {here : Lexeme} (hhere : Q here.span)
    (hs : ∀ e ∈ s, e.tree.Spans Q) :
    Ends (ParseError.Spans Q) (fun _ => True) (separate here s) := by
  cases s with
  | nil => exact ParseError.Spans.of_span hhere
  | cons e below =>
    cases e with
    | done t => exact ParseError.Spans.of_span hhere
    | pending p =>
      have hp : p.tree.Spans Q := (List.forall_mem_cons.1 hs).1
      cases p with
      | branch => trivial
      | _ => exact ParseError.Spans.of_span (hp.origin hQ)

theorem unfinished?_mem {p : Pending} (h : s.unfinished? = some p) : .pending p ∈ s := by
  obtain ⟨e, he, hp⟩ := List.exists_of_findSome?_eq_some h
  cases e with
  | done t => cases hp
  | pending q =>
    cases hp
    exact List.mem_reverse.1 he

theorem single_ends (hQ : Span.Covering Q) {ifEmpty : ParseError} (hempty : ifEmpty.Spans Q)
    (hs : ∀ e ∈ s, e.tree.Spans Q) :
    Ends (ParseError.Spans Q) (fun _ => True) (single s ifEmpty) := by
  unfold single
  split
  · rename_i p hp
    have hspans : p.tree.Spans Q := hs _ (unfinished?_mem hp)
    refine ParseError.Spans.of_span ?_
    rw [← p.origin_tree]
    exact hspans.origin hQ
  split
  · exact hempty
  · trivial
  · rename_i first second rest hreverse
    have hfirst : first.tree.Spans Q := hs _ (List.mem_reverse.1 (by simp [hreverse]))
    have hsecond : second.tree.Spans Q := hs _ (List.mem_reverse.1 (by simp [hreverse]))
    refine ⟨?_, ?_⟩
    · show Q second.origin.span
      rw [← second.origin_tree]
      exact hsecond.origin hQ
    · rintro s ⟨⟩
      exact hfirst.extent hQ

end OperandStack

/-! ## one token -/

/-- A state within its limits. -/
structure ParseState.Within (limits : Limits) (st : ParseState) : Prop where
  parts : st.next ≤ limits.maxParts
  nesting : st.outer.length ≤ limits.maxNesting

theorem ParseState.Within.setOperands {limits : Limits} {st : ParseState} (h : st.Within limits)
    (s : OperandStack) : (st.setOperands s).Within limits := ⟨h.parts, h.nesting⟩

/-- A computation that stays within the limits, or blames a span with a property. -/
abbrev Bounded (Q : Span → Prop) (limits : Limits) : Except ParseError ParseState → Prop :=
  Ends (ParseError.Spans Q) (ParseState.Within limits)

namespace ParseState

variable {limits : Limits} {st : ParseState}

theorem alloc_ends (hst : st.Within limits) {token : Nat} {span : Span} (hspan : Q span) :
    Ends (ParseError.Spans Q) (fun p => p.2.Within limits) (st.alloc limits token span) := by
  unfold alloc
  split
  · exact ParseError.Spans.of_span hspan
  · rename_i hroom
    exact ⟨Nat.lt_of_not_le hroom, hst.nesting⟩

theorem place_ends (hst : st.Within limits) (hs : ∀ e ∈ st.level.operands, Q e.origin.span)
    {token : Nat} {span : Span} (hspan : Q span) {make : Origin → Tree}
    (hmake : ∀ o, (make o).origin = o) : Bounded Q limits (st.place limits token span make) := by
  refine (alloc_ends hst hspan).bind fun p hp hwithin => ?_
  obtain ⟨ho, hst'⟩ := alloc_ok hp
  have hmade : Q (make p.1).origin.span := by
    rw [hmake, ho]
    exact hspan
  have hoperands : ∀ e ∈ p.2.level.operands, Q e.origin.span := by
    rw [hst']
    exact hs
  exact (OperandStack.connect_ends hoperands hmade).bind fun s _ _ => hwithin.setOperands s

theorem await_ends (hst : st.Within limits) {token : Nat} {span : Span} (hspan : Q span)
    {make : Origin → Pending} (hmake : ∀ o, (make o).origin = o) :
    Bounded Q limits (st.await limits token span make) := by
  refine (alloc_ends hst hspan).bind fun p hp hwithin => ?_
  have hmade : Q (make p.1).origin.span := by
    rw [hmake, (alloc_ok hp).1]
    exact hspan
  exact (OperandStack.push_ends (e := .pending (make p.1)) hmade).bind fun s _ _ =>
    hwithin.setOperands s

variable {t : Lexeme}

theorem infixOperator_ends (hQ : Span.Covering Q) (hst : st.Within limits)
    (hs : ∀ e ∈ st.level.operands, e.tree.Spans Q) (ht : Q t.span) (b : Binding)
    {make : Tree → Origin → Pending} (hmake : ∀ l o, (make l o).origin = o) :
    Bounded Q limits (st.infixOperator limits t b make) :=
  (OperandStack.takeLeft_ends hQ b ht hs).bind fun p _ _ =>
    await_ends (hst.setOperands p.2) ht (hmake p.1)

theorem operator_ends (hQ : Span.Covering Q) (hst : st.Within limits)
    (hs : ∀ e ∈ st.level.operands, e.tree.Spans Q) (ht : Q t.span) :
    Bounded Q limits (st.operator limits t) := by
  unfold operator
  split
  · exact (OperandStack.separate_ends hQ ht hs).map fun s _ => hst.setOperands s
  split
  · exact ParseError.Spans.of_span ht
  · exact await_ends hst ht fun _ => rfl
  · exact infixOperator_ends hQ hst hs ht _ fun _ _ => rfl
  · exact infixOperator_ends hQ hst hs ht _ fun _ _ => rfl

theorem descend_ends (hst : st.Within limits) (ht : Q t.span) (bracket : Bracket) (skip : Nat) :
    Bounded Q limits (st.descend limits t bracket skip) := by
  unfold descend
  split
  · exact ParseError.Spans.of_span ht
  · rename_i hroom
    exact ⟨hst.parts, Nat.lt_of_not_le hroom⟩

theorem openCall_ends (hst : st.Within limits) {opening : Lexeme} (ho : Q opening.span)
    (ahead : List Lexeme) : Bounded Q limits (st.openCall limits t opening ahead) := by
  unfold openCall
  split
  · exact ParseError.Spans.of_span ho
  · exact descend_ends hst ho _ _

theorem openParenthesis_ends (hQ : Span.Covering Q) (hst : st.Within limits) (ht : Q t.span)
    {ahead : List Lexeme} (hahead : ∀ u ∈ ahead, Q u.span) :
    Bounded Q limits (st.openParenthesis limits t ahead) := by
  unfold openParenthesis
  split
  · exact ParseError.Spans.of_span ht
  rename_i close hclose
  dsimp only
  split
  · have hspan : Q (t.span.merge close.span) := by
      obtain ⟨xs, ys, e, -⟩ := closing?_eq_some hclose
      have hmem : close ∈ t :: ahead := e ▸ by simp
      rcases List.mem_cons.1 hmem with rfl | hmem
      · exact hQ.merge ht ht
      · exact hQ.merge ht (hahead close hmem)
    exact (await_ends hst hspan fun _ => rfl).map fun _ h => ⟨h.parts, h.nesting⟩
  · exact descend_ends hst ht _ _

theorem reference_ends (hst : st.Within limits) (hs : ∀ e ∈ st.level.operands, Q e.origin.span)
    (ht : Q t.span) : Bounded Q limits (st.reference r limits t) := by
  unfold reference
  split
  · exact place_ends hst hs ht fun _ => rfl
  · exact ParseError.Spans.of_span ht

theorem identifier_ends (hst : st.Within limits) (hs : ∀ e ∈ st.level.operands, Q e.origin.span)
    (ht : Q t.span) {ahead : List Lexeme} (hahead : ∀ u ∈ ahead, Q u.span) :
    Bounded Q limits (st.identifier r limits t ahead) := by
  unfold identifier
  split
  · exact place_ends hst hs ht fun _ => rfl
  split
  · split
    · exact openCall_ends hst (List.forall_mem_cons.1 hahead).1 _
    · exact reference_ends hst hs ht
  · exact reference_ends hst hs ht

theorem resolveCall_ends {name : Lexeme} (hname : Q name.span) (count : Nat) :
    Ends (ParseError.Spans Q) (fun _ => True) (resolveCall r name count) := by
  unfold resolveCall
  split
  · exact ParseError.Spans.of_span hname
  split
  · trivial
  all_goals exact ParseError.Spans.of_span hname

theorem fillDefaults_ends {close : Lexeme} (hclose : Q close.span) {vs : List Value}
    {st : ParseState} (hst : st.Within limits) :
    Ends (ParseError.Spans Q) (fun p => p.2.Within limits) (fillDefaults limits close vs st) := by
  induction vs generalizing st with
  | nil => exact hst
  | cons v vs ih =>
    refine (alloc_ends hst hclose).bind fun p _ hp => ?_
    exact (ih hp).bind fun _ _ h => h

theorem closeArguments_ends (hQ : Span.Covering Q) {close : Lexeme} (hclose : Q close.span)
    (bare : Bool) {l : Level} (hl : ∀ e ∈ l.operands, e.tree.Spans Q) :
    Ends (ParseError.Spans Q) (fun _ => True) (closeArguments close bare l) := by
  unfold closeArguments
  split
  · trivial
  · exact (OperandStack.single_ends hQ (.of_span hclose) hl).map fun _ _ => trivial

theorem origins_of_spans (hQ : Span.Covering Q) {s : OperandStack} (h : ∀ e ∈ s, e.tree.Spans Q) :
    ∀ e ∈ s, Q e.origin.span := by
  intro e he
  rw [← e.origin_tree]
  exact (h e he).origin hQ

/-- A bracket that closes leaves its level, and its part goes to the level around it. -/
theorem ascend_ends (hQ : Span.Covering Q) (hst : st.Within limits)
    (hlevels : ∀ l ∈ st.level :: st.outer, l.Spans Q) : Bounded Q limits (st.ascend r limits) := by
  obtain ⟨⟨bracket, operands, args⟩, outer, next, skip⟩ := st
  obtain ⟨⟨hbracket, hoperands⟩, houter⟩ := List.forall_mem_cons.1 hlevels
  cases outer with
  | nil => exact hst
  | cons around outer =>
    have haround := (List.forall_mem_cons.1 houter).1.operands
    have hwithin : Within limits ⟨around, outer, next, skip⟩ :=
      ⟨hst.parts, Nat.le_of_succ_le hst.nesting⟩
    cases bracket with
    | whole => exact hwithin
    | group opening span close =>
      refine (OperandStack.single_ends hQ (.of_span hbracket) hoperands).bind fun inner _ _ => ?_
      exact place_ends hwithin (origins_of_spans hQ haround) hbracket fun _ => rfl
    | call name span close bare =>
      obtain ⟨hname, hspan, hclose⟩ := hbracket
      refine (closeArguments_ends hQ hclose bare hoperands).bind fun written _ _ => ?_
      refine (resolveCall_ends hname written.length).bind fun f _ _ => ?_
      refine (fillDefaults_ends hclose hwithin).bind fun p hp hst' => ?_
      refine place_ends hst' ?_ hspan fun _ => rfl
      obtain ⟨-, hst''⟩ := fillDefaults_ok hp
      rw [hst'']
      exact origins_of_spans hQ haround

theorem comma_ends (hQ : Span.Covering Q) (hst : st.Within limits)
    (hs : ∀ e ∈ st.level.operands, e.tree.Spans Q) (ht : Q t.span) :
    Bounded Q limits (st.comma t) := by
  unfold comma
  split
  · exact (OperandStack.single_ends hQ (.of_span ht) hs).map fun _ _ => ⟨hst.parts, hst.nesting⟩
  · exact ParseError.Spans.of_span ht

theorem mem_within {ahead : List Lexeme} {u : Lexeme} (h : u ∈ st.within ahead) : u ∈ ahead := by
  unfold within at h
  split at h
  · exact h
  · exact (List.takeWhile_prefix _).subset h

theorem token_ends (hQ : Span.Covering Q) (hst : st.Within limits)
    (hs : ∀ e ∈ st.level.operands, e.tree.Spans Q) (ht : Q t.span) {ahead : List Lexeme}
    (hahead : ∀ u ∈ ahead, Q u.span) : Bounded Q limits (st.token r limits t ahead) := by
  have horigins := origins_of_spans hQ hs
  have hwithin : ∀ u ∈ st.within ahead, Q u.span := fun u hu => hahead u (mem_within hu)
  unfold token
  split
  · split
    · exact place_ends hst horigins ht fun _ => rfl
    · exact ParseError.Spans.of_span ht
  · exact place_ends hst horigins ht fun _ => rfl
  · exact identifier_ends hst horigins ht hwithin
  · split
    · exact openParenthesis_ends hQ hst ht hwithin
    · exact ParseError.Spans.of_span ht
  · exact operator_ends hQ hst hs ht
  · exact comma_ends hQ hst hs ht

/-- A step stays within the limits, or blames a span put together from those of the lexemes. -/
theorem step_ends (hQ : Span.Covering Q) (hst : st.Within limits)
    (hlevels : ∀ l ∈ st.level :: st.outer, l.Spans Q) (ht : Q t.span) {ahead : List Lexeme}
    (hahead : ∀ u ∈ ahead, Q u.span) : Bounded Q limits (st.step r limits t ahead) := by
  unfold step
  split
  · exact ⟨hst.parts, hst.nesting⟩
  split
  · exact ascend_ends hQ hst hlevels
  · exact token_ends hQ hst (List.forall_mem_cons.1 hlevels).1.operands ht hahead

/-! ## runs -/

/-- What every step keeps or blames, in a state that has read what comes before it, a run does. -/
theorem run_ends {E : ParseError → Prop} {I : ParseState → Prop} (all : List Lexeme)
    (hstep : ∀ t ts st done i,
      Reads r (st.level :: st.outer) (done ++ (t :: ts).take st.skip) ((t :: ts).drop st.skip) →
      Numbered i (t :: ts) → done ++ t :: ts = all → I st → Ends E I (st.step r limits t ts))
    {ls : List Lexeme} {st : ParseState} {done : List Lexeme} {i : Nat}
    (hr : Reads r (st.level :: st.outer) (done ++ ls.take st.skip) (ls.drop st.skip))
    (hn : Numbered i ls) (hall : done ++ ls = all) (hst : I st) :
    Ends E I (run r limits ls st) := by
  induction ls generalizing st done i with
  | nil => exact hst
  | cons t ts ih =>
    have hends := hstep t ts st done i hr hn hall hst
    rw [run]
    split
    · rename_i st' h
      have hall' : (done ++ [t]) ++ ts = all := by
        rw [← hall]
        simp
      exact ih (reads_step hr hn h).1 hn.2 hall' (hends.of_ok h)
    · rename_i e h
      exact hends.of_error h

end ParseState

/-- A parse makes no more parts than its limits allow. An error of a parse blames a span put
together from those of its lexemes, or the end of the source. -/
theorem parse_ends (hQ : Span.Covering Q) {limits : Limits} {s : TokenStream}
    (hs : ∀ t ∈ s.lexemes, Q t.span) (hend : Q (.point s.endOffset)) :
    Ends (ParseError.Spans Q) (fun e => e.partCount ≤ limits.maxParts) (parse s r limits) := by
  have hstart : Reads r [{ bracket := .whole }] ([] ++ s.lexemes.take 0) (s.lexemes.drop 0) :=
    .whole .nil
  have hrun : Bounded Q limits (ParseState.run r limits s.lexemes {}) := by
    refine ParseState.run_ends s.lexemes ?_ hstart (numbered_lexemes s) rfl
      ⟨Nat.zero_le _, Nat.zero_le _⟩
    intro t ts st done i hr _ hall hst
    rw [← hall] at hs
    obtain ⟨-, ht⟩ := List.forall_mem_append.1 hs
    obtain ⟨ht, hts⟩ := List.forall_mem_cons.1 ht
    refine ParseState.step_ends hQ hst (hr.spans hQ ?_) ht hts
    rwa [List.append_assoc, List.take_append_drop]
  refine hrun.bind fun st hst hwithin => ?_
  obtain ⟨-, hr⟩ := ParseState.run_invariant (P := fun _ _ => True) (fun _ _ => trivial) hstart
    (numbered_lexemes s) trivial hst
  have hlevels := hr.spans hQ (by rwa [List.append_nil])
  have hoperands := (List.forall_mem_cons.1 hlevels).1.operands
  exact (OperandStack.single_ends hQ (.of_span hend) hoperands).bind fun _ _ _ => hwithin.parts

end ExprEngine
