import ExprEngine.Proofs.Parse.Brackets
import ExprEngine.Proofs.Parse.ReadBack
import ExprEngine.Proofs.Parse.Room
import ExprEngine.Proofs.Tree

/-!
# Every grouped tree is parsed

Whatever operators wait below, running over a phrase hands its tree to them, as long as they would
not take part of it. The parser has one case for each kind of part, and so has the induction.

* `Front`             lexemes that a run is about to read as one phrase;
* `Parses`            a run over these lexemes hands over this tree;
* `parses_of_phrase`  by induction on the phrase;
* `parse_complete`    the expression of a tokenized source.
-/

namespace ExprEngine

/-! ## trees without ids -/

theorem length_unnumberedAll (ts : List Tree) : (unnumberedAll ts).length = ts.length := by
  induction ts with
  | nil => rfl
  | cons t ts ih => rw [unnumberedAll, List.length_cons, ih, List.length_cons]

theorem unnumberedAll_append (ts us : List Tree) :
    unnumberedAll (ts ++ us) = unnumberedAll ts ++ unnumberedAll us := by
  induction ts with
  | nil => rfl
  | cons t ts ih => rw [List.cons_append, unnumberedAll, unnumberedAll, ih, List.cons_append]

theorem Tree.precedence?_unnumbered (t : Tree) : t.unnumbered.precedence? = t.precedence? := by
  cases t <;> rfl

theorem Tree.precedence?_congr {t t' : Tree} (h : t'.unnumbered = t.unnumbered) :
    t'.precedence? = t.precedence? := by
  rw [← t'.precedence?_unnumbered, h, t.precedence?_unnumbered]

theorem Tree.BindsFrom.congr {t t' : Tree} {p : Nat} (h : t'.unnumbered = t.unnumbered)
    (ht : t.BindsFrom p) : t'.BindsFrom p := by
  intro q hq
  rw [Tree.precedence?_congr h] at hq
  exact ht q hq

/-- Constants filled in for the same defaults differ in their ids only. -/
theorem Fills.unnumbered {close : Lexeme} {vs : List Value} {ts us : List Tree}
    (ht : Fills close vs ts) (hu : Fills close vs us) : unnumberedAll ts = unnumberedAll us := by
  induction ht generalizing us with
  | nil =>
    cases hu
    rfl
  | cons hv _ ih =>
    obtain _ | ⟨hv', hus⟩ := hu
    obtain ⟨id, rfl⟩ := hv
    obtain ⟨id', rfl⟩ := hv'
    rw [unnumberedAll, unnumberedAll, ih hus]
    rfl

theorem Fills.length_nodes {close : Lexeme} {vs : List Value} {ts : List Tree}
    (h : Fills close vs ts) : (Tree.nodesOfAll ts).length = vs.length := by
  induction h with
  | nil => rfl
  | cons hv _ ih =>
    obtain ⟨id, rfl⟩ := hv
    rw [Tree.nodesOfAll, List.length_append, ih, Tree.nodes, List.length_singleton,
      List.length_cons, Nat.add_comm]

/-! ## lexemes about to be read -/

/-- Lexemes that a run is about to read as one phrase: they lie inside the innermost bracket, and no
opening parenthesis comes after them. -/
structure Front (b : Bracket) (ls rest : List Lexeme) : Prop where
  numbered : ∃ i, Numbered i (ls ++ rest)
  inside : ∀ u ∈ ls, ∀ i, b.close? = some i → u.index < i
  proper : ∀ u ∈ ls, u.Proper
  follows : ∀ u ∈ rest.head?, u.isOpening = false

variable {b : Bracket} {u : Lexeme} {as bs rest : List Lexeme}

/-- The lexemes behind some others. -/
theorem Front.behind (h : Front b (as ++ bs) rest) : Front b bs rest := by
  obtain ⟨i, hi⟩ := h.numbered
  rw [List.append_assoc] at hi
  exact ⟨⟨_, (Numbered.append.1 hi).2⟩, fun v hv => h.inside v (List.mem_append_right _ hv),
    fun v hv => h.proper v (List.mem_append_right _ hv), h.follows⟩

/-- The lexemes before one that opens nothing. -/
theorem Front.before (h : Front b (as ++ u :: bs) rest) (hu : u.isOpening = false) :
    Front b as (u :: (bs ++ rest)) := by
  obtain ⟨i, hi⟩ := h.numbered
  rw [List.append_assoc] at hi
  exact ⟨⟨i, hi⟩, fun v hv => h.inside v (List.mem_append_left _ hv),
    fun v hv => h.proper v (List.mem_append_left _ hv),
    fun v hv => Option.some.inj hv ▸ hu⟩

theorem Front.tail (h : Front b (u :: bs) rest) : Front b bs rest :=
  have h' : Front b ([u] ++ bs) rest := h
  h'.behind

/-- The lexemes between two brackets. -/
theorem Front.between {opening close : Lexeme} {ls : List Lexeme} {b' : Bracket}
    (h : Front b (as ++ opening :: (ls ++ [close])) rest) (hc : close.Closes)
    (hb' : b'.close? = some close.index) : Front b' ls (close :: rest) := by
  obtain ⟨i, hi⟩ := h.behind.tail.numbered
  rw [List.append_assoc] at hi
  refine ⟨⟨i, hi⟩, fun v hv j hj => ?_, fun v hv => h.proper v (by simp [hv]),
    fun v hv => Option.some.inj hv ▸ hc.2⟩
  rw [hb'] at hj
  cases hj
  have := ((Numbered.append.1 hi).1.le hv).2
  have := (Numbered.append.1 hi).2.1
  omega

theorem Operator.symbol_ne (op : Operator) : op.symbol ≠ "(" ∧ op.symbol ≠ branchSymbol ∧
    Operator.ofSymbol? op.symbol = some op := by
  have h : ∀ op ∈ Operator.all, op.symbol ≠ "(" ∧ op.symbol ≠ branchSymbol ∧
      Operator.ofSymbol? op.symbol = some op := by decide
  exact h op op.mem_all

theorem Lexeme.isOpening_of_ne {l : Lexeme} (h : l.text ≠ "(") : l.isOpening = false := by
  rw [Lexeme.isOpening, beq_eq_false_iff_ne.2 h, Bool.and_false]

theorem Lexeme.Signs.isOpening {op : Operator} (h : u.Signs op.symbol) : u.isOpening = false :=
  Lexeme.isOpening_of_ne (h.2.symm ▸ op.symbol_ne.1)

namespace ParseState

/-! ## one case for each kind of part -/

/-- Whatever waits below, a run over the lexemes hands over the tree. -/
def Parses (r : Registry) (limits : Limits) (t : Tree) (ls : List Lexeme) : Prop :=
  ∀ (l : Level) (outer : List Level) (next : Nat) (rest : List Lexeme), Front l.bracket ls rest →
    Room limits t.nodes.length l.operands.length outer.length next →
    (∀ b, t.binding? = some b → l.operands.Admits b) →
    ∃ t' : Tree, t'.unnumbered = t.unnumbered ∧
      run r limits (ls ++ rest) ⟨l, outer, next, 0⟩ =
        run r limits rest
          ⟨{ l with operands := l.operands.attach t' }, outer, next + t.nodes.length, 0⟩

/-- A run over the written arguments of a call leaves them in its level, ready for the closing
parenthesis. -/
def ParsesArgs (r : Registry) (limits : Limits) (ts : List Tree) (ls : List Lexeme) : Prop :=
  ∀ (name : Lexeme) (span : Span) (close : Lexeme) (args : List Tree) (outer : List Level)
    (next : Nat) (rest : List Lexeme), Front (.call name span close ts.isEmpty) ls rest →
    Room limits (Tree.nodesOfAll ts).length 0 outer.length next → (ts = [] → args = []) →
    ∃ (s : OperandStack) (args' written : List Tree), unnumberedAll written = unnumberedAll ts ∧
      closeArguments close ts.isEmpty ⟨.call name span close ts.isEmpty, s, args'⟩ =
        .ok (args ++ written) ∧
      run r limits (ls ++ rest) ⟨⟨.call name span close ts.isEmpty, [], args⟩, outer, next, 0⟩ =
        run r limits rest ⟨⟨.call name span close ts.isEmpty, s, args'⟩, outer,
          next + (Tree.nodesOfAll ts).length, 0⟩

variable {r : Registry} {limits : Limits}

/-- A token that makes a part of its own. -/
theorem Parses.leaf (make : Origin → Tree) {id : PartId}
    (hnodes : (make ⟨id, u.index, u.span⟩).nodes.length = 1)
    (hmake : ∀ n, (make ⟨n, u.index, u.span⟩).unnumbered =
      (make ⟨id, u.index, u.span⟩).unnumbered)
    (ht : ∀ (ahead : List Lexeme) (st : ParseState), (∀ v ∈ ahead.head?, v.isOpening = false) →
      token r limits u ahead st = st.place limits u.index u.span make) :
    Parses r limits (make ⟨id, u.index, u.span⟩) [u] := by
  intro l outer next rest hf hroom _
  rw [hnodes] at hroom ⊢
  have hstep : step r limits u rest ⟨l, outer, next, 0⟩ =
      token r limits u rest ⟨l, outer, next, 0⟩ :=
    step_token (hf.inside u (List.mem_singleton_self u))
  rw [ht _ _ hf.follows, place_of_room (Nat.lt_of_succ_le hroom.parts)
    (Nat.lt_of_succ_le hroom.operands)] at hstep
  exact ⟨make ⟨next, u.index, u.span⟩, hmake next, run_cons hstep⟩

theorem Parses.number {v : Value} {id : PartId} (kind : u.kind = .number)
    (value : Literal.number? u.text.toList = some v) :
    Parses r limits (.constant ⟨id, u.index, u.span⟩ v) [u] := by
  refine Parses.leaf (.constant · v) rfl (fun _ => rfl) fun ahead st _ => ?_
  unfold token
  rw [kind]
  dsimp only
  rw [value]

theorem Parses.string {id : PartId} (kind : u.kind = .string) :
    Parses r limits (.constant ⟨id, u.index, u.span⟩
      (.string (String.ofList (Literal.unescape u.text.toList)))) [u] := by
  refine Parses.leaf (.constant · _) rfl (fun _ => rfl) fun ahead st _ => ?_
  unfold token
  rw [kind]

theorem Parses.boolean {v : Bool} {id : PartId} (kind : u.kind = .identifier)
    (value : booleanNamed? u.text = some v) :
    Parses r limits (.constant ⟨id, u.index, u.span⟩ (.bool v)) [u] := by
  refine Parses.leaf (.constant · (.bool v)) rfl (fun _ => rfl) fun ahead st _ => ?_
  unfold token
  rw [kind]
  show identifier r limits u (st.within ahead) st = _
  unfold identifier
  rw [value]

/-- A name that no opening parenthesis follows stands for its variable. -/
theorem Parses.reference (hr : r.Declared) {x : VarId} {id : PartId} (kind : u.kind = .identifier)
    (found : r.variableNamed? u.text = some x) :
    Parses r limits (.reference ⟨id, u.index, u.span⟩ x) [u] := by
  refine Parses.leaf (.reference · x) rfl (fun _ => rfl) fun ahead st hfollows => ?_
  have hplace : ParseState.reference r limits u st =
      st.place limits u.index u.span (.reference · x) := by
    unfold ParseState.reference
    rw [found]
  unfold token
  rw [kind]
  show identifier r limits u (st.within ahead) st = _
  unfold identifier
  rw [(unreserved (hr.variable_unreserved found)).1]
  dsimp only
  split
  · rename_i opening _ hw
    have ho := hfollows opening (mem_head?_within (by rw [hw]; rfl))
    rw [ho]
    exact hplace
  · exact hplace

/-- An operator token, by its symbol. -/
theorem token_of_signs {op : Operator} (h : u.Signs op.symbol) (ahead : List Lexeme)
    (st : ParseState) :
    token r limits u ahead st = match op with
      | .unary op => st.unary limits u op
      | .binary op =>
        st.infixOperator limits u ⟨op.precedence, op.isAssignment⟩ fun l o => .binary o op l
      | .choice =>
        st.infixOperator limits u ⟨choicePrecedence, false⟩ fun c o => .condition o c := by
  obtain ⟨-, hb, hs⟩ := op.symbol_ne
  unfold token
  rw [h.1]
  show operator limits u st = _
  unfold operator
  rw [h.2, beq_eq_false_iff_ne.2 hb, hs]
  cases op <;> rfl

variable {id : PartId}

theorem Parses.unary {op : UnaryOp} {x : Tree} {xs : List Lexeme}
    (sign : u.Signs (Operator.unary op).symbol)
    (hg : (Tree.unary ⟨id, u.index, u.span⟩ op x).Grouped) (hx : Parses r limits x xs) :
    Parses r limits (.unary ⟨id, u.index, u.span⟩ op x) (u :: xs) := by
  intro l outer next rest hf hroom _
  obtain ⟨hparts, hoperands, hnesting⟩ := hroom
  rw [Tree.nodes, List.length_cons] at hparts hoperands hnesting ⊢
  have hstep : step r limits u (xs ++ rest) ⟨l, outer, next, 0⟩ =
      .ok ⟨{ l with operands := .pending (.unary ⟨next, u.index, u.span⟩ op) :: l.operands }, outer,
        next + 1, 0⟩ := by
    rw [step_token (hf.inside u (List.mem_cons_self ..)), token_of_signs sign]
    exact await_of_room (by omega) (by omega)
  obtain ⟨x', hx', hrun⟩ := hx
    { l with operands := .pending (.unary ⟨next, u.index, u.span⟩ op) :: l.operands } outer
    (next + 1) rest hf.tail ⟨by omega, by simp only [List.length_cons]; omega, by omega⟩
    (by rw [Tree.binding?_eq_none hg]; intro b hb; cases hb)
  refine ⟨.unary ⟨next, u.index, u.span⟩ op x', by rw [Tree.unnumbered, hx']; rfl, ?_⟩
  rw [List.cons_append, run_cons hstep, hrun, Nat.add_assoc, Nat.add_comm 1]
  rfl

/-- What an opening parenthesis does when balanced lexemes stand before the closing one. -/
theorem token_of_brackets {close : Lexeme} {ls : List Lexeme} {l : Level} {outer : List Level}
    {next : Nat} (hk : u.kind = .parenthesis) (ho : u.isOpening = true) (hc : close.Closes)
    (hb : Balanced ls) (hin : ∀ v ∈ ls ++ [close], l.Holds v) :
    token r limits u (ls ++ close :: rest) ⟨l, outer, next, 0⟩ =
      match castTarget? u close (ls ++ close :: within ⟨l, outer, next, 0⟩ rest) with
      | some target => (await limits u.index (u.span.merge close.span) (.cast · target)
          ⟨l, outer, next, 0⟩).map fun st => { st with skip := 2 }
      | none => descend limits u (.group u.index (u.span.merge close.span) close.index) 0
          ⟨l, outer, next, 0⟩ := by
  have hw : within ⟨l, outer, next, 0⟩ (ls ++ close :: rest) =
      ls ++ close :: within ⟨l, outer, next, 0⟩ rest := by
    rw [List.append_cons, within_append hin, List.append_assoc, List.singleton_append]
  unfold token
  rw [hk]
  show (if u.isOpening then _ else _) = _
  rw [if_pos ho, hw]
  unfold openParenthesis
  rewrite [closing?_brackets hk ho hc hb]
  rfl

theorem Parses.cast {name close : Lexeme} {target : ValueType} {x : Tree} {xs : List Lexeme}
    (hk : u.kind = .parenthesis) (ho : u.isOpening = true) (kind : name.kind = .identifier)
    (type : ValueType.ofName? name.text = some target) (hc : close.Closes)
    (hg : (Tree.cast ⟨id, u.index, u.span.merge close.span⟩ target x).Grouped)
    (hx : Parses r limits x xs) :
    Parses r limits (.cast ⟨id, u.index, u.span.merge close.span⟩ target x)
      (u :: name :: close :: xs) := by
  intro l outer next rest hf hroom _
  obtain ⟨hparts, hoperands, hnesting⟩ := hroom
  rw [Tree.nodes, List.length_cons] at hparts hoperands hnesting ⊢
  obtain ⟨i, hu, -, hi, -⟩ := hf.numbered
  have hcast : ∀ ys, castTarget? u close ([name] ++ close :: ys) = some target := fun ys =>
    (if_pos ⟨by omega, kind⟩).trans type
  have hbalanced : Balanced [name] := .cons (by rw [kind]; decide) .nil
  have hstep : step r limits u (name :: close :: (xs ++ rest)) ⟨l, outer, next, 0⟩ =
      .ok ⟨{ l with
        operands := .pending (.cast ⟨next, u.index, u.span.merge close.span⟩ target) ::
          l.operands }, outer, next + 1, 2⟩ := by
    have hin : ∀ v ∈ [name] ++ [close], l.Holds v := fun v hv =>
      hf.inside v (List.mem_cons_of_mem _ (List.mem_append_left xs hv))
    rw [step_token (hf.inside u (List.mem_cons_self ..))]
    show token r limits u ([name] ++ close :: (xs ++ rest)) _ = _
    rw [token_of_brackets hk ho hc hbalanced hin, hcast]
    dsimp only
    rw [await_of_room (by omega) (by omega)]
    rfl
  obtain ⟨x', hx', hrun⟩ := hx
    { l with
      operands := .pending (.cast ⟨next, u.index, u.span.merge close.span⟩ target) ::
        l.operands } outer (next + 1) rest hf.tail.tail.tail
    ⟨by omega, by rw [List.length_cons]; omega, by omega⟩
    (by rw [Tree.binding?_eq_none hg]; intro b hb; cases hb)
  refine ⟨.cast ⟨next, u.index, u.span.merge close.span⟩ target x', by
    rw [Tree.unnumbered, hx']; rfl, ?_⟩
  rw [List.cons_append, List.cons_append, List.cons_append, run_cons hstep, run_skip, run_skip,
    hrun, Nat.add_assoc, Nat.add_comm 1]
  rfl

theorem Parses.group (hr : r.Declared) {close : Lexeme} {x : Tree} {xs : List Lexeme}
    (hk : u.kind = .parenthesis) (ho : u.isOpening = true) (hc : close.Closes)
    (inner : Phrase r x xs) (hx : Parses r limits x xs) :
    Parses r limits (.group ⟨id, u.index, u.span.merge close.span⟩ x) (u :: (xs ++ [close])) := by
  intro l outer next rest hf hroom _
  obtain ⟨hparts, hoperands, hnesting⟩ := hroom
  rw [Tree.nodes, List.length_cons] at hparts hoperands hnesting ⊢
  obtain ⟨i, hi⟩ := hf.numbered
  rw [List.cons_append, List.append_assoc, List.singleton_append] at hi ⊢
  have hstep : step r limits u (xs ++ close :: rest) ⟨l, outer, next, 0⟩ =
      .ok ⟨{ bracket := .group u.index (u.span.merge close.span) close.index }, l :: outer, next,
        0⟩ := by
    have hb := inner.balanced fun v hv => hf.proper v (by simp [hv])
    rw [step_token (hf.inside u (List.mem_cons_self ..)),
      token_of_brackets hk ho hc hb fun v hv => hf.inside v (List.mem_cons_of_mem _ hv),
      castTarget?_group hr inner hi]
    exact descend_of_room (by omega)
  have hfront : Front (.group u.index (u.span.merge close.span) close.index) xs (close :: rest) :=
    Front.between (show Front l.bracket ([] ++ _) rest from hf) hc rfl
  obtain ⟨x', hx', hrun⟩ := hx
    { bracket := .group u.index (u.span.merge close.span) close.index } (l :: outer) next
    (close :: rest) hfront
    ⟨by omega, by simp only [List.length_nil]; omega, by simp only [List.length_cons]; omega⟩
    fun _ _ => trivial
  have hclose : step r limits close rest
      ⟨⟨.group u.index (u.span.merge close.span) close.index, [.done x'], []⟩, l :: outer,
        next + x.nodes.length, 0⟩ =
      .ok ⟨{ l with
        operands := l.operands.attach
          (.group ⟨next + x.nodes.length, u.index, u.span.merge close.span⟩ x') }, outer,
        next + x.nodes.length + 1, 0⟩ := by
    rw [step_ascend rfl]
    show place limits u.index (u.span.merge close.span) (.group · x')
      ⟨l, outer, next + x.nodes.length, 0⟩ = _
    exact place_of_room (by omega) (by omega)
  refine ⟨.group ⟨next + x.nodes.length, u.index, u.span.merge close.span⟩ x', by
    rw [Tree.unnumbered, hx']; rfl, ?_⟩
  rw [run_cons hstep, hrun]
  exact run_cons hclose

/-- An infix operator is left to wait for its last operand. -/
theorem Parses.left {b : Binding} (hb : b.Fair) {make : Tree → Origin → Pending} {x : Tree}
    {xs ys : List Lexeme} (hx : Parses r limits x xs)
    (hu : ∀ ahead st, token r limits u ahead st = st.infixOperator limits u b make)
    (ho : u.isOpening = false)
    (hg : x.BindsFrom (if b.rightAssociative then b.precedence + 1 else b.precedence))
    (l : Level) (outer : List Level) (next : Nat) (hf : Front l.bracket (xs ++ u :: ys) rest)
    (hroom : Room limits (x.nodes.length + 1) l.operands.length outer.length next)
    (hadmits : l.operands.Admits b) :
    ∃ x' : Tree, x'.unnumbered = x.unnumbered ∧
      run r limits (xs ++ u :: (ys ++ rest)) ⟨l, outer, next, 0⟩ =
        run r limits (ys ++ rest) ⟨{ l with
          operands := .pending (make x' ⟨next + x.nodes.length, u.index, u.span⟩) ::
            l.operands }, outer, next + x.nodes.length + 1, 0⟩ := by
  obtain ⟨hparts, hoperands, hnesting⟩ := hroom
  have hweak : x.BindsFrom b.precedence := hg.le (by split <;> omega)
  obtain ⟨x', hx', hrun⟩ := hx l outer next (u :: (ys ++ rest)) (hf.before ho)
    ⟨by omega, by omega, by omega⟩ fun b' hb' => hadmits.mono hb (Tree.fair_of_binding? hb')
      (hweak _ (Tree.precedence?_of_binding? hb'))
  have hwhole : b.keepsWhole x' = true := Binding.keepsWhole_iff.2 (hg.congr hx')
  have hstep : step r limits u (ys ++ rest)
      ⟨{ l with operands := l.operands.attach x' }, outer, next + x.nodes.length, 0⟩ =
      .ok ⟨{ l with
        operands := .pending (make x' ⟨next + x.nodes.length, u.index, u.span⟩) ::
          l.operands }, outer, next + x.nodes.length + 1, 0⟩ := by
    refine Eq.trans (step_token (hf.inside u (by simp))) ?_
    rw [hu]
    exact infixOperator_of_room hb hadmits hwhole (by omega) (by omega)
  exact ⟨x', hx', hrun.trans (run_cons hstep)⟩

theorem Parses.binary {op : BinaryOp} {x y : Tree} {xs ys : List Lexeme}
    (sign : u.Signs (Operator.binary op).symbol)
    (hg : (Tree.binary ⟨id, u.index, u.span⟩ op x y).Grouped) (hx : Parses r limits x xs)
    (hy : Parses r limits y ys) :
    Parses r limits (.binary ⟨id, u.index, u.span⟩ op x y) (xs ++ u :: ys) := by
  intro l outer next rest hf hroom hadmits
  obtain ⟨hparts, hoperands, hnesting⟩ := hroom
  rw [Tree.nodes, List.length_cons, List.length_append] at hparts hoperands hnesting ⊢
  have hadmits : l.operands.Admits ⟨op.precedence, op.isAssignment⟩ := hadmits _ rfl
  rw [Tree.grouped_binary] at hg
  have hleft : x.BindsFrom (if op.isAssignment then op.precedence + 1 else op.precedence) := by
    split at hg
    · rename_i h
      rwa [if_pos h]
    · rename_i h
      rw [if_neg h]
      exact hg.1
  have hright : ∀ b, y.binding? = some b →
      op.precedence ≤ b.precedence ∧ (op.precedence < b.precedence ∨ op.precedence ≤ 1) := by
    intro b hb
    have hpos := (Tree.fair_of_binding? hb).pos
    split at hg
    · rename_i h
      have := op.isAssignment_iff.1 h
      omega
    · have := hg.2 _ (Tree.precedence?_of_binding? hb)
      omega
  obtain ⟨x', hx', hrun⟩ := hx.left op.fair (token_of_signs sign) sign.isOpening hleft l outer next
    hf ⟨by omega, by omega, by omega⟩ hadmits
  obtain ⟨y', hy', hrun'⟩ := hy
    { l with
      operands := .pending (.binary ⟨next + x.nodes.length, u.index, u.span⟩ op x') ::
        l.operands } outer (next + x.nodes.length + 1) rest hf.behind.tail
    ⟨by omega, by rw [List.length_cons]; omega, by omega⟩
    fun b hb => .pending (Tree.fair_of_binding? hb) rfl (hright b hb).2
      (hadmits.mono op.fair (Tree.fair_of_binding? hb) (hright b hb).1)
  refine ⟨.binary ⟨next + x.nodes.length, u.index, u.span⟩ op x' y', by
    rw [Tree.unnumbered, hx', hy']; rfl, ?_⟩
  have hnext : next + x.nodes.length + 1 + y.nodes.length =
      next + (x.nodes.length + y.nodes.length + 1) := by omega
  rw [List.append_assoc, List.cons_append, hrun, hrun', hnext]
  rfl

/-- The sign between the branches completes the first of them. -/
theorem step_separator {colon : Lexeme} (h : colon.Signs branchSymbol) {l : Level}
    {outer : List Level} {next : Nat} {o : Origin} {c y : Tree} (hin : l.Holds colon) :
    step r limits colon rest
      ⟨{ l with operands := .pending (.branch o c y) :: l.operands }, outer, next, 0⟩ =
      .ok ⟨{ l with operands := .pending (.otherwise o c y) :: l.operands }, outer, next, 0⟩ := by
  refine Eq.trans (step_token hin) ?_
  unfold token
  rw [h.1]
  exact if_pos (beq_iff_eq.2 h.2)

theorem Parses.choice {colon : Lexeme} {c y n : Tree} {cs ys ns : List Lexeme}
    (sign : u.Signs Operator.choice.symbol) (separator : colon.Signs branchSymbol)
    (hg : (Tree.choice ⟨id, u.index, u.span⟩ c y n).Grouped) (hc : Parses r limits c cs)
    (hy : Parses r limits y ys) (hn : Parses r limits n ns) :
    Parses r limits (.choice ⟨id, u.index, u.span⟩ c y n)
      (cs ++ u :: (ys ++ colon :: ns)) := by
  intro l outer next rest hf hroom hadmits
  obtain ⟨hparts, hoperands, hnesting⟩ := hroom
  rw [Tree.nodes, List.length_cons, List.length_append, List.length_append]
    at hparts hoperands hnesting ⊢
  have hadmits : l.operands.Admits ⟨choicePrecedence, false⟩ := hadmits _ rfl
  have hcolon : colon.isOpening = false :=
    Lexeme.isOpening_of_ne (by rw [separator.2]; decide)
  obtain ⟨c', hc', hrun⟩ := hc.left fair_choice (token_of_signs sign) sign.isOpening hg.1 l outer
    next hf ⟨by omega, by omega, by omega⟩ hadmits
  -- between `?` and `:` anything may stand
  obtain ⟨y', hy', hrun'⟩ := hy
    { l with
      operands := .pending (.condition ⟨next + c.nodes.length, u.index, u.span⟩ c') ::
        l.operands } outer (next + c.nodes.length + 1) (colon :: (ns ++ rest))
    (hf.behind.tail.before hcolon) ⟨by omega, by rw [List.length_cons]; omega, by omega⟩
    fun _ _ => trivial
  obtain ⟨n', hn', hrun''⟩ := hn
    { l with
      operands := .pending (.otherwise ⟨next + c.nodes.length, u.index, u.span⟩ c' y') ::
        l.operands } outer (next + c.nodes.length + 1 + y.nodes.length) rest
    hf.behind.tail.behind.tail ⟨by omega, by rw [List.length_cons]; omega, by omega⟩
    fun b hb => by
      have hq := hg.2 _ (Tree.precedence?_of_binding? hb)
      exact .pending (Tree.fair_of_binding? hb) rfl (.inl hq)
        (hadmits.mono fair_choice (Tree.fair_of_binding? hb) (Nat.le_of_lt hq))
  refine ⟨.choice ⟨next + c.nodes.length, u.index, u.span⟩ c' y' n', by
    rw [Tree.unnumbered, hc', hy', hn']; rfl, ?_⟩
  have hnext : next + c.nodes.length + 1 + y.nodes.length + n.nodes.length =
      next + (c.nodes.length + y.nodes.length + n.nodes.length + 1) := by omega
  have hls : ys ++ colon :: ns ++ rest = ys ++ colon :: (ns ++ rest) := by
    rw [List.append_assoc, List.cons_append]
  rw [List.append_assoc, List.cons_append, hrun, hls, hrun']
  refine (run_cons (step_separator separator (hf.inside colon (by simp)))).trans ?_
  rw [hrun'', hnext]
  rfl

/-! ## calls -/

theorem ParsesArgs.nil : ParsesArgs r limits [] [] := by
  intro name span close args outer next rest _ _ hargs
  obtain rfl := hargs rfl
  exact ⟨[], [], [], rfl, rfl, rfl⟩

theorem ParsesArgs.one {t : Tree} {ls : List Lexeme} (h : Parses r limits t ls) :
    ParsesArgs r limits [t] ls := by
  intro name span close args outer next rest hf hroom _
  rw [Tree.nodesOfAll, Tree.nodesOfAll, List.append_nil] at hroom ⊢
  obtain ⟨t', ht', hrun⟩ := h ⟨.call name span close false, [], args⟩ outer next rest hf hroom
    fun _ _ => trivial
  exact ⟨[.done t'], args, [t'], by rw [unnumberedAll, ht']; rfl, rfl, hrun⟩

theorem ParsesArgs.cons {t v : Tree} {ts : List Tree} {comma : Lexeme} {ls ls' : List Lexeme}
    (h : Parses r limits t ls) (hk : comma.kind = .comma) (hc : comma.isOpening = false)
    (hrest : ParsesArgs r limits (v :: ts) ls') :
    ParsesArgs r limits (t :: v :: ts) (ls ++ comma :: ls') := by
  intro name span close args outer next rest hf hroom _
  obtain ⟨hparts, hoperands, hnesting⟩ := hroom
  rw [Tree.nodesOfAll, List.length_append] at hparts hoperands hnesting ⊢
  obtain ⟨t', ht', hrun⟩ := h ⟨.call name span close false, [], args⟩ outer next
    (comma :: (ls' ++ rest)) (hf.before hc)
    ⟨by omega, by simp only [List.length_nil]; omega, by omega⟩ fun _ _ => trivial
  have hcomma : step r limits comma (ls' ++ rest)
      ⟨⟨.call name span close false, [.done t'], args⟩, outer, next + t.nodes.length, 0⟩ =
      .ok ⟨⟨.call name span close false, [], args ++ [t']⟩, outer, next + t.nodes.length, 0⟩ := by
    refine Eq.trans (step_token (hf.inside comma (by simp))) ?_
    unfold token
    rw [hk]
    rfl
  obtain ⟨s, args', written, hw, hclose, hrun'⟩ := hrest name span close (args ++ [t']) outer
    (next + t.nodes.length) rest hf.behind.tail ⟨by omega, by omega, by omega⟩
    fun h => absurd h (List.cons_ne_nil _ _)
  refine ⟨s, args', t' :: written, ?_, ?_, ?_⟩
  · rw [unnumberedAll, ht', hw]
    rfl
  · rw [List.append_cons]
    exact hclose
  · rw [List.append_assoc, List.cons_append, ← Nat.add_assoc]
    exact (hrun.trans (run_cons hcomma)).trans hrun'

/-- A name before an opening parenthesis starts a call. -/
theorem token_of_call {name opening close : Lexeme} {ls : List Lexeme} {l : Level}
    {outer : List Level} {next : Nat} (hk : name.kind = .identifier)
    (hn : booleanNamed? name.text = none) (ho : opening.isOpening = true)
    (hp : opening.kind = .parenthesis) (hc : close.Closes) (hb : Balanced ls)
    (hin : ∀ v ∈ opening :: (ls ++ [close]), l.Holds v) :
    token r limits name (opening :: (ls ++ close :: rest)) ⟨l, outer, next, 0⟩ =
      descend limits opening (.call name (name.span.merge close.span) close
        (close.index == opening.index + 1)) 1 ⟨l, outer, next, 0⟩ := by
  have hw : within ⟨l, outer, next, 0⟩ (opening :: (ls ++ close :: rest)) =
      opening :: (ls ++ close :: within ⟨l, outer, next, 0⟩ rest) := by
    rw [List.append_cons, ← List.cons_append, within_append hin, List.cons_append,
      List.append_assoc, List.singleton_append]
  unfold token
  rw [hk]
  show identifier r limits name (within ⟨l, outer, next, 0⟩ _) _ = _
  rw [hw]
  unfold identifier
  rw [hn]
  refine (if_pos ho).trans ?_
  unfold openCall
  rw [closing?_brackets hp ho hc hb]

/-- The closing parenthesis of a call, when its arguments are complete. -/
theorem ascend_call {name close : Lexeme} {span : Span} {bare : Bool} {s : OperandStack}
    {args written : List Tree} {l : Level} {outer : List Level} {next : Nat} {f : FuncId}
    (hargs : closeArguments close bare ⟨.call name span close bare, s, args⟩ = .ok written)
    (few : written.length ≤ maxArguments) (resolves : r.resolve name.text written.length = .ok f)
    (hp : next + (defaultsAfter r f written.length).length < limits.maxParts)
    (ho : l.operands.length < limits.maxOperands) :
    ascend r limits ⟨⟨.call name span close bare, s, args⟩, l :: outer, next, 0⟩ =
      .ok ⟨{ l with
        operands := l.operands.attach
          (.call ⟨next + (defaultsAfter r f written.length).length, name.index, span⟩ f
            (written ++ fillsFrom close next (defaultsAfter r f written.length))) },
        outer, next + (defaultsAfter r f written.length).length + 1, 0⟩ := by
  unfold ascend
  show (closeArguments close bare ⟨.call name span close bare, s, args⟩ >>= fun args' =>
    resolveCall r name args'.length >>= fun f =>
      fillDefaults limits close (defaultsAfter r f args'.length) ⟨l, outer, next, 0⟩ >>= fun p =>
        p.2.place limits name.index span (.call · f (args' ++ p.1))) = _
  rw [hargs]
  show (resolveCall r name written.length >>= _) = _
  rw [resolveCall_of_resolve few resolves]
  show (fillDefaults limits close (defaultsAfter r f written.length) ⟨l, outer, next, 0⟩ >>= _) = _
  rw [fillDefaults_of_room (Nat.le_of_lt hp)]
  show place limits name.index span (.call · f (written ++ _)) ⟨l, outer, _, 0⟩ = _
  exact place_of_room hp ho

theorem Parses.call (hr : r.Declared) {opening close : Lexeme} {f : FuncId}
    {written filled : List Tree} {ls : List Lexeme} (hk : u.kind = .identifier)
    (ho : opening.isOpening = true) (hc : close.Closes) (few : written.length ≤ maxArguments)
    (resolves : r.resolve u.text written.length = .ok f) (args : PhraseList r written ls)
    (defaults : Fills close (defaultsAfter r f written.length) filled)
    (hargs : ParsesArgs r limits written ls) :
    Parses r limits (.call ⟨id, u.index, u.span.merge close.span⟩ f (written ++ filled))
      (u :: opening :: (ls ++ [close])) := by
  intro l outer next rest hf hroom _
  obtain ⟨hparts, hoperands, hnesting⟩ := hroom
  rw [Tree.nodes, List.length_cons, Tree.nodesOfAll_append, List.length_append,
    defaults.length_nodes] at hparts hoperands hnesting ⊢
  obtain ⟨i, hu, hopen, hi⟩ := hf.numbered
  have hls : u :: opening :: (ls ++ [close]) ++ rest =
      u :: opening :: (ls ++ close :: rest) := by simp
  rw [hls]
  -- nothing between the brackets means no argument
  have hempty : (close.index == opening.index + 1) = written.isEmpty := by
    change Numbered (i + 1 + 1) (ls ++ [close] ++ rest) at hi
    rw [List.append_assoc] at hi
    have hci : close.index = i + 1 + 1 + ls.length := (Numbered.append.1 hi).2.1
    rw [Bool.eq_iff_iff, beq_iff_eq, List.isEmpty_iff, args.eq_nil_iff, ← List.length_eq_zero_iff]
    omega
  have hopens : opening.kind = .parenthesis :=
    ((hf.proper opening (by simp)).opens ho).1
  have hstep : step r limits u (opening :: (ls ++ close :: rest)) ⟨l, outer, next, 0⟩ =
      .ok ⟨{ bracket := .call u (u.span.merge close.span) close written.isEmpty }, l :: outer,
        next, 1⟩ := by
    have hb := args.balanced fun v hv => hf.proper v (by simp [hv])
    have hn := (unreserved (hr.function_unreserved resolves)).1
    rw [step_token (hf.inside u (List.mem_cons_self ..)),
      token_of_call hk hn ho hopens hc hb fun v hv => hf.inside v (List.mem_cons_of_mem _ hv),
      hempty]
    exact descend_of_room (by omega)
  have hfront : Front (.call u (u.span.merge close.span) close written.isEmpty) ls
      (close :: rest) :=
    Front.between (show Front l.bracket ([u] ++ _) rest from hf) hc rfl
  obtain ⟨s, args', written', hw, hclosed, hrun⟩ := hargs u (u.span.merge close.span) close []
    (l :: outer) next (close :: rest) hfront
    ⟨by omega, by omega, by simp only [List.length_cons]; omega⟩ fun _ => rfl
  have hlen : written'.length = written.length := by
    rw [← length_unnumberedAll, hw, length_unnumberedAll]
  rw [List.nil_append] at hclosed
  have hclose : step r limits close rest
      ⟨⟨.call u (u.span.merge close.span) close written.isEmpty, s, args'⟩, l :: outer,
        next + (Tree.nodesOfAll written).length, 0⟩ = _ :=
    (step_ascend rfl).trans (ascend_call hclosed (hlen.symm ▸ few) (hlen.symm ▸ resolves)
      (by rw [hlen]; omega) (by omega))
  rw [hlen] at hclose
  refine ⟨.call ⟨next + (Tree.nodesOfAll written).length +
      (defaultsAfter r f written.length).length, u.index, u.span.merge close.span⟩ f
    (written' ++ fillsFrom close (next + (Tree.nodesOfAll written).length)
      (defaultsAfter r f written.length)), ?_, ?_⟩
  · rw [Tree.unnumbered, Tree.unnumbered, unnumberedAll_append, unnumberedAll_append, hw,
      (fills_fillsFrom ..).unnumbered defaults]
    rfl
  · have hnext : next + (Tree.nodesOfAll written).length +
        (defaultsAfter r f written.length).length + 1 = next + ((Tree.nodesOfAll written).length +
          (defaultsAfter r f written.length).length + 1) := by omega
    rw [run_cons hstep, run_skip, hrun, run_cons hclose, hnext]

/-! ## whole phrases -/

mutual

/-- Every phrase of a well grouped tree is parsed. -/
theorem parses_of_phrase (hr : r.Declared) : ∀ {t : Tree} {ls : List Lexeme}, Phrase r t ls →
    t.WellGrouped → (∀ l ∈ ls, l.Proper) → Parses r limits t ls
  | _, _, .number kind value, _, _ => .number kind value
  | _, _, .string kind, _, _ => .string kind
  | _, _, .boolean kind value, _, _ => .boolean kind value
  | _, _, .reference kind found, _, _ => .reference hr kind found
  | _, _, .unary sign operand, hg, hp => by
    obtain ⟨hg, hx⟩ := Tree.wellGrouped_unary.1 hg
    exact .unary sign hg (parses_of_phrase hr operand hx (List.forall_mem_cons.1 hp).2)
  | _, _, .cast bracket opens kind type closes operand, hg, hp => by
    obtain ⟨hg, hx⟩ := Tree.wellGrouped_cast.1 hg
    exact .cast bracket opens kind type closes hg
      (parses_of_phrase hr operand hx fun l hl => hp l (by simp [hl]))
  | _, _, .group bracket opens closes inner, hg, hp => by
    have hx := Tree.wellGrouped_group.1 hg
    exact .group hr bracket opens closes inner
      (parses_of_phrase hr inner hx fun l hl => hp l (by simp [hl]))
  | _, _, .binary sign left right, hg, hp => by
    obtain ⟨hg, hl, hx⟩ := Tree.wellGrouped_binary.1 hg
    obtain ⟨hpl, hpx⟩ := List.forall_mem_append.1 hp
    exact .binary sign hg (parses_of_phrase hr left hl hpl)
      (parses_of_phrase hr right hx (List.forall_mem_cons.1 hpx).2)
  | _, _, .choice sign separator condition yes no, hg, hp => by
    obtain ⟨hg, hc, hy, hn⟩ := Tree.wellGrouped_choice.1 hg
    exact .choice sign separator hg
      (parses_of_phrase hr condition hc fun l hl => hp l (by simp [hl]))
      (parses_of_phrase hr yes hy fun l hl => hp l (by simp [hl]))
      (parses_of_phrase hr no hn fun l hl => hp l (by simp [hl]))
  | _, _, .call kind opens closes few resolves args defaults, hg, hp => by
    have hw := Tree.wellGrouped_call.1 hg
    exact .call hr kind opens closes few resolves args defaults
      (parsesArgs_of_phraseList hr args (fun t ht => hw t (List.mem_append_left _ ht))
        fun l hl => hp l (by simp [hl]))

theorem parsesArgs_of_phraseList (hr : r.Declared) : ∀ {ts : List Tree} {ls : List Lexeme},
    PhraseList r ts ls → (∀ t ∈ ts, t.WellGrouped) → (∀ l ∈ ls, l.Proper) →
      ParsesArgs r limits ts ls
  | _, _, .nil, _, _ => .nil
  | _, _, .one only, hg, hp =>
    .one (parses_of_phrase hr only (hg _ (List.mem_cons_self ..)) hp)
  | _, _, .cons first separates rest, hg, hp => by
    obtain ⟨ht, hts⟩ := List.forall_mem_cons.1 hg
    obtain ⟨hpl, hpr⟩ := List.forall_mem_append.1 hp
    obtain ⟨hc, hpr⟩ := List.forall_mem_cons.1 hpr
    have hopening := Lexeme.isOpening_of_ne (by rw [hc.2.1 separates]; decide)
    exact .cons (parses_of_phrase hr first ht hpl) separates hopening
      (parsesArgs_of_phraseList hr rest hts hpr)

end

end ParseState

/-- Every well grouped tree is what the parser makes of the lexemes it is written as, when the
limits leave room for its parts. -/
theorem parse_complete {r : Registry} (hr : r.Declared) {limits : Limits} {source : String}
    {tokens : List Token} (ht : tokenize source = .ok tokens) {t : Tree}
    (hp : Phrase r t (TokenStream.lexemes ⟨source.toList, tokens⟩)) (hg : t.WellGrouped)
    (parts : t.nodes.length ≤ limits.maxParts) (operands : t.nodes.length ≤ limits.maxOperands)
    (nesting : t.nodes.length ≤ limits.maxNesting) :
    ∃ e, parse ⟨source.toList, tokens⟩ r limits = .ok e ∧
      e.tree.unnumbered = t.unnumbered ∧ e.partCount = t.nodes.length := by
  have hproper := proper_of_tokenize ht
  have hnumbered := numbered_lexemes ⟨source.toList, tokens⟩
  unfold parse
  generalize TokenStream.lexemes ⟨source.toList, tokens⟩ = ls at hp hproper hnumbered ⊢
  have hfront : Front .whole ls [] := ⟨⟨0, by rwa [List.append_nil]⟩, nofun, hproper, nofun⟩
  have hroom : Room limits t.nodes.length 0 0 0 := ⟨by omega, by omega, by omega⟩
  obtain ⟨t', ht', hrun⟩ := ParseState.parses_of_phrase hr hp hg hproper { bracket := .whole } [] 0
    [] hfront hroom fun _ _ => trivial
  rw [List.append_nil, Nat.zero_add] at hrun
  refine ⟨⟨t', t.nodes.length⟩, ?_, ht', rfl⟩
  rw [show ParseState.run r limits ls {} = _ from hrun]
  rfl

theorem declared_sample : sampleRegistry.Declared := by
  have hx : Registry.empty.addVariable ⟨"x", .int ⟨true, .w32⟩, false, false⟩ (.bool false) =
      .ok { vars := [⟨"x", .int ⟨true, .w32⟩, false, false⟩] } := rfl
  have hf : Registry.addFunction { vars := [⟨"x", .int ⟨true, .w32⟩, false, false⟩] }
      ⟨"f", .bool, [⟨.bool, none⟩, ⟨.bool, some (.bool true)⟩]⟩ = .ok sampleRegistry := rfl
  exact .addFunction (.addVariable .empty hx) hf

theorem wellGrouped_sample : sampleTree.WellGrouped := by
  simp [Tree.WellGrouped, sampleTree, Tree.nodes, Tree.nodesOfAll, Tree.Grouped, Tree.BindsFrom,
    Tree.precedence?, Tree.operator?, Operator.precedence, BinaryOp.isAssignment, castPrecedence,
    choicePrecedence]

theorem parse_complete_sample :
    ∃ e, parse ⟨sampleSource.toList, sampleTokens⟩ sampleRegistry ⟨9, 9, 9, 0⟩ = .ok e ∧
      e.tree.unnumbered = sampleTree.unnumbered ∧ e.partCount = 9 :=
  parse_complete declared_sample tokenize_sample (phrase_of_parse parse_sample)
    wellGrouped_sample (by decide) (by decide) (by decide)

end ExprEngine
