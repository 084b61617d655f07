import ExprEngine.Proofs.Parse.Bounds

/-!
# Brackets within brackets

The brackets of a tree are its groups and calls. While a parse is inside some brackets, the trees
that it holds there leave room for these.

* `Tree.nesting`       the length of the longest chain of brackets, each below the one before;
* `chain_le_nesting`   no chain is longer;
* `Level.Shallow`      an open bracket whose trees are nested only so deep;
* `Move.shallow`       a move leaves room for the brackets around;
* `parse_nesting`      a parsed tree is nested no deeper than the limits allow.
-/

namespace ExprEngine

namespace Tree

/-- Whether a part is made of brackets. -/
def isBracket : Tree → Bool
  | group _ _ => true
  | call _ _ _ => true
  | _ => false

mutual

/-- The length of the longest chain of brackets in a tree, each below the one before. -/
def nesting : Tree → Nat
  | hole => 0
  | constant _ _ => 0
  | reference _ _ => 0
  | unary _ _ x => nesting x
  | binary _ _ l x => max (nesting l) (nesting x)
  | choice _ c y n => max (nesting c) (max (nesting y) (nesting n))
  | cast _ _ x => nesting x
  | group _ x => nesting x + 1
  | call _ _ args => nestingAll args + 1

/-- The greatest nesting of some trees. -/
def nestingAll : List Tree → Nat
  | [] => 0
  | t :: ts => max (nesting t) (nestingAll ts)

end

theorem nesting_eq (t : Tree) :
    t.nesting = nestingAll t.operands + if t.isBracket then 1 else 0 := by
  cases t <;> simp [nesting, nestingAll, operands, isBracket]

theorem nestingAll_le {ts : List Tree} {k : Nat} :
    nestingAll ts ≤ k ↔ ∀ t ∈ ts, t.nesting ≤ k := by
  induction ts with
  | nil => exact iff_of_true (Nat.zero_le k) nofun
  | cons t ts ih =>
    refine Nat.max_le.trans ?_
    rw [ih, List.forall_mem_cons]

theorem nesting_le_of_mem {t n : Tree} (h : n ∈ t.nodes) : n.nesting ≤ t.nesting := by
  induction t using operand_induction with
  | part t ih =>
    rcases mem_nodes_iff.1 h with ⟨rfl, -⟩ | ⟨x, hx, hn⟩
    · exact Nat.le_refl _
    · have hoperand := nestingAll_le.1 (Nat.le_refl (nestingAll t.operands)) x hx
      have hbelow := ih x hx hn
      rw [nesting_eq t]
      omega

/-- Whether a part lies below another one. -/
def Below (n t : Tree) : Prop := n ∈ nodesOfAll t.operands

theorem nesting_lt_of_below {t n : Tree} (hn : n.Below t) (ht : t.isBracket = true) :
    n.nesting < t.nesting := by
  obtain ⟨x, hx, hn⟩ := mem_nodesOfAll.1 hn
  have hoperand := nestingAll_le.1 (Nat.le_refl (nestingAll t.operands)) x hx
  have hbelow := nesting_le_of_mem hn
  rw [nesting_eq t, if_pos ht]
  omega

/-- A chain of brackets is no longer than the nesting of the first. -/
theorem chain_le_nesting {t : Tree} {ts : List Tree}
    (hchain : (t :: ts).IsChain fun a b => b.Below a)
    (hbracket : ∀ n ∈ t :: ts, n.isBracket = true) : (t :: ts).length ≤ t.nesting := by
  induction ts generalizing t with
  | nil =>
    have ht := List.forall_mem_singleton.1 hbracket
    rw [nesting_eq, if_pos ht]
    exact Nat.le_add_left ..
  | cons u us ih =>
    obtain ⟨hbelow, hchain⟩ := List.isChain_cons_cons.1 hchain
    obtain ⟨ht, hus⟩ := List.forall_mem_cons.1 hbracket
    have hrest := ih hchain hus
    have hlt := nesting_lt_of_below hbelow ht
    rw [List.length_cons]
    omega

end Tree

/-! ## operands -/

/-- A part written as a single lexeme has no brackets. -/
theorem Phrase.nesting_single {r : Registry} {t : Tree} {l : Lexeme} (h : Phrase r t [l]) :
    t.nesting = 0 := by
  rcases h.single_cases with ⟨o, v, rfl, -⟩ | ⟨o, x, rfl, -⟩
  · rfl
  · rfl

/-- A stack whose trees are nested only so deep. -/
def OperandStack.Shallow (k : Nat) (s : OperandStack) : Prop := ∀ e ∈ s, e.tree.nesting ≤ k

namespace OperandStack

variable {k : Nat} {s s' : OperandStack}

theorem nesting_fill {p : Pending} {t : Tree} {e : Entry} (h : p.fill? t = some e) :
    e.tree.nesting = max p.tree.nesting t.nesting := by
  cases p with
  | branch => cases h
  | _ =>
    cases h
    simp only [Entry.tree, Pending.tree, Tree.nesting]
    omega

theorem Shallow.attach (hs : s.Shallow k) {t : Tree} (ht : t.nesting ≤ k) :
    (s.attach t).Shallow k := by
  fun_induction OperandStack.attach s t with
  | case1 p below t t' hf ih =>
    obtain ⟨hp, hbelow⟩ := List.forall_mem_cons.1 hs
    have hfill : t'.nesting = max p.tree.nesting t.nesting := nesting_fill hf
    exact ih hbelow (hfill ▸ Nat.max_le.2 ⟨hp, ht⟩)
  | case2 p below t p' hf =>
    obtain ⟨hp, hbelow⟩ := List.forall_mem_cons.1 hs
    have hfill : p'.tree.nesting = max p.tree.nesting t.nesting := nesting_fill hf
    exact List.forall_mem_cons.2 ⟨hfill ▸ Nat.max_le.2 ⟨hp, ht⟩, hbelow⟩
  | case3 => exact List.forall_mem_cons.2 ⟨ht, hs⟩
  | case4 => exact List.forall_mem_cons.2 ⟨ht, hs⟩

theorem nesting_reopen (b : Binding) {t : Tree} (ht : t.nesting ≤ k) :
    (∀ p ∈ (t.reopen b).1, p.tree.nesting ≤ k) ∧ (t.reopen b).2.nesting ≤ k := by
  fun_induction Tree.reopen b t with
  | case1 => exact ⟨List.forall_mem_nil _, ht⟩
  | case2 o op l x _ ih =>
    rw [Tree.nesting] at ht
    obtain ⟨hps, hlast⟩ := ih (by omega)
    refine ⟨List.forall_mem_cons.2 ⟨?_, hps⟩, hlast⟩
    simp only [Pending.tree, Tree.nesting]
    omega
  | case3 => exact ⟨List.forall_mem_nil _, ht⟩
  | case4 o c y n _ ih =>
    rw [Tree.nesting] at ht
    obtain ⟨hps, hlast⟩ := ih (by omega)
    refine ⟨List.forall_mem_cons.2 ⟨?_, hps⟩, hlast⟩
    simp only [Pending.tree, Tree.nesting]
    omega
  | case5 => exact ⟨List.forall_mem_nil _, ht⟩

theorem Shallow.reopened (hs : s.Shallow k) {ps : List Pending}
    (hps : ∀ p ∈ ps, p.tree.nesting ≤ k) : (s.reopened ps).Shallow k := by
  induction ps generalizing s with
  | nil => exact hs
  | cons p ps ih =>
    obtain ⟨hp, hps⟩ := List.forall_mem_cons.1 hps
    exact ih (List.forall_mem_cons.2 ⟨hp, hs⟩) hps

theorem Shallow.takeLeft (hs : s.Shallow k) {max : Nat} {b : Binding} {here : Lexeme} {left : Tree}
    (h : s.takeLeft max b here = .ok (left, s')) : s'.Shallow k ∧ left.nesting ≤ k := by
  obtain ⟨e, below, ps, rfl, he, rfl⟩ := takeLeft_ok h
  obtain ⟨htop, hbelow⟩ := List.forall_mem_cons.1 hs
  unfold Entry.leftOperand at he
  split at he
  · rename_i t
    have hr : t.reopen b = (ps, left) := Except.ok.inj he
    obtain ⟨hps, hlast⟩ := nesting_reopen b (t := t) htop
    rw [hr] at hps hlast
    exact ⟨Shallow.reopened hbelow hps, hlast⟩
  · rename_i o c y
    simp only [Entry.tree, Pending.tree, Tree.nesting] at htop
    obtain ⟨hps, hlast⟩ := nesting_reopen b (t := y) (k := k) (by omega)
    cases he
    refine ⟨Shallow.reopened hbelow (List.forall_mem_cons.2 ⟨?_, hps⟩), hlast⟩
    simp only [Pending.tree, Tree.nesting]
    omega
  · cases he

end OperandStack

/-! ## moves -/

variable {r : Registry} {t : Lexeme} {ahead : List Lexeme}

/-- A token leaves the operands of its level as deep as they were. -/
theorem Effect.shallow {next next' k : Nat} {s s' : OperandStack} {skip : Nat}
    (h : Effect r t ahead next s s' next' skip) (hs : s.Shallow k) : s'.Shallow k := by
  cases h with
  | leaf phrase => exact hs.attach (by rw [phrase.nesting_single]; exact Nat.zero_le _)
  | unary => exact List.forall_mem_cons.2 ⟨Nat.zero_le _, hs⟩
  | cast => exact List.forall_mem_cons.2 ⟨Nat.zero_le _, hs⟩
  | binary _ taken =>
    obtain ⟨hbelow, hleft⟩ := hs.takeLeft taken
    refine List.forall_mem_cons.2 ⟨?_, hbelow⟩
    simpa only [Entry.tree, Pending.tree, Tree.nesting, Nat.max_zero] using hleft
  | condition _ taken =>
    obtain ⟨hbelow, hleft⟩ := hs.takeLeft taken
    refine List.forall_mem_cons.2 ⟨?_, hbelow⟩
    simpa only [Entry.tree, Pending.tree, Tree.nesting, Nat.max_zero] using hleft
  | separate _ separated =>
    obtain ⟨o, c, y, below, rfl, rfl⟩ := OperandStack.separate_ok separated
    exact List.forall_mem_cons.2 (List.forall_mem_cons.1 hs)

/-- An open bracket whose trees are nested only so deep. -/
structure Level.Shallow (k : Nat) (l : Level) : Prop where
  operands : l.operands.Shallow k
  args : ∀ x ∈ l.args, x.nesting ≤ k

/-- Open brackets, the innermost first, whose trees leave room for the brackets around them. -/
def ShallowLevels (max : Nat) : List Level → Prop
  | [] => True
  | l :: outer => l.Shallow (max - outer.length) ∧ ShallowLevels max outer

theorem Level.Arguments.shallow {k : Nat} {bare : Bool} {s : OperandStack}
    {args written : List Tree} (h : Level.Arguments bare s args written) (hs : s.Shallow k)
    (hargs : ∀ x ∈ args, x.nesting ≤ k) : ∀ x ∈ written, x.nesting ≤ k := by
  cases h with
  | bare => exact nofun
  | last =>
    have hlast := List.forall_mem_singleton.1 hs
    exact List.forall_mem_append.2 ⟨hargs, List.forall_mem_singleton.2 hlast⟩

theorem nesting_fillsFrom (close : Lexeme) (next : PartId) (vs : List Value) :
    ∀ x ∈ fillsFrom close next vs, x.nesting = 0 := by
  induction vs generalizing next with
  | nil => exact nofun
  | cons v vs ih => exact List.forall_mem_cons.2 ⟨rfl, ih (next + 1)⟩

/-- A move leaves room for the brackets around, when the open ones are within the limit. -/
theorem Move.shallow {max : Nat} {st st' : ParseState} (m : Move r t ahead st st')
    (hmax : st.outer.length ≤ max) (h : ShallowLevels max (st.level :: st.outer)) :
    ShallowLevels max (st'.level :: st'.outer) := by
  obtain ⟨⟨hoperands, hargs⟩, houter⟩ := h
  cases m with
  | operands effect => exact ⟨⟨effect.shallow hoperands, hargs⟩, houter⟩
  | comma =>
    have hlast := List.forall_mem_singleton.1 hoperands
    have hargs' := List.forall_mem_append.2 ⟨hargs, List.forall_mem_singleton.2 hlast⟩
    exact ⟨⟨nofun, hargs'⟩, houter⟩
  | openGroup => exact ⟨⟨nofun, nofun⟩, ⟨hoperands, hargs⟩, houter⟩
  | openCall => exact ⟨⟨nofun, nofun⟩, ⟨hoperands, hargs⟩, houter⟩
  | @closeGroup l outer _ _ _ x =>
    obtain ⟨hlevel, houter⟩ := houter
    have hinner : x.nesting ≤ max - (l :: outer).length :=
      hoperands (.done x) (List.mem_singleton_self _)
    refine ⟨⟨hlevel.operands.attach ?_, hlevel.args⟩, houter⟩
    rw [Tree.nesting]
    simp only [List.length_cons] at hinner hmax
    omega
  | @closeCall l outer next _ _ _ _ _ written f vs complete =>
    obtain ⟨hlevel, houter⟩ := houter
    have hwritten := complete.shallow hoperands hargs
    have hinner : Tree.nestingAll (written ++ fillsFrom t next vs) ≤ max - (l :: outer).length := by
      refine Tree.nestingAll_le.2 (List.forall_mem_append.2 ⟨hwritten, fun x hx => ?_⟩)
      rw [nesting_fillsFrom t next vs x hx]
      exact Nat.zero_le _
    refine ⟨⟨hlevel.operands.attach ?_, hlevel.args⟩, houter⟩
    rw [Tree.nesting]
    simp only [List.length_cons] at hinner hmax
    omega

/-! ## parses -/

/-- A parsed tree is nested no deeper than the limits allow. -/
theorem parse_nesting {limits : Limits} {s : TokenStream} {e : Expr}
    (h : parse s r limits = .ok e) : e.tree.nesting ≤ limits.maxNesting := by
  unfold parse at h
  obtain ⟨st, hrun, h⟩ := bind_eq_ok.1 h
  obtain ⟨root, hroot, h⟩ := bind_eq_ok.1 h
  cases h
  have hstart : Reads r [{ bracket := .whole }] ([] ++ s.lexemes.take 0) (s.lexemes.drop 0) :=
    .whole .nil
  have hanywhere : Span.Covering fun _ => True := ⟨trivial, fun _ _ => trivial⟩
  have hends : Ends (fun _ => True)
      (fun st : ParseState => st.Within limits ∧
        ShallowLevels limits.maxNesting (st.level :: st.outer))
      (ParseState.run r limits s.lexemes {}) := by
    refine ParseState.run_ends s.lexemes ?_ hstart (numbered_lexemes s) rfl
      ⟨⟨Nat.zero_le _, Nat.zero_le _⟩, ⟨nofun, nofun⟩, trivial⟩
    intro t ts st done i hr hn _ ⟨hwithin, hshallow⟩
    have hbounded : Bounded (fun _ => True) limits (st.step r limits t ts) :=
      ParseState.step_ends hanywhere hwithin (hr.spans hanywhere fun _ _ => trivial) trivial
        fun _ _ => trivial
    cases hstep : st.step r limits t ts with
    | error e => trivial
    | ok st' =>
      refine ⟨hbounded.of_ok hstep, ?_⟩
      rcases (ParseState.reads_step hr hn hstep).2 with hmove | rfl
      · exact hmove.shallow hwithin.nesting hshallow
      · exact hshallow
  obtain ⟨-, ⟨hoperands, -⟩, -⟩ := hends.of_ok hrun
  have htree := hoperands (.done root) (by rw [OperandStack.single_ok hroot]; simp)
  exact Nat.le_trans htree (Nat.sub_le ..)

end ExprEngine
