import ExprEngine.Proofs.Parse.ReadBack
import ExprEngine.Proofs.Parse.Strength

/-!
# Strength of operands

A stack of operands is sorted by strength from the bottom to the top: each waiting operator accepts
the strength of the entry above it. Taking a left operand reopens just the operators that bind more
loosely than the one that takes it, so the order is kept.

* `Pending.Accepts`        a strength that a waiting operator takes as its next operand;
* `StackGrouped`           a stack in that order;
* `StackGrouped.takeLeft`  it is kept when a left operand is taken;
* `parse_wellGrouped`      a parsed tree is grouped.
-/

namespace ExprEngine

/-! ## what waits and what it accepts -/

/-- Whether a waiting operator takes a part of the given strength as its next operand. -/
def Pending.Accepts : Pending → Option Nat → Prop
  | .unary _ _, q => ∀ p, q = some p → p = castPrecedence
  | .cast _ _, q => ∀ p, q = some p → p = castPrecedence
  | .binary _ op _, q => op.isAssignment = true ∨ ∀ p, q = some p → op.precedence + 1 ≤ p
  | .condition _ _, _ => True
  | .branch _ _ _, _ => True
  | .otherwise _ _ _, q => ∀ p, q = some p → choicePrecedence + 1 ≤ p

/-- The strength of a waiting operator. -/
def Pending.precedence : Pending → Nat
  | .unary _ _ => castPrecedence
  | .cast _ _ => castPrecedence
  | .binary _ op _ => op.precedence
  | .condition _ _ => choicePrecedence
  | .branch _ _ _ => choicePrecedence
  | .otherwise _ _ _ => choicePrecedence

/-- Whether the operands that a waiting operator has are grouped and fit their places. -/
def Pending.Grouped : Pending → Prop
  | .unary _ _ => True
  | .cast _ _ => True
  | .binary _ op l => l.WellGrouped ∧
      l.BindsFrom (if op.isAssignment then op.precedence + 1 else op.precedence)
  | .condition _ c => c.WellGrouped ∧ c.BindsFrom choicePrecedence
  | .branch _ c y => c.WellGrouped ∧ c.BindsFrom choicePrecedence ∧ y.WellGrouped
  | .otherwise _ c y => c.WellGrouped ∧ c.BindsFrom choicePrecedence ∧ y.WellGrouped

/-- Whether the top of a stack takes a part of the given strength. -/
def OperandStack.Accepts : OperandStack → Option Nat → Prop
  | .pending p :: _, q => p.Accepts q
  | _, _ => True

/-- Whether no operator on top of a stack waits for an operand. -/
def OperandStack.Settled : OperandStack → Prop
  | .pending (.branch _ _ _) :: _ => True
  | .pending _ :: _ => False
  | _ => True

/-- A stack whose entries are grouped, each of a strength that the entry below accepts. A finished
entry lies on one that waits for nothing. -/
def StackGrouped : OperandStack → Prop
  | [] => True
  | .done t :: below => t.WellGrouped ∧ OperandStack.Settled below ∧ StackGrouped below
  | .pending p :: below =>
    p.Grouped ∧ OperandStack.Accepts below (some p.precedence) ∧ StackGrouped below

theorem OperandStack.Settled.accepts {s : OperandStack} (h : s.Settled) (q : Option Nat) :
    s.Accepts q := by
  cases s with
  | nil => exact trivial
  | cons e below =>
    cases e with
    | done => exact trivial
    | pending p =>
      cases p with
      | branch => exact trivial
      | _ => exact h.elim

theorem Pending.accepts_none (p : Pending) : p.Accepts none := by
  cases p <;> simp [Accepts]

theorem OperandStack.accepts_none (s : OperandStack) : s.Accepts none := by
  cases s with
  | nil => exact trivial
  | cons e below =>
    cases e with
    | done => exact trivial
    | pending p => exact p.accepts_none

/-- Nothing waits that would not take an operator as strong as a cast. -/
theorem Pending.accepts_cast (p : Pending) : p.Accepts (some castPrecedence) := by
  cases p with
  | binary o op l =>
    refine .inr fun q hq => ?_
    cases hq
    exact op.precedence_lt
  | _ => simp [Accepts, castPrecedence, choicePrecedence]

theorem OperandStack.accepts_cast (s : OperandStack) : s.Accepts (some castPrecedence) := by
  cases s with
  | nil => exact trivial
  | cons e below =>
    cases e with
    | done => exact trivial
    | pending p => exact p.accepts_cast

/-! ## handing over a tree -/

/-- What an accepted operand makes of a waiting operator. -/
theorem Pending.Grouped.fill {p : Pending} {t : Tree} {e : Entry} (hp : p.Grouped)
    (ht : t.WellGrouped) (ha : p.Accepts t.precedence?) (h : p.fill? t = some e) :
    match e with
    | .done t' => t'.WellGrouped ∧ t'.precedence? = some p.precedence
    | .pending p' => p'.Grouped ∧ p'.precedence = p.precedence := by
  cases p with
  | unary o op =>
    cases h
    exact ⟨Tree.wellGrouped_unary.2 ⟨ha, ht⟩, rfl⟩
  | cast o ty =>
    cases h
    exact ⟨Tree.wellGrouped_cast.2 ⟨ha, ht⟩, rfl⟩
  | binary o op l =>
    cases h
    refine ⟨Tree.wellGrouped_binary.2 ⟨?_, hp.1, ht⟩, rfl⟩
    have hl := hp.2
    rw [Tree.grouped_binary]
    split
    · rename_i hop
      rwa [if_pos hop] at hl
    · rename_i hop
      rw [if_neg hop] at hl
      exact ⟨hl, ha.resolve_left hop⟩
  | condition o c =>
    cases h
    exact ⟨⟨hp.1, hp.2, ht⟩, rfl⟩
  | branch => cases h
  | otherwise o c y =>
    cases h
    exact ⟨Tree.wellGrouped_choice.2 ⟨⟨hp.2.1, ha⟩, hp.1, hp.2.2, ht⟩, rfl⟩

theorem StackGrouped.attach {s : OperandStack} {t : Tree} (hs : StackGrouped s)
    (ht : t.WellGrouped) (ha : s.Accepts t.precedence?) : StackGrouped (s.attach t) := by
  fun_induction OperandStack.attach s t with
  | case1 p below t t' hf ih =>
    obtain ⟨hp, hb, hbelow⟩ := hs
    obtain ⟨ht', hq⟩ := hp.fill ht ha hf
    exact ih hbelow ht' (hq ▸ hb)
  | case2 p below t p' hf =>
    obtain ⟨hp, hb, hbelow⟩ := hs
    obtain ⟨hp', hq⟩ := hp.fill ht ha hf
    exact ⟨hp', hq ▸ hb, hbelow⟩
  | case3 p below t hf =>
    refine ⟨ht, ?_, hs⟩
    cases p with
    | branch => exact trivial
    | _ => cases hf
  | case4 s t hn =>
    refine ⟨ht, ?_, hs⟩
    cases s with
    | nil => exact trivial
    | cons e below =>
      cases e with
      | done => exact trivial
      | pending p => exact absurd rfl (hn p below)

/-! ## taking a left operand -/

variable {b : Binding}

/-- An operator that does not stay whole accepts the one that takes its last operand. -/
theorem Binding.Fair.accepts_binary (hb : b.Fair) {o : Origin} {op : BinaryOp} {l x : Tree}
    (h : ¬ b.keepsWhole (.binary o op l x) = true) :
    (Pending.binary o op l).Accepts (some b.precedence) := by
  rw [hb.keepsWhole_iff (q := op.precedence) rfl] at h
  by_cases hop : op.isAssignment = true
  · exact .inl hop
  · refine .inr fun q hq => ?_
    cases hq
    have := op.one_le_precedence
    have : op.precedence ≠ 1 := fun e => hop (op.isAssignment_iff.2 e)
    omega

theorem Binding.Fair.accepts_otherwise (hb : b.Fair) {o : Origin} {c y n : Tree}
    (h : ¬ b.keepsWhole (.choice o c y n) = true) :
    (Pending.otherwise o c y).Accepts (some b.precedence) := by
  rw [hb.keepsWhole_iff (q := choicePrecedence) rfl] at h
  intro q hq
  cases hq
  simp only [choicePrecedence] at h ⊢
  omega

/-- Reopening keeps the order, and what is left over stays whole. -/
theorem StackGrouped.reopen (hb : b.Fair) {t : Tree} {s : OperandStack} (hs : StackGrouped s)
    (ht : t.WellGrouped) (ha : s.Accepts t.precedence?)
    (hw : b.keepsWhole t = true → s.Accepts (some b.precedence)) :
    StackGrouped (s.reopened (t.reopen b).1) ∧
      (s.reopened (t.reopen b).1).Accepts (some b.precedence) ∧ (t.reopen b).2.WellGrouped ∧
      b.keepsWhole (t.reopen b).2 = true := by
  fun_induction Tree.reopen b t generalizing s with
  | case1 o op l x hk => exact ⟨hs, hw hk, ht, hk⟩
  | case2 o op l x hk ih =>
    obtain ⟨hg, hl, hx⟩ := Tree.wellGrouped_binary.1 ht
    rw [Tree.grouped_binary] at hg
    refine ih ⟨⟨hl, ?_⟩, ha, hs⟩ hx ?_ fun _ => hb.accepts_binary hk
    · split at hg
      · rename_i hop; rwa [if_pos hop]
      · rename_i hop; rw [if_neg hop]; exact hg.1
    · split at hg
      · rename_i hop; exact .inl hop
      · exact .inr hg.2
  | case3 o c y n hk => exact ⟨hs, hw hk, ht, hk⟩
  | case4 o c y n hk ih =>
    obtain ⟨hg, hc, hy, hn⟩ := Tree.wellGrouped_choice.1 ht
    exact ih ⟨⟨hc, hg.1, hy⟩, ha, hs⟩ hn hg.2 fun _ => hb.accepts_otherwise hk
  | case5 t hbin hcho =>
    have hk : b.keepsWhole t = true := by
      refine hb.keepsWhole_of_binding? ?_
      cases t with
      | binary o op l x => exact absurd rfl (hbin o op l x)
      | choice o c y n => exact absurd rfl (hcho o c y n)
      | _ => rfl
    exact ⟨hs, hw hk, ht, hk⟩

theorem StackGrouped.takeLeft (hb : b.Fair) {max : Nat} {here : Lexeme} {s s' : OperandStack}
    {left : Tree} (hs : StackGrouped s) (h : s.takeLeft max b here = .ok (left, s')) :
    StackGrouped s' ∧ s'.Accepts (some b.precedence) ∧ left.WellGrouped ∧
      b.keepsWhole left = true := by
  obtain ⟨e, below, ps, rfl, he, rfl⟩ := OperandStack.takeLeft_ok h
  unfold Entry.leftOperand at he
  split at he
  · rename_i t
    have hr : t.reopen b = (ps, left) := Except.ok.inj he
    obtain ⟨ht, hset, hbelow⟩ := hs
    have h := StackGrouped.reopen hb hbelow ht (hset.accepts _) fun _ => hset.accepts _
    rwa [hr] at h
  · rename_i o c y
    cases he
    obtain ⟨⟨hc, hcb, hy⟩, ha, hbelow⟩ := hs
    exact StackGrouped.reopen (s := .pending (.condition o c) :: below) hb
      ⟨⟨hc, hcb⟩, ha, hbelow⟩ hy trivial fun _ => trivial
  · cases he

/-! ## moves -/

variable {r : Registry} {t : Lexeme} {ahead : List Lexeme}

theorem Effect.grouped {next next' : PartId} {s s' : OperandStack} {skip : Nat}
    (h : Effect r t ahead next s s' next' skip) (hs : StackGrouped s) : StackGrouped s' := by
  cases h with
  | leaf phrase =>
    obtain ⟨hq, hg, hn⟩ := phrase.single_lexeme
    exact hs.attach (Tree.wellGrouped_of_nodes hn hg) (hq ▸ s.accepts_none)
  | unary => exact ⟨trivial, s.accepts_cast, hs⟩
  | cast => exact ⟨trivial, s.accepts_cast, hs⟩
  | @binary _ op _ _ _ taken =>
    obtain ⟨hs', ha, hl, hk⟩ := hs.takeLeft op.fair taken
    exact ⟨⟨hl, Binding.keepsWhole_iff.1 hk⟩, ha, hs'⟩
  | condition _ taken =>
    obtain ⟨hs', ha, hl, hk⟩ := hs.takeLeft fair_choice taken
    exact ⟨⟨hl, Binding.keepsWhole_iff.1 hk⟩, ha, hs'⟩
  | separate _ separated =>
    obtain ⟨o, c, y, below, rfl, rfl⟩ := OperandStack.separate_ok separated
    exact hs

/-- The operands of a level are in order, and its arguments are grouped. -/
structure Level.Grouped (l : Level) : Prop where
  operands : StackGrouped l.operands
  args : ∀ a ∈ l.args, a.WellGrouped

theorem Level.Grouped.attach {l : Level} (h : l.Grouped) {x : Tree} (hx : x.WellGrouped)
    (hq : x.precedence? = none) : Level.Grouped { l with operands := l.operands.attach x } :=
  ⟨h.operands.attach hx (hq ▸ l.operands.accepts_none), h.args⟩

theorem Level.Arguments.grouped {bare : Bool} {s : OperandStack} {args written : List Tree}
    (h : Level.Arguments bare s args written) (hs : StackGrouped s)
    (ha : ∀ a ∈ args, a.WellGrouped) : ∀ a ∈ written, a.WellGrouped := by
  cases h with
  | bare => exact ha
  | last =>
    intro a hm
    rcases List.mem_append.1 hm with hm | hm
    · exact ha a hm
    · rw [List.mem_singleton.1 hm]
      exact hs.1

theorem wellGrouped_of_fills {close : Lexeme} {vs : List Value} {ts : List Tree}
    (h : Fills close vs ts) : ∀ a ∈ ts, a.WellGrouped := by
  induction h with
  | nil => simp
  | cons hv _ ih =>
    obtain ⟨id, rfl⟩ := hv
    intro a ha
    rcases List.mem_cons.1 ha with rfl | ha
    · exact Tree.wellGrouped_of_nodes rfl trivial
    · exact ih a ha

theorem Move.grouped {st st' : ParseState} (m : Move r t ahead st st')
    (h : ∀ l ∈ st.level :: st.outer, l.Grouped) : ∀ l ∈ st'.level :: st'.outer, l.Grouped := by
  obtain ⟨hl, ho⟩ := List.forall_mem_cons.1 h
  cases m with
  | operands effect => exact List.forall_mem_cons.2 ⟨⟨effect.grouped hl.operands, hl.args⟩, ho⟩
  | comma =>
    have hargs := Level.Arguments.last.grouped hl.operands hl.args
    exact List.forall_mem_cons.2 ⟨⟨trivial, hargs⟩, ho⟩
  | openGroup => exact List.forall_mem_cons.2 ⟨⟨trivial, nofun⟩, h⟩
  | openCall => exact List.forall_mem_cons.2 ⟨⟨trivial, nofun⟩, h⟩
  | closeGroup =>
    obtain ⟨hm, ho⟩ := List.forall_mem_cons.1 ho
    exact List.forall_mem_cons.2 ⟨hm.attach (Tree.wellGrouped_group.2 hl.operands.1) rfl, ho⟩
  | closeCall complete =>
    obtain ⟨hm, ho⟩ := List.forall_mem_cons.1 ho
    refine List.forall_mem_cons.2 ⟨hm.attach (Tree.wellGrouped_call.2 fun a ha => ?_) rfl, ho⟩
    rcases List.mem_append.1 ha with ha | ha
    · exact complete.grouped hl.operands hl.args a ha
    · exact wellGrouped_of_fills (fills_fillsFrom ..) a ha

/-- In a parsed tree every operand of an operator or a cast binds tightly enough for its place. -/
theorem parse_wellGrouped {limits : Limits} {s : TokenStream} {e : Expr}
    (h : parse s r limits = .ok e) : ∀ n ∈ e.tree.nodes, n.Grouped := by
  have hinv := parse_invariant (P := fun levels _ => ∀ l ∈ levels, Level.Grouped l)
    (List.forall_mem_singleton.2 ⟨trivial, nofun⟩) (fun m hp => m.grouped hp) h
  exact (hinv.1 _ (List.mem_singleton_self _)).operands.1

theorem parse_wellGrouped_sample : sampleTree.WellGrouped := parse_wellGrouped parse_sample

end ExprEngine
