import ExprEngine.Proofs.Parse.Move
import ExprEngine.Proofs.Parse.Strength

/-!
# Steps that have room

The other direction of what a step does: within the limits it succeeds. An infix operator gets back
the stack as it was before its left operand, when the operators that wait there bind more loosely.

* `OperandStack.Admits`       every operator that waits on top would give up an operand;
* `takeLeft_attach`           the left operand is the tree that was handed over last;
* `place_of_room` and others  one lemma for each function a step is made of.
-/

namespace ExprEngine

namespace OperandStack

/-! ## taking back an operand -/

/-- Whether an operator takes just the operand that is handed over next: the operators it would
complete do not stay whole. A choice takes its first branch apart from them. -/
def Admits (b : Binding) : OperandStack → Prop
  | .pending (.condition _ _) :: _ => True
  | .pending (.branch _ _ _) :: _ => True
  | .pending p :: below => b.keepsWhole p.tree = false ∧ Admits b below
  | _ => True

variable {b : Binding} {max : Nat} {here : Lexeme}

/-- A tree that was handed over is reopened like any other, whatever it completed. -/
theorem takeLeft_attach_reopen (hb : b.Fair) {s : OperandStack} {t : Tree} (hs : s.Admits b)
    (hl : (s.reopened (t.reopen b).1).length ≤ max) :
    takeLeft max b here (s.attach t) = .ok ((t.reopen b).2, s.reopened (t.reopen b).1) := by
  fun_induction attach s t with
  | case1 p below t t' hf ih =>
    -- the completed operator is no stronger than the one that takes its operand
    cases p with
    | unary o op => exact absurd (hb.keepsWhole_of_binding? rfl) (by rw [hs.1]; exact Bool.false_ne_true)
    | cast o ty => exact absurd (hb.keepsWhole_of_binding? rfl) (by rw [hs.1]; exact Bool.false_ne_true)
    | binary o op l =>
      cases hf
      obtain ⟨hk, hbelow⟩ := hs
      have hr : (Tree.binary o op l t).reopen b =
          (.binary o op l :: (t.reopen b).1, (t.reopen b).2) := by
        rw [Tree.reopen, if_neg]
        exact fun h => Bool.false_ne_true (hk.symm.trans h)
      rw [ih hbelow (by rw [hr]; exact hl), hr]
      rfl
    | condition => cases hf
    | branch => cases hf
    | otherwise o c y =>
      cases hf
      obtain ⟨hk, hbelow⟩ := hs
      have hr : (Tree.choice o c y t).reopen b =
          (.otherwise o c y :: (t.reopen b).1, (t.reopen b).2) := by
        rw [Tree.reopen, if_neg]
        exact fun h => Bool.false_ne_true (hk.symm.trans h)
      rw [ih hbelow (by rw [hr]; exact hl), hr]
      rfl
  | case2 p below t p' hf =>
    cases p with
    | condition o c =>
      cases hf
      have hp : pushAll max (.condition o c :: (t.reopen b).1) below =
          .ok (reopened (.condition o c :: (t.reopen b).1) below) := pushAll_of_le hl
      rw [takeLeft, Entry.leftOperand]
      dsimp only
      rw [hp]
      rfl
    | branch => cases hf
    | _ => cases hf
  | case3 p below t hf =>
    rw [takeLeft, Entry.leftOperand]
    dsimp only
    rw [pushAll_of_le hl]
  | case4 s t _ =>
    rw [takeLeft, Entry.leftOperand]
    dsimp only
    rw [pushAll_of_le hl]

/-- The left operand is the tree that was handed over last, and the stack is as before it. -/
theorem takeLeft_attach (hb : b.Fair) {s : OperandStack} {t : Tree} (hs : s.Admits b)
    (ht : b.keepsWhole t = true) (hl : s.length ≤ max) :
    takeLeft max b here (s.attach t) = .ok (t, s) := by
  have hr := Tree.reopen_of_keepsWhole ht
  rw [takeLeft_attach_reopen hb hs (by rw [hr]; exact hl), hr]
  rfl

/-! ## tighter operators -/

/-- A tighter operator takes an operand from the same operators, and from more. -/
theorem Admits.mono {b' : Binding} (hb : b.Fair) (hb' : b'.Fair)
    (hle : b.precedence ≤ b'.precedence) {s : OperandStack} (hs : s.Admits b) : s.Admits b' := by
  have whole : ∀ {t : Tree} {q : Nat}, t.precedence? = some q → b.keepsWhole t = false →
      b'.keepsWhole t = false := by
    intro t q hq h
    have hn : ¬ b.keepsWhole t = true := by rw [h]; exact Bool.false_ne_true
    rw [hb.keepsWhole_iff hq] at hn
    refine Bool.not_eq_true _ ▸ fun hk => ?_
    rw [hb'.keepsWhole_iff hq] at hk
    exact hn ⟨Nat.le_trans hle hk.1, hk.2⟩
  fun_induction Admits b s with
  | case1 => exact trivial
  | case2 => exact trivial
  | case3 p below _ _ ih =>
    obtain ⟨hk, hbelow⟩ := hs
    have hp : b'.keepsWhole p.tree = false := by
      cases p <;> exact whole rfl hk
    cases p with
    | condition => exact trivial
    | branch => exact trivial
    | _ => exact ⟨hp, ih hbelow⟩
  | case4 s _ _ hn =>
    cases s with
    | nil => exact trivial
    | cons e below =>
      cases e with
      | done => exact trivial
      | pending p => exact absurd rfl (hn p below)

/-- What waits between its operands lets an operator take its last one. -/
theorem Admits.pending (hb : b.Fair) {p : Pending} {q : Nat} (hp : p.tree.precedence? = some q)
    (hq : q < b.precedence ∨ q ≤ 1) {s : OperandStack} (hs : s.Admits b) :
    Admits b (.pending p :: s) := by
  have hk : b.keepsWhole p.tree = false := by
    refine Bool.not_eq_true _ ▸ fun h => ?_
    rw [hb.keepsWhole_iff hp] at h
    omega
  cases p with
  | condition => exact trivial
  | branch => exact trivial
  | _ => exact ⟨hk, hs⟩

end OperandStack

/-! ## steps -/

/-- Room for so many parts more. -/
structure Room (limits : Limits) (size operands nesting next : Nat) : Prop where
  parts : next + size ≤ limits.maxParts
  operands : operands + size ≤ limits.maxOperands
  nesting : nesting + size ≤ limits.maxNesting

namespace ParseState

variable {r : Registry} {limits : Limits} {t : Lexeme} {ahead : List Lexeme} {l : Level}
  {outer : List Level} {next skip : Nat}

theorem alloc_of_room {token : Nat} {span : Span} (h : next < limits.maxParts) :
    alloc limits token span ⟨l, outer, next, skip⟩ =
      .ok (⟨next, token, span⟩, ⟨l, outer, next + 1, skip⟩) :=
  if_neg (Nat.not_le_of_lt h)

theorem place_of_room {token : Nat} {span : Span} {make : Origin → Tree}
    (hp : next < limits.maxParts) (ho : l.operands.length < limits.maxOperands) :
    place limits token span make ⟨l, outer, next, skip⟩ =
      .ok ⟨{ l with operands := l.operands.attach (make ⟨next, token, span⟩) }, outer, next + 1,
        skip⟩ := by
  unfold place
  rw [alloc_of_room hp]
  show (l.operands.connect limits.maxOperands (make ⟨next, token, span⟩) >>= fun s =>
    Except.ok (setOperands ⟨l, outer, next + 1, skip⟩ s)) = _
  rw [OperandStack.connect_of_lt _ ho]
  rfl

theorem await_of_room {token : Nat} {span : Span} {make : Origin → Pending}
    (hp : next < limits.maxParts) (ho : l.operands.length < limits.maxOperands) :
    await limits token span make ⟨l, outer, next, skip⟩ =
      .ok ⟨{ l with operands := .pending (make ⟨next, token, span⟩) :: l.operands }, outer,
        next + 1, skip⟩ := by
  unfold await
  rw [alloc_of_room hp]
  show (l.operands.push limits.maxOperands (.pending (make ⟨next, token, span⟩)) >>= fun s =>
    Except.ok (setOperands ⟨l, outer, next + 1, skip⟩ s)) = _
  rw [OperandStack.push_of_lt _ ho]
  rfl

/-- An infix operator takes the tree that was handed over last. -/
theorem infixOperator_of_room {b : Binding} (hb : b.Fair) {make : Tree → Origin → Pending}
    {s : OperandStack} {left : Tree} (hs : s.Admits b) (hk : b.keepsWhole left = true)
    (hp : next < limits.maxParts) (ho : s.length < limits.maxOperands) :
    infixOperator limits t b make ⟨{ l with operands := s.attach left }, outer, next, skip⟩ =
      .ok ⟨{ l with operands := .pending (make left ⟨next, t.index, t.span⟩) :: s }, outer,
        next + 1, skip⟩ := by
  unfold infixOperator
  rw [OperandStack.takeLeft_attach hb hs hk (Nat.le_of_lt ho)]
  exact await_of_room (l := { l with operands := s }) hp ho

theorem descend_of_room {opening : Lexeme} {bracket : Bracket} {skip' : Nat}
    (h : outer.length < limits.maxNesting) :
    descend limits opening bracket skip' ⟨l, outer, next, skip⟩ =
      .ok ⟨{ bracket }, l :: outer, next, skip'⟩ :=
  if_neg (Nat.not_le_of_lt h)

theorem fillDefaults_of_room {close : Lexeme} {vs : List Value}
    (h : next + vs.length ≤ limits.maxParts) :
    fillDefaults limits close vs ⟨l, outer, next, skip⟩ =
      .ok (fillsFrom close next vs, ⟨l, outer, next + vs.length, skip⟩) := by
  induction vs generalizing next with
  | nil => rfl
  | cons v vs ih =>
    rw [List.length_cons] at h
    unfold fillDefaults
    rw [alloc_of_room (by omega)]
    show (fillDefaults limits close vs ⟨l, outer, next + 1, skip⟩ >>= fun p =>
      Except.ok (Tree.constant ⟨next, close.index, close.span⟩ v :: p.1, p.2)) = _
    rw [ih (by omega), List.length_cons, Nat.add_comm vs.length, ← Nat.add_assoc]
    rfl

theorem resolveCall_of_resolve {name : Lexeme} {count : Nat} {f : FuncId}
    (hc : count ≤ maxArguments) (h : r.resolve name.text count = .ok f) :
    resolveCall r name count = .ok f := by
  unfold resolveCall
  rw [if_neg (Nat.not_lt_of_le hc), h]

/-! ## looking ahead -/

theorem within_append {st : ParseState} {us : List Lexeme} (h : ∀ u ∈ us, st.level.Holds u) :
    st.within (us ++ ahead) = us ++ st.within ahead := by
  unfold within
  split
  · rfl
  · rename_i close hc
    exact List.takeWhile_append_of_pos fun u hu => decide_eq_true (h u hu close hc)

theorem mem_head?_within {st : ParseState} {u : Lexeme} (h : u ∈ (st.within ahead).head?) :
    u ∈ ahead.head? := by
  unfold within at h
  split at h
  · exact h
  · cases ahead with
    | nil => cases h
    | cons v vs =>
      rw [List.takeWhile_cons] at h
      split at h
      · exact h
      · cases h

/-! ## runs -/

theorem run_cons {st st' : ParseState} (h : st.step r limits t ahead = .ok st') :
    run r limits (t :: ahead) st = run r limits ahead st' := by
  rw [run, h]

theorem run_skip :
    run r limits (t :: ahead) ⟨l, outer, next, skip + 1⟩ =
      run r limits ahead ⟨l, outer, next, skip⟩ := rfl

theorem step_token (ht : l.Holds t) : step r limits t ahead ⟨l, outer, next, 0⟩ =
    token r limits t ahead ⟨l, outer, next, 0⟩ :=
  if_neg fun h => Nat.lt_irrefl _ (ht _ h)

theorem step_ascend (ht : l.bracket.close? = some t.index) :
    step r limits t ahead ⟨l, outer, next, 0⟩ = ascend r limits ⟨l, outer, next, 0⟩ :=
  if_pos ht

end ParseState
end ExprEngine
