import ExprEngine.Proofs.Parse.Operands

/-!
# How tightly operators bind

Strengths run from one, that of the assignments, to twelve, that of a cast. Only the assignments
group to the right, so the strength of an operator alone decides which trees stay whole before it.

* `Binding.Fair`                a binding that an operator competes with;
* `Binding.Fair.keepsWhole_iff` what stays whole before it;
* `Tree.binding?`               the binding of the operator at the top of a tree.
-/

namespace ExprEngine

/-! ## strengths -/

theorem BinaryOp.precedence_lt (op : BinaryOp) : op.precedence < castPrecedence := by
  rcases op with op | op | op | op | _ | op <;> (try cases op) <;> decide

theorem BinaryOp.isAssignment_iff (op : BinaryOp) : op.isAssignment = true ↔ op.precedence = 1 := by
  rcases op with op | op | op | op | _ | op <;> (try cases op) <;> decide

theorem BinaryOp.one_le_precedence (op : BinaryOp) : 1 ≤ op.precedence := by
  rcases op with op | op | op | op | _ | op <;> (try cases op) <;> decide

theorem Tree.BindsFrom.le {t : Tree} {p q : Nat} (h : t.BindsFrom q) (hpq : p ≤ q) :
    t.BindsFrom p := fun k hk => Nat.le_trans hpq (h k hk)

theorem Tree.bindsFrom_iff {t : Tree} {p q : Nat} (h : t.precedence? = some q) :
    t.BindsFrom p ↔ p ≤ q := by
  unfold Tree.BindsFrom
  rw [h]
  exact ⟨fun hp => hp q rfl, fun hp k hk => Option.some.inj hk ▸ hp⟩

/-! ## bindings -/

/-- The bindings that operators compete with. -/
structure Binding.Fair (b : Binding) : Prop where
  pos : 1 ≤ b.precedence
  lt_cast : b.precedence < castPrecedence
  assigns : b.rightAssociative = true ↔ b.precedence = 1

theorem BinaryOp.fair (op : BinaryOp) : Binding.Fair ⟨op.precedence, op.isAssignment⟩ :=
  ⟨op.one_le_precedence, op.precedence_lt, op.isAssignment_iff⟩

theorem fair_choice : Binding.Fair ⟨choicePrecedence, false⟩ := ⟨by decide, by decide, by decide⟩

/-- The binding of the operator at the top of a tree that takes a left operand. -/
def Tree.binding? : Tree → Option Binding
  | .binary _ op _ _ => some ⟨op.precedence, op.isAssignment⟩
  | .choice _ _ _ _ => some ⟨choicePrecedence, false⟩
  | _ => none

variable {b : Binding} {t : Tree}

theorem Tree.fair_of_binding? (h : t.binding? = some b) : b.Fair := by
  cases t with
  | binary o op l x =>
    cases h
    exact op.fair
  | choice =>
    cases h
    exact fair_choice
  | _ => cases h

theorem Tree.precedence?_of_binding? (h : t.binding? = some b) :
    t.precedence? = some b.precedence := by
  cases t with
  | binary =>
    cases h
    rfl
  | choice =>
    cases h
    rfl
  | _ => cases h

/-- A tree as strong as a cast takes no left operand. -/
theorem Tree.binding?_eq_none (h : ∀ q, t.precedence? = some q → q = castPrecedence) :
    t.binding? = none := by
  rw [Option.eq_none_iff_forall_ne_some]
  intro b hb
  have hq := h _ (Tree.precedence?_of_binding? hb)
  exact absurd hq (Nat.ne_of_lt (Tree.fair_of_binding? hb).lt_cast)

theorem Binding.keepsWhole_iff : b.keepsWhole t = true ↔
    t.BindsFrom (if b.rightAssociative then b.precedence + 1 else b.precedence) := by
  unfold Binding.keepsWhole
  cases hp : t.precedence? with
  | none => simp [Tree.BindsFrom, hp]
  | some p =>
    rw [Tree.bindsFrom_iff hp, Bool.or_eq_true, Bool.and_eq_true, decide_eq_true_iff, beq_iff_eq]
    cases b.rightAssociative with
    | false =>
      simp only [Bool.not_false, and_true, Bool.false_eq_true, if_false]
      omega
    | true =>
      simp only [Bool.not_true, Bool.false_eq_true, and_false, or_false, if_true]
      omega

/-- An operator stays whole before another that binds no tighter, except for an assignment. -/
theorem Binding.Fair.keepsWhole_iff (hb : b.Fair) {q : Nat} (ht : t.precedence? = some q) :
    b.keepsWhole t = true ↔ b.precedence ≤ q ∧ 2 ≤ q := by
  rw [Binding.keepsWhole_iff, Tree.bindsFrom_iff ht]
  have hpos := hb.pos
  split
  · rename_i hr
    have := hb.assigns.1 hr
    omega
  · rename_i hr
    have : b.precedence ≠ 1 := fun e => hr (hb.assigns.2 e)
    omega

/-- What takes no left operand stays whole. -/
theorem Binding.Fair.keepsWhole_of_binding? (hb : b.Fair) (ht : t.binding? = none) :
    b.keepsWhole t = true := by
  have hlt := hb.lt_cast
  cases t with
  | binary => cases ht
  | choice => cases ht
  | unary => exact (hb.keepsWhole_iff rfl).2 ⟨Nat.le_of_lt hlt, by decide⟩
  | cast => exact (hb.keepsWhole_iff rfl).2 ⟨Nat.le_of_lt hlt, by decide⟩
  | _ => rfl

theorem Tree.reopen_of_keepsWhole (h : b.keepsWhole t = true) : t.reopen b = ([], t) := by
  cases t with
  | binary => rw [Tree.reopen, if_pos h]
  | choice => rw [Tree.reopen, if_pos h]
  | _ => rfl

end ExprEngine
