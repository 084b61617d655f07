import ExprEngine.Proofs.Machine.Congruence
import ExprEngine.Proofs.Machine.Frame
import ExprEngine.Proofs.Typing.Compound

/-!
# Values of compound assignments

A compound assignment reads its variable after the value was computed, and the assignment written
out reads it before. The two succeed together when the value leaves the variable alone.

* `eval_value`             a variable that a tree leaves alone;
* `CompoundOp.Updates`     what a compound assignment makes of the old value;
* `eval_compounded`, `eval_expanded`   when the two forms succeed, and what they leave.
-/

namespace ExprEngine

variable {σ : Type}

/-- A variable whose cell neither a tree nor a callback writes has its old value after the tree. -/
theorem Machine.eval_value {m : Machine σ} {t : Tree} (ht : t.Complete) (room : t.demand ≤ m.maxValues)
    {w : World σ} {x : VarId} (hx : ∀ y ∈ t.targets, ¬ w.state.Shares x y)
    (hhost : ¬ m.HostSets t.schedule [] w x) :
    (t.eval m.setting w).2.state.value x = w.state.value x := by
  rcases run_value hhost with hsame | ⟨y, htarget, hshares, -⟩
  · rwa [run_schedule ht room] at hsame
  · exact absurd hshares (hx y (Tree.mem_targets_of_mem_schedule htarget))

/-! ## the two forms -/

/-- What a compound assignment makes of the old value of a variable and another value: the operator
applied in the type that it computes in, in the type of the variable. -/
def CompoundOp.Updates (op : CompoundOp) (u t : ValueType) (old value new : Value) : Prop :=
  ∃ a b z, old.cast? u = some a ∧ value.cast? u = some b ∧ op.base.apply a b = .ok z ∧
    z.cast? t = some new

/-- The world with a variable written. -/
def World.put (w : World σ) (x : VarId) (v : Value) : World σ :=
  { w with state := w.state.store x v }

namespace Setting

variable {g : Setting σ} {o : Origin} {x : VarId} {v : Variable} {w w' : World σ}

theorem declared_of_variableAt? (hx : g.registry.variableAt? x = some v) :
    g.declared o x = pure v := by
  rw [declared, hx]

theorem read_eq_ok {u : Value} :
    read o x v w = (.ok u, w') ↔ Machine.readBinding w.state x v = .ok u ∧ w' = w := by
  rw [read_apply, Prod.mk.injEq, Machine.located_eq_ok, eq_comm (a := w)]

theorem operate_base_eq_ok {op : CompoundOp} {left right z : Value} :
    g.operate o op.base left right w = (.ok z, w') ↔
      (∃ a b, left.cast? (g.types.operand o.id) = some a ∧
        right.cast? (g.types.operand o.id) = some b ∧ op.base.apply a b = .ok z) ∧ w' = w := by
  have hoperate : g.operate o op.base left right = (do
      let left ← Machine.convert o left (g.types.operand o.id)
      let right ← Machine.convert o right (g.types.operand o.id)
      Machine.located o (op.base.apply left right) : Evaluation σ Value) := by
    cases op <;> rfl
  rw [hoperate]
  simp only [Evaluation.bind_ok, Evaluation.lift_ok, Machine.convert_eq_ok,
    Machine.located_eq_ok]
  constructor
  · rintro ⟨a, _, ⟨ha, rfl⟩, b, _, ⟨hb, rfl⟩, hz, rfl⟩
    exact ⟨⟨a, b, ha, hb, hz⟩, rfl⟩
  · rintro ⟨⟨a, b, ha, hb, hz⟩, rfl⟩
    exact ⟨a, _, ⟨ha, rfl⟩, b, _, ⟨hb, rfl⟩, hz, rfl⟩

/-- An assignment computes what it writes, and writes it. -/
theorem assign_eq_ok (hx : g.registry.variableAt? x = some v) {o₁ : Origin} {op : BinaryOp}
    {value new : Value} :
    g.assign o op (.reference o₁ x) value w = (.ok new, w') ↔
      ∃ w₁, g.combine o op x v value w = (.ok new, w₁) ∧ w' = w₁.put x new := by
  have hassign : g.assign o op (.reference o₁ x) value = (do
      let new ← g.combine o op x v value
      write x new
      return new) := by
    rw [assign, target, declared_of_variableAt? hx]
    rfl
  rw [hassign, Evaluation.bind_ok]
  constructor
  · rintro ⟨u, w₁, hu, hwrite⟩
    cases hwrite
    exact ⟨w₁, hu, rfl⟩
  · rintro ⟨w₁, hnew, rfl⟩
    exact ⟨new, w₁, hnew, rfl⟩

theorem combine_assign_eq_ok {value new : Value} :
    g.combine o .assign x v value w = (.ok new, w') ↔ value.cast? v.type = some new ∧ w' = w := by
  rw [combine, Evaluation.lift_ok, Machine.convert_eq_ok]
  exact nofun

theorem combine_compound_eq_ok {op : CompoundOp} {value new : Value} :
    g.combine o (.compound op) x v value w = (.ok new, w') ↔
      (∃ old, Machine.readBinding w.state x v = .ok old ∧
        op.Updates (g.types.operand o.id) v.type old value new) ∧ w' = w := by
  unfold combine
  dsimp only
  simp only [Evaluation.bind_ok, Evaluation.lift_ok, Machine.convert_eq_ok,
    Machine.located_eq_ok, read_eq_ok]
  constructor
  · rintro ⟨old, _, ⟨hold, rfl⟩, a, _, ⟨ha, rfl⟩, b, _, ⟨hb, rfl⟩, z, _, ⟨hz, rfl⟩, hnew, rfl⟩
    exact ⟨⟨old, hold, a, b, z, ha, hb, hz, hnew⟩, rfl⟩
  · rintro ⟨⟨old, hold, a, b, z, ha, hb, hz, hnew⟩, rfl⟩
    exact ⟨old, _, ⟨hold, rfl⟩, a, _, ⟨ha, rfl⟩, b, _, ⟨hb, rfl⟩, z, _, ⟨hz, rfl⟩, hnew, rfl⟩

end Setting

namespace Tree

variable {g : Setting σ} {o o₁ o₂ o₃ o₄ : Origin} {op : CompoundOp} {x : VarId} {v : Variable}
  {t : Tree} {w w' : World σ} {new : Value}

theorem eval_assignment {op : BinaryOp} {l r : Tree} (assigns : op.isAssignment = true) :
    (binary o op l r).eval g = (do
      let value ← r.eval g
      g.assign o op l value) := by
  rw [eval, if_pos assigns]

theorem eval_operation {op : BinaryOp} {l r : Tree} (plain : op.isAssignment = false) :
    (binary o op l r).eval g = (do
      let left ← l.eval g
      let right ← r.eval g
      g.operate o op left right) := by
  rw [eval, if_neg (by rw [plain]; exact Bool.false_ne_true)]

theorem demand_compounded {op : CompoundOp} {x : VarId} : (compounded op x t).demand = t.demand := rfl

theorem demand_expanded {op : CompoundOp} {x : VarId} :
    (expanded op x t).demand = t.demand + 1 := by
  have hcombined : (combined op x t).demand = max 1 (t.demand + 1) := by
    rw [combined, demand, op.base_isAssignment]
    rfl
  exact hcombined.trans (by omega)

/-- A compound assignment reads its variable after the value. -/
theorem eval_compounded (hx : g.registry.variableAt? x = some v) :
    (binary o (.compound op) (.reference o₁ x) (.group o₂ t)).eval g w = (.ok new, w') ↔
      ∃ value w₁ old, t.eval g w = (.ok value, w₁) ∧
        Machine.readBinding w₁.state x v = .ok old ∧
        op.Updates (g.types.operand o.id) v.type old value new ∧ w' = w₁.put x new := by
  rw [eval_assignment rfl, eval, Evaluation.bind_ok]
  simp only [Setting.assign_eq_ok hx, Setting.combine_compound_eq_ok]
  constructor
  · rintro ⟨value, w₁, hvalue, _, ⟨⟨old, hold, hnew⟩, rfl⟩, rfl⟩
    exact ⟨value, _, old, hvalue, hold, hnew, rfl⟩
  · rintro ⟨value, w₁, old, hvalue, hold, hnew, rfl⟩
    exact ⟨value, w₁, hvalue, _, ⟨⟨old, hold, hnew⟩, rfl⟩, rfl⟩

/-- The assignment written out reads its variable before the value. -/
theorem eval_expanded (hx : g.registry.variableAt? x = some v) :
    (binary o .assign (.reference o₁ x)
        (binary o₂ op.base (.reference o₃ x) (.group o₄ t))).eval g w = (.ok new, w') ↔
      ∃ value w₁ old, t.eval g w = (.ok value, w₁) ∧
        Machine.readBinding w.state x v = .ok old ∧
        op.Updates (g.types.operand o₂.id) v.type old value new ∧ w' = w₁.put x new := by
  rw [eval_assignment rfl, eval_operation op.base_isAssignment, eval, eval,
    Setting.declared_of_variableAt? hx, pure_bind]
  simp only [Evaluation.bind_ok, Setting.read_eq_ok, Setting.operate_base_eq_ok,
    Setting.assign_eq_ok hx, Setting.combine_assign_eq_ok]
  constructor
  · rintro ⟨z, _, ⟨old, _, ⟨hold, rfl⟩, value, w₁, hvalue, ⟨a, b, ha, hb, hz⟩, rfl⟩, _,
      ⟨hnew, rfl⟩, rfl⟩
    exact ⟨value, _, old, hvalue, hold, ⟨a, b, z, ha, hb, hz, hnew⟩, rfl⟩
  · rintro ⟨value, w₁, old, hvalue, hold, ⟨a, b, z, ha, hb, hz, hnew⟩, rfl⟩
    exact ⟨z, _, ⟨old, _, ⟨hold, rfl⟩, value, w₁, hvalue, ⟨a, b, ha, hb, hz⟩, rfl⟩, _,
      ⟨hnew, rfl⟩, rfl⟩

end Tree
end ExprEngine
