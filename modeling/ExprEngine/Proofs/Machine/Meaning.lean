import ExprEngine.Engine

/-!
# The meaning of a tree

An evaluator by recursion on the tree. It has no stack and no schedule: every operand is evaluated
where it stands, from left to right, and then the operands are combined.

* `Evaluation`           a computation on the world that may fail;
* `Setting`              what an evaluation knows besides the tree;
* `Tree.eval`            the value of a tree;
* `Tree.callees`         the functions that a tree calls, in order;
* `Expression.meaning`   the value of an expression in a context, and the world after it.
-/

namespace ExprEngine

/-- A computation on the world that may fail. What it did before it failed stays done. -/
abbrev Evaluation (σ : Type) := ExceptT EvalError (StateM (World σ))

namespace Evaluation

variable {σ α β : Type} {w : World σ}

theorem bind_apply {x : Evaluation σ α} {f : α → Evaluation σ β} :
    (x >>= f) w = match x w with
      | (.ok a, w') => f a w'
      | (.error e, w') => (.error e, w') := by
  show (ExceptT.bindCont f) (x w).1 (x w).2 = _
  rcases x w with ⟨_ | a, w'⟩
  · rfl
  · rfl

theorem lift_apply {x : Except EvalError α} : (liftM x : Evaluation σ α) w = (x, w) := by
  cases x with
  | ok a => rfl
  | error e => rfl

theorem bind_ok {x : Evaluation σ α} {f : α → Evaluation σ β} {b : β} {w' : World σ} :
    (x >>= f) w = (.ok b, w') ↔ ∃ a w₁, x w = (.ok a, w₁) ∧ f a w₁ = (.ok b, w') := by
  rw [bind_apply]
  rcases x w with ⟨e | a, w₁⟩
  · exact ⟨nofun, nofun⟩
  · refine ⟨fun h => ⟨a, w₁, rfl, h⟩, ?_⟩
    rintro ⟨a', w₁', ha, h⟩
    cases ha
    exact h

theorem lift_ok {x : Except EvalError α} {a : α} {w' : World σ} :
    (liftM x : Evaluation σ α) w = (.ok a, w') ↔ x = .ok a ∧ w' = w := by
  rw [lift_apply, Prod.mk.injEq, eq_comm (a := w)]

end Evaluation

/-- What an evaluation knows besides the tree. -/
structure Setting (σ : Type) where
  registry : Registry
  callbacks : List (Callback σ)
  types : TypeTable

namespace Setting

variable {σ : Type} (g : Setting σ)

def declared (o : Origin) (x : VarId) : Evaluation σ Variable :=
  match g.registry.variableAt? x with
  | some v => pure v
  | none => throw (o.evalError .missingContext)

/-- The stored value of a variable, in the type it is declared with. -/
def read (o : Origin) (x : VarId) (v : Variable) : Evaluation σ Value := do
  let w ← get
  Machine.located o (Machine.readBinding w.state x v)

def write (x : VarId) (v : Value) : Evaluation σ Unit :=
  modify fun w => { w with state := w.state.store x v }

/-- An operator that is no assignment, with the values of its operands. A connective takes them as
they are. -/
def operate (o : Origin) (op : BinaryOp) (left right : Value) : Evaluation σ Value :=
  match op with
  | .logic op => Machine.located o (op.apply left right)
  | op => do
    let left ← Machine.convert o left (g.types.operand o.id)
    let right ← Machine.convert o right (g.types.operand o.id)
    Machine.located o (op.apply left right)

/-- The variable that an assignment writes. -/
def target (o : Origin) : Tree → Evaluation σ (VarId × Variable)
  | .reference _ x => do
    let v ← g.declared o x
    return (x, v)
  | _ => throw (o.evalError .uncheckedOperand)

/-- What an assignment of a value writes. A compound one combines the old value with it first. -/
def combine (o : Origin) (op : BinaryOp) (x : VarId) (v : Variable) (value : Value) :
    Evaluation σ Value :=
  match op with
  | .compound op => do
    let old ← read o x v
    let old ← Machine.convert o old (g.types.operand o.id)
    let value ← Machine.convert o value (g.types.operand o.id)
    let combined ← Machine.located o (op.base.apply old value)
    Machine.convert o combined v.type
  | _ => Machine.convert o value v.type

/-- An assignment of a value. It has the value that it writes. -/
def assign (o : Origin) (op : BinaryOp) (l : Tree) (value : Value) : Evaluation σ Value := do
  let (x, v) ← g.target o l
  let new ← g.combine o op x v value
  write x new
  return new

/-- One call of a callback. It is put down with the arguments it received. -/
def invoke (f : FuncId) (args : List Value) : Evaluation σ Value :=
  modifyGet fun w =>
    let reply := match g.callbacks[f]? with
      | some callback => callback w.state.memory w.state.values args
      | none => { value := .void, memory := w.state.memory }
    (reply.value, ⟨w.state.afterReply g.registry reply, w.calls ++ [⟨f, args⟩]⟩)

/-- A call of a function with some values. -/
def call (o : Origin) (f : FuncId) (values : List Value) : Evaluation σ Value :=
  match g.registry.functionAt? f with
  | none => throw (o.evalError .missingContext)
  | some sig =>
    if values.length ≠ sig.arity then throw (o.evalError .uncheckedOperand)
    else do
      let args ← Machine.convertArguments o values sig.parameters
      let value ← g.invoke f args
      Machine.returned o sig value

end Setting

namespace Tree

variable {σ : Type}

mutual

/-- The value of a tree. All operands are evaluated, from left to right, whatever they turn out to
be. An assignment evaluates only its right side. -/
def eval (g : Setting σ) : Tree → Evaluation σ Value
  | .hole => throw (hole.origin.evalError .noValue)
  | .constant _ v => pure v
  | .reference o x => do
    let v ← g.declared o x
    Setting.read o x v
  | .group _ x => eval g x
  | .cast o type x => do
    let v ← eval g x
    Machine.convert o v type
  | .unary o op x => do
    let v ← eval g x
    let v ← Machine.convert o v (g.types.operand o.id)
    Machine.located o (op.apply v)
  | .choice o c y n => do
    let cond ← eval g c
    let yes ← eval g y
    let no ← eval g n
    let b ← Machine.located o cond.truth
    Machine.convert o (if b then yes else no) (g.types.result o.id)
  | .binary o op l x =>
    if op.isAssignment then do
      let value ← eval g x
      g.assign o op l value
    else do
      let left ← eval g l
      let right ← eval g x
      g.operate o op left right
  | .call o f args => do
    let values ← evalAll g args
    g.call o f values

/-- The values of some trees, from left to right. -/
def evalAll (g : Setting σ) : List Tree → Evaluation σ (List Value)
  | [] => pure []
  | t :: ts => do
    let v ← eval g t
    let vs ← evalAll g ts
    return v :: vs

end

mutual

/-- The functions that a tree calls, in the order of their calls: one for every call part. -/
def callees : Tree → List FuncId
  | .hole => []
  | .constant _ _ => []
  | .reference _ _ => []
  | .unary _ _ x => x.callees
  | .binary _ _ l x => l.callees ++ x.callees
  | .choice _ c y n => c.callees ++ y.callees ++ n.callees
  | .cast _ _ x => x.callees
  | .group _ x => x.callees
  | .call _ f args => calleesAll args ++ [f]

def calleesAll : List Tree → List FuncId
  | [] => []
  | t :: ts => t.callees ++ calleesAll ts

end

end Tree

/-- The value of an expression in a context, and the world after it: the state, and the calls. -/
def Expression.meaning {σ : Type} (e : Expression) (c : Context σ) :
    Except EvalError Value × World σ :=
  (e.expr.tree.eval ⟨c.registry, c.callbacks, e.types⟩).run.run { state := c.state }

end ExprEngine
