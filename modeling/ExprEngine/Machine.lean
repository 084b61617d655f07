import ExprEngine.Context
import ExprEngine.Machine.Operation
import ExprEngine.Typing
import ExprEngine.Limits

/-!
# Running a tree

A tree is flattened into its parts, operands before their operator. The machine executes the parts
one after the other on a bounded stack of values. The target of an assignment is no operand: the
assignment itself reads and writes its variable.

* `Tree.schedule`      the parts in order of execution;
* `Machine.step`       one part;
* `Machine.run`        some parts, up to the first error;
* `evaluate`           the value of an expression, with the state and the calls it leaves.
-/

namespace ExprEngine

/-- An evaluation error, the part it arose at, unless it concerns the whole, and a span. -/
structure EvalError where
  cause : EvalCause
  part : Option PartId
  span : Span
deriving DecidableEq, Repr

def Origin.evalError (o : Origin) (cause : EvalCause) : EvalError := ⟨cause, some o.id, o.span⟩

mutual

/-- The parts of a tree in order of execution: operands from left to right, then the part. The
first operand of an assignment is left out. -/
def Tree.schedule : Tree → List Tree
  | .hole => []
  | .constant o v => [.constant o v]
  | .reference o x => [.reference o x]
  | .unary o op x => x.schedule ++ [.unary o op x]
  | .binary o op l x =>
    (if op.isAssignment then (if l.isHole then [] else x.schedule)
      else l.schedule ++ x.schedule) ++ [.binary o op l x]
  | .choice o c y n => c.schedule ++ y.schedule ++ n.schedule ++ [.choice o c y n]
  | .cast o ty x => x.schedule ++ [.cast o ty x]
  | .group o x => x.schedule ++ [.group o x]
  | .call o f args => scheduleAll args ++ [.call o f args]

def scheduleAll : List Tree → List Tree
  | [] => []
  | t :: ts => t.schedule ++ scheduleAll ts

end

/-- A call of a callback with the arguments it received. -/
structure Call where
  function : FuncId
  args : List Value
deriving DecidableEq

/-- The state during a run, and the calls made so far. -/
structure World (σ : Type) where
  state : State σ
  calls : List Call := []

/-- All that stays the same during a run. -/
structure Machine (σ : Type) where
  registry : Registry
  callbacks : List (Callback σ)
  types : TypeTable
  maxValues : Nat

/-- A stack of values, the newest first. -/
abbrev ValueStack := List Value

namespace Machine
variable {σ : Type}

/-- A value converted to a type that the checker allowed. -/
def convert (o : Origin) (v : Value) (t : ValueType) : Except EvalError Value :=
  match v.cast? t with
  | some w => .ok w
  | none => .error (o.evalError .uncheckedOperand)

def located {α : Type} (o : Origin) : Except EvalCause α → Except EvalError α
  | .ok a => .ok a
  | .error c => .error (o.evalError c)

/-- The topmost value and the stack below. -/
def pop (o : Origin) : ValueStack → Except EvalError (Value × ValueStack)
  | [] => .error (o.evalError (.unbalancedStack 0))
  | v :: s => .ok (v, s)

/-- The topmost values, the oldest first, and the stack below. -/
def popMany (o : Origin) (count : Nat) (s : ValueStack) :
    Except EvalError (List Value × ValueStack) :=
  if s.length < count then .error (o.evalError (.unbalancedStack s.length))
  else .ok ((s.take count).reverse, s.drop count)

/-- One more value, unless the stack is full. -/
def push (m : Machine σ) (o : Origin) (v : Value) (s : ValueStack) : Except EvalError ValueStack :=
  if m.maxValues ≤ s.length then .error (o.evalError (.valueOverflow m.maxValues))
  else .ok (v :: s)

/-- The stored value of a variable in its declared type. -/
def readBinding (w : State σ) (x : VarId) (v : Variable) : Except EvalCause Value :=
  match (w.value x).cast? v.type with
  | some u => .ok u
  | none => .error (.bindingType v.name v.type (w.value x).type)

def declared (m : Machine σ) (o : Origin) (x : VarId) : Except EvalError Variable :=
  match m.registry.variableAt? x with
  | some v => .ok v
  | none => .error (o.evalError .missingContext)

/-- What a part that neither writes nor calls yields, and the stack without its operands. -/
def compute (m : Machine σ) (w : State σ) : Tree → ValueStack →
    Except EvalError (Value × ValueStack)
  | .reference o x, s => do
    let v ← m.declared o x
    let u ← located o (readBinding w x v)
    return (u, s)
  | .cast o target _, s => do
    let (v, s) ← pop o s
    let u ← convert o v target
    return (u, s)
  | .unary o op _, s => do
    let (v, s) ← pop o s
    let v ← convert o v (m.types.operand o.id)
    let u ← located o (op.apply v)
    return (u, s)
  | .choice o _ _ _, s => do
    let (no, s) ← pop o s
    let (yes, s) ← pop o s
    let (cond, s) ← pop o s
    let b ← located o cond.truth
    let u ← convert o (if b then yes else no) (m.types.result o.id)
    return (u, s)
  | .binary o (.logic op) _ _, s => do
    let (right, s) ← pop o s
    let (left, s) ← pop o s
    let u ← located o (op.apply left right)
    return (u, s)
  | .binary o op _ _, s => do
    let (right, s) ← pop o s
    let (left, s) ← pop o s
    let left ← convert o left (m.types.operand o.id)
    let right ← convert o right (m.types.operand o.id)
    let u ← located o (op.apply left right)
    return (u, s)
  | .constant _ v, s => .ok (v, s)
  | t, _ => .error (t.origin.evalError .uncheckedOperand)

/-- What an assignment stores and in which variable, and the stack without its operand. A compound
assignment combines the old value with the operand first. -/
def assignment (m : Machine σ) (w : State σ) (o : Origin) (op : BinaryOp) (target : Tree)
    (s : ValueStack) : Except EvalError (VarId × Value × ValueStack) := do
  let (value, s) ← pop o s
  match target.singleVariable? with
  | none => .error (o.evalError .uncheckedOperand)
  | some x =>
    let v ← m.declared o x
    let combined ← match op with
      | .compound c => do
        let old ← located o (readBinding w x v)
        let old ← convert o old (m.types.operand o.id)
        let value ← convert o value (m.types.operand o.id)
        located o (c.base.apply old value)
      | _ => .ok value
    let new ← convert o combined v.type
    return (x, new, s)

/-- Arguments in the types of the parameters. -/
def convertArguments (o : Origin) : List Value → List Parameter → Except EvalError (List Value)
  | v :: vs, p :: ps => do
    let u ← convert o v p.type
    let us ← convertArguments o vs ps
    return u :: us
  | _, _ => .ok []

/-- The function that a call calls and the arguments it passes, and the stack without them. -/
def arguments (m : Machine σ) (o : Origin) (f : FuncId) (count : Nat) (s : ValueStack) :
    Except EvalError (Signature × List Value × ValueStack) := do
  let (args, s) ← popMany o count s
  match m.registry.functionAt? f with
  | none => .error (o.evalError .missingContext)
  | some sig =>
    if args.length ≠ sig.arity then .error (o.evalError .uncheckedOperand)
    else
      let args ← convertArguments o args sig.parameters
      return (sig, args, s)

/-- The reply of a function's callback. A function without one replies nothing. -/
def reply (m : Machine σ) (f : FuncId) (args : List Value) (w : State σ) : Reply σ :=
  match m.callbacks[f]? with
  | some callback => callback w.memory w.values args
  | none => { value := .void, memory := w.memory }

/-- The value of a call in the declared type. -/
def returned (o : Origin) (sig : Signature) (v : Value) : Except EvalError Value :=
  match v.cast? sig.returns with
  | some u => .ok u
  | none => .error (o.evalError (.returnType sig.name sig.returns v.type))

/-- One part: the stack after it, and the world, which keeps what was written before an error. -/
def step (m : Machine σ) (t : Tree) (s : ValueStack) (w : World σ) :
    Except EvalError ValueStack × World σ :=
  match t with
  | .hole => (.ok s, w)
  | .group _ _ => (.ok s, w)
  | .call o f args =>
    match m.arguments o f args.length s with
    | .error e => (.error e, w)
    | .ok (sig, args, s) =>
      let reply := m.reply f args w.state
      let w := ⟨w.state.afterReply m.registry reply, w.calls ++ [⟨f, args⟩]⟩
      (do m.push o (← returned o sig reply.value) s, w)
  | .binary o op l x =>
    if op.isAssignment then
      match m.assignment w.state o op l s with
      | .error e => (.error e, w)
      | .ok (x, v, s) => (m.push o v s, { w with state := w.state.store x v })
    else (do let (v, s) ← m.compute w.state (.binary o op l x) s; m.push o v s, w)
  | t => (do let (v, s) ← m.compute w.state t s; m.push t.origin v s, w)

/-- Some parts, up to the first error. -/
def run (m : Machine σ) : List Tree → ValueStack → World σ →
    Except EvalError ValueStack × World σ
  | [], s, w => (.ok s, w)
  | t :: ts, s, w =>
    match m.step t s w with
    | (.ok s', w') => m.run ts s' w'
    | (.error e, w') => (.error e, w')

/-- The one value that a run must leave. -/
def result (root : Tree) : ValueStack → Except EvalError Value
  | [] => .error ⟨.noValue, none, root.extent⟩
  | [v] => .ok v
  | s => .error ⟨.unbalancedStack s.length, none, root.extent⟩

/-- The variable that an interactive run toggles: a writable `bool` that is the whole expression. -/
def toggled? (r : Registry) (t : Tree) : Option (VarId × Variable) :=
  if r.interactive then
    t.singleVariable?.bind fun x => (r.variableAt? x).bind fun v =>
      if v.type = .bool ∧ v.readOnly = false then some (x, v) else none
  else none

/-- Flips a variable; the value it has then. -/
def toggle (o : Origin) (x : VarId) (v : Variable) (w : World σ) :
    Except EvalError Value × World σ :=
  match located o (readBinding w.state x v) with
  | .error e => (.error e, w)
  | .ok old =>
    let new := Value.bool (old != .bool true)
    (.ok new, { w with state := w.state.store x new })

/-- The value of a tree, with the world it leaves. -/
def evaluate (m : Machine σ) (t : Tree) (w : World σ) : Except EvalError Value × World σ :=
  match toggled? m.registry t with
  | some (x, v) => toggle t.origin x v w
  | none =>
    match m.run t.schedule [] w with
    | (.ok s, w') => (result t s, w')
    | (.error e, w') => (.error e, w')

end Machine

/-- How a run ended: its value or an error, the context after it, and the calls it made. -/
structure Outcome (σ ε : Type) where
  result : Except ε Value
  context : Context σ
  calls : List Call

/-- Runs an expression with the types of its parts in a context. -/
def evaluate {σ : Type} (e : Expr) (types : TypeTable) (c : Context σ) (limits : Limits) :
    Outcome σ EvalError :=
  let m : Machine σ := ⟨c.registry, c.callbacks, types, limits.maxValues⟩
  let (result, w) := m.evaluate e.tree { state := c.state }
  ⟨result, { c with state := w.state }, w.calls⟩

end ExprEngine
