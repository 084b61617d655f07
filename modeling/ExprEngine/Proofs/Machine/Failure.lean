import ExprEngine.Machine
import ExprEngine.Proofs.Outcome

/-!
# Where errors come from

An operator fails only on a division by zero or on a value that it is not made for. A variable
whose stored value has another type is noticed where it is read and nowhere else, and a full stack
only where a value is pushed.

* `EvalCause.OfOperator`   the causes that operators have;
* `Confined`               failing for these causes only;
* `apply_confined`         what operators do;
* `Fails`                  failing for the causes of a set only;
* `FailsAt`                and at one part only;
* `convert_fails` ...      the pieces of a step, which fail at its part.
-/

namespace ExprEngine

/-- The causes for which operators and conversions fail. -/
def EvalCause.OfOperator : EvalCause → Prop
  | .divideByZero => True
  | .uncheckedOperand => True
  | _ => False

/-- A computation that fails for one of these causes only. -/
def Confined {α : Type} (x : Except EvalCause α) : Prop :=
  ∀ c, x = .error c → c.OfOperator

section
variable {α β : Type}

theorem Confined.ok {a : α} : Confined (.ok a) := nofun

theorem Confined.error {c : EvalCause} (h : c.OfOperator) : Confined (.error c : Except _ α) := by
  intro c' hc
  cases hc
  exact h

theorem Confined.bind {x : Except EvalCause α} {f : α → Except EvalCause β} (hx : Confined x)
    (hf : ∀ a, Confined (f a)) : Confined (x >>= f) := by
  cases x with
  | error c => exact .error (hx c rfl)
  | ok a => exact hf a

theorem Confined.map {x : Except EvalCause α} {f : α → β} (hx : Confined x) :
    Confined (x.map f) := by
  cases x with
  | error c => exact .error (hx c rfl)
  | ok a => exact .ok

end

theorem Value.truth_confined (v : Value) : Confined v.truth := by
  unfold truth
  split
  · exact .ok
  · exact .error trivial

theorem ArithOp.onInts_confined (op : ArithOp) (a b : Int) : Confined (op.onInts a b) := by
  have hquotient : ∀ n : Int, Confined (if b = 0 then .error .divideByZero else .ok n) := by
    intro n
    split
    · exact .error trivial
    · exact .ok
  cases op with
  | div => exact hquotient _
  | mod => exact hquotient _
  | _ => exact .ok

theorem BinaryOp.onInts_confined (op : BinaryOp) (t : IntType) (a b : Int) :
    Confined (op.onInts t a b) := by
  cases op with
  | arith op => exact (op.onInts_confined a b).map
  | bits op => exact .ok
  | compare op => exact .ok
  | _ => exact .error trivial

theorem BinaryOp.onFloats_confined (op : BinaryOp) (round : Float → Value) (a b : Float) :
    Confined (op.onFloats round a b) := by
  cases op with
  | arith op => exact .ok
  | compare op =>
    unfold onFloats
    dsimp only
    split
    · exact .ok
    · exact .ok
  | _ => exact .error trivial

theorem BinaryOp.onEquality_confined (op : BinaryOp) (same : Bool) :
    Confined (op.onEquality same) := by
  cases op with
  | compare op =>
    unfold onEquality
    dsimp only
    split
    · exact .ok
    · exact .error trivial
  | _ => exact .error trivial

theorem BinaryOp.apply_confined (op : BinaryOp) (a b : Value) : Confined (op.apply a b) := by
  unfold apply
  split
  · exact op.onEquality_confined _
  · exact op.onEquality_confined _
  · exact op.onEquality_confined _
  · exact op.onFloats_confined _ _ _
  · exact op.onFloats_confined _ _ _
  · split
    · exact op.onInts_confined _ _ _
    · exact .error trivial
  · exact .error trivial

theorem UnaryOp.apply_confined (op : UnaryOp) (v : Value) : Confined (op.apply v) := by
  unfold apply
  split
  · exact v.truth_confined.map
  · exact .ok
  · exact .error trivial

theorem LogicOp.apply_confined (op : LogicOp) (a b : Value) : Confined (op.apply a b) :=
  a.truth_confined.bind fun _ => b.truth_confined.bind fun _ => .ok

/-! ## the pieces of a step -/

/-- A computation that fails for causes with a property only. -/
def Fails {α : Type} (P : EvalCause → Prop) (x : Except EvalError α) : Prop :=
  ∀ e, x = .error e → P e.cause

section
variable {α β : Type} {P : EvalCause → Prop}

theorem Fails.ok {a : α} : Fails P (.ok a) := nofun

theorem Fails.error {e : EvalError} (h : P e.cause) : Fails P (.error e : Except _ α) := by
  intro e' he
  cases he
  exact h

theorem Fails.bind {x : Except EvalError α} {f : α → Except EvalError β} (hx : Fails P x)
    (hf : ∀ a, x = .ok a → Fails P (f a)) : Fails P (x >>= f) := by
  cases x with
  | error e => exact .error (hx e rfl)
  | ok a => exact hf a rfl

/-- A computation that fails at one part only, for causes with a property. -/
def FailsAt (o : Origin) (P : EvalCause → Prop) : Except EvalError α → Prop :=
  Ends (fun e => ∃ cause, P cause ∧ e = o.evalError cause) fun _ => True

variable {o : Origin}

theorem FailsAt.ok (a : α) : FailsAt o P (.ok a) := trivial

theorem FailsAt.error {cause : EvalCause} (h : P cause) :
    FailsAt o P (.error (o.evalError cause) : Except _ α) := ⟨cause, h, rfl⟩

theorem FailsAt.bind {x : Except EvalError α} {f : α → Except EvalError β} (hx : FailsAt o P x)
    (hf : ∀ a, x = .ok a → FailsAt o P (f a)) : FailsAt o P (x >>= f) :=
  Ends.bind hx fun a ha _ => hf a ha

theorem FailsAt.fails {x : Except EvalError α} (h : FailsAt o P x) : Fails P x := by
  rintro e rfl
  obtain ⟨cause, hcause, rfl⟩ := h
  exact hcause

end

namespace Machine

variable {σ α : Type} {P : EvalCause → Prop} {m : Machine σ} {o : Origin} {s : ValueStack}

theorem located_fails {x : Except EvalCause α} (hx : Confined x)
    (h : ∀ c : EvalCause, c.OfOperator → P c) : FailsAt o P (located o x) := by
  cases x with
  | ok a => exact .ok a
  | error c => exact .error (h c (hx c rfl))

theorem convert_fails {v : Value} {t : ValueType} (h : P .uncheckedOperand) :
    FailsAt o P (convert o v t) := by
  unfold convert
  split
  · exact .ok _
  · exact .error h

theorem convertArguments_fails {vs : List Value} {ps : List Parameter}
    (h : P .uncheckedOperand) : FailsAt o P (convertArguments o vs ps) := by
  fun_induction convertArguments o vs ps with
  | case1 v vs p ps ih => exact (convert_fails h).bind fun _ _ => ih.bind fun _ _ => .ok _
  | case2 => exact .ok _

theorem declared_fails {x : VarId} (h : P .missingContext) : FailsAt o P (m.declared o x) := by
  unfold declared
  split
  · exact .ok _
  · exact .error h

theorem readBinding_fails {w : State σ} {x : VarId} {v : Variable}
    (h : ∀ a b, P (.bindingType v.name a b)) : FailsAt o P (located o (readBinding w x v)) := by
  unfold readBinding
  split
  · exact .ok _
  · exact .error (h _ _)

theorem returned_fails {v : Value} {sig : Signature} (h : ∀ a b, P (.returnType sig.name a b)) :
    FailsAt o P (returned o sig v) := by
  unfold returned
  split
  · exact .ok _
  · exact .error (h _ _)

theorem pop_fails (h : ∀ n, P (.unbalancedStack n)) : FailsAt o P (pop o s) := by
  cases s with
  | nil => exact .error (h _)
  | cons v s => exact .ok _

theorem popMany_fails {count : Nat} (h : ∀ n, P (.unbalancedStack n)) :
    FailsAt o P (popMany o count s) := by
  unfold popMany
  split
  · exact .error (h _)
  · exact .ok _

theorem push_fails {v : Value} (h : ∀ n, P (.valueOverflow n)) : FailsAt o P (m.push o v s) := by
  unfold push
  split
  · exact .error (h _)
  · exact .ok _

end Machine

end ExprEngine
