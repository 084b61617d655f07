import ExprEngine.Operator
import ExprEngine.Value
import ExprEngine.Floating.Remainder

/-!
# Operators on values

Operands arrive in the type their operator computes in. Integers are computed in 64 bits, wrapping,
and brought back to their own type; floats are computed in 64 bits and rounded back.

* `BinaryOp.apply`   an operator with two operands of one type;
* `UnaryOp.apply`    an operator with one operand;
* `LogicOp.apply`    a connective, both sides evaluated.
-/

namespace ExprEngine

/-- Why a run has no value. -/
inductive EvalCause
  | divideByZero
  | bindingType (name : String) (expected found : ValueType)
  | returnType (function : String) (expected found : ValueType)
  | noValue
  | valueOverflow (max : Nat)
  /-- values are left over, or missing -/
  | unbalancedStack (remaining : Nat)
  | missingContext
  /-- a value that is not of its checked type -/
  | uncheckedOperand
deriving DecidableEq, Repr

/-- Whether the cause lies in the engine, not in the expression or the host. -/
def EvalCause.isInternal : EvalCause → Bool
  | unbalancedStack _ => true
  | uncheckedOperand => true
  | _ => false

/-- Whether a comparison holds of an order. -/
def CompareOp.holds : CompareOp → Ordering → Bool
  | eq, o => o == .eq
  | ne, o => o != .eq
  | gt, o => o == .gt
  | ge, o => o != .lt
  | lt, o => o == .lt
  | le, o => o != .gt

/-- Whether a comparison holds of two things that are only equal or not. -/
def CompareOp.ofEquality? : CompareOp → Bool → Option Bool
  | eq, same => some same
  | ne, same => some (!same)
  | _, _ => none

/-- The order of two floats. None when either is no number. -/
def floatOrder? (a b : Float) : Option Ordering :=
  if a < b then some .lt
  else if a == b then some .eq
  else if a > b then some .gt
  else none

/-- The exact result of an operator on numbers. The quotient is rounded toward zero, and the
remainder has the sign of the dividend. -/
def ArithOp.onInts (op : ArithOp) (a b : Int) : Except EvalCause Int :=
  match op with
  | add => .ok (a + b)
  | sub => .ok (a - b)
  | mul => .ok (a * b)
  | div => if b = 0 then .error .divideByZero else .ok (a.tdiv b)
  | mod => if b = 0 then .error .divideByZero else .ok (a.tmod b)

def ArithOp.onFloats (op : ArithOp) (a b : Float) : Float :=
  match op with
  | add => a + b
  | sub => a - b
  | mul => a * b
  | div => a / b
  | mod => Floating.remainder a b

def BitOp.onWords (op : BitOp) (a b : BitVec 64) : BitVec 64 :=
  match op with
  | or => a ||| b
  | and => a &&& b
  | xor => a ^^^ b

/-- An operator on the bits of integers, in two's complement of 64 bits. -/
def BitOp.onInts (op : BitOp) (a b : Int) : Int :=
  (op.onWords (BitVec.ofInt 64 a) (BitVec.ofInt 64 b)).toInt

/-- The 64-bit type that an integer type computes in. -/
def IntType.wide (t : IntType) : IntType := ⟨t.signed, .w64⟩

/-- A 64-bit result in the type of its operands. -/
def IntType.narrow (t : IntType) (n : Int) : Value := .int (.wrap t (t.wide.wrap n))

def BinaryOp.onInts (op : BinaryOp) (t : IntType) (a b : Int) : Except EvalCause Value :=
  match op with
  | arith op => (op.onInts a b).map t.narrow
  | bits op => .ok (t.narrow (op.onInts a b))
  | compare op => .ok (.bool (op.holds (Ord.compare a b)))
  | _ => .error .uncheckedOperand

/-- An operator on floats, its result rounded by `round`. Only `!=` holds where there is no
order. -/
def BinaryOp.onFloats (op : BinaryOp) (round : Float → Value) (a b : Float) :
    Except EvalCause Value :=
  match op with
  | arith op => .ok (round (op.onFloats a b))
  | compare op =>
    match floatOrder? a b with
    | some o => .ok (.bool (op.holds o))
    | none => .ok (.bool (op == .ne))
  | _ => .error .uncheckedOperand

/-- An operator on things that are only equal or not. -/
def BinaryOp.onEquality (op : BinaryOp) (same : Bool) : Except EvalCause Value :=
  match op with
  | compare op =>
    match op.ofEquality? same with
    | some b => .ok (.bool b)
    | none => .error .uncheckedOperand
  | _ => .error .uncheckedOperand

/-- An operator with two operands, which must have one type. -/
def BinaryOp.apply (op : BinaryOp) : Value → Value → Except EvalCause Value
  | .bool a, .bool b => op.onEquality (a == b)
  | .string a, .string b => op.onEquality (a == b)
  | .pointer a, .pointer b => op.onEquality (a == b)
  | .r32 a, .r32 b => op.onFloats (fun x => .r32 x.toFloat32) a.toFloat b.toFloat
  | .r64 a, .r64 b => op.onFloats .r64 a b
  | .int a, .int b =>
    if a.type = b.type then op.onInts a.type a.val b.val else .error .uncheckedOperand
  | _, _ => .error .uncheckedOperand

/-- What a condition makes of a value; `void` is no condition. -/
def Value.truth (v : Value) : Except EvalCause Bool :=
  match v.truth? with
  | some b => .ok b
  | none => .error .uncheckedOperand

def UnaryOp.apply : UnaryOp → Value → Except EvalCause Value
  | .not, v => v.truth.map fun b => .bool !b
  | .complement, .int n => .ok (n.type.narrow (~~~n.val))
  | .complement, _ => .error .uncheckedOperand

/-- A connective of two truth values. -/
def LogicOp.holds : LogicOp → Bool → Bool → Bool
  | or, a, b => a || b
  | and, a, b => a && b

/-- A connective. Both sides have been evaluated. -/
def LogicOp.apply (op : LogicOp) (a b : Value) : Except EvalCause Value := do
  let x ← a.truth
  let y ← b.truth
  return .bool (op.holds x y)

/-- Any operator on two values. Only those that compute a value from two have one. -/
def Operator.applyBinary : Operator → Value → Value → Except EvalCause Value
  | .binary op, a, b => op.apply a b
  | _, _, _ => .error .uncheckedOperand

def Operator.applyUnary : Operator → Value → Except EvalCause Value
  | .unary op, v => op.apply v
  | _, _ => .error .uncheckedOperand

end ExprEngine
