import ExprEngine.Operator
import ExprEngine.ValueType

/-!
# Typing rules of operators

Each rule takes the types of the operands and gives the type the operator computes in, or the cause
why there is none. Numbers are calculated with and compared in 64 bits, and the branches of a choice
meet there if their types differ, so that none of these narrows. Operators on bits keep to the
widths of their operands, and the common bits of two integers to the narrower one.

* `arithmeticType`   numbers; a subtraction is always signed;
* `comparisonType`   numbers with each other, anything else only with its own type;
* `bitwiseType`      integers, at a width and sign of their own;
* `logicalType`      whatever has a truth value;
* `branchType`       the common type of the branches of a choice.
-/

namespace ExprEngine

/-- Why a tree has no type. -/
inductive TypeCause
  | leftOperand (op : Operator) (found : ValueType)
  | rightOperand (op : Operator) (found : ValueType)
  | mismatched (op : Operator) (left right : ValueType)
  | condition (found : ValueType)
  | cast (source target : ValueType)
  | argument (function : String) (index : Nat) (expected found : ValueType)
  | readOnly (name : String)
  | missingContext
deriving DecidableEq, Repr

/-- Whether the operator always computes signed: a subtraction may go below zero. -/
def Operator.forcesSign : Operator → Bool
  | .binary (.arith .sub) => true
  | .binary (.compound .sub) => true
  | _ => false

/-- Whether the operator keeps only bits that both operands have. -/
def Operator.intersects : Operator → Bool
  | .binary (.bits .and) => true
  | .binary (.compound .bitAnd) => true
  | _ => false

def arithmeticType (op : Operator) (left right : ValueType) : Except TypeCause ValueType :=
  if !left.isNumeric then .error (.leftOperand op left)
  else if !right.isNumeric then .error (.rightOperand op right)
  else match left.widen? right op.forcesSign with
    | some t => .ok t
    | none => .error (.mismatched op left right)

/-- The type that both sides of a comparison are compared in. Only numbers have an order. -/
def comparisonType (op : CompareOp) (left right : ValueType) : Except TypeCause ValueType :=
  let o := Operator.binary (.compare op)
  if left = .void then .error (.leftOperand o left)
  else if right = .void then .error (.rightOperand o right)
  else match left.widen? right false with
    | some t => .ok t
    | none =>
      if left ≠ right then .error (.mismatched o left right)
      else if op = .eq ∨ op = .ne then .ok left
      else .error (.leftOperand o left)

/-- The type of an operator on bits. Keeping common bits takes the narrower width, signed when
either side is; the others take the wider, signed when a signed side is at least as wide as the
other. -/
def bitwiseType (op : Operator) (left right : ValueType) : Except TypeCause ValueType :=
  if !left.isInteger then .error (.leftOperand op left)
  else if !right.isInteger then .error (.rightOperand op right)
  else
    let (bits, signed) :=
      if op.intersects then (min left.bits right.bits, left.isSigned || right.isSigned)
      else
        (max left.bits right.bits,
          (left.isSigned && right.bits ≤ left.bits) || (right.isSigned && left.bits ≤ right.bits))
    match ValueType.integer? bits signed with
    | some t => .ok t
    | none => .error (.mismatched op left right)

/-- The type of a connective, always `bool`. -/
def logicalType (op : LogicOp) (left right : ValueType) : Except TypeCause ValueType :=
  let o := Operator.binary (.logic op)
  if !left.isBoolable then .error (.leftOperand o left)
  else if !right.isBoolable then .error (.rightOperand o right)
  else .ok .bool

def branchType (yes no : ValueType) : Except TypeCause ValueType :=
  if yes = no then .ok yes
  else match yes.widen? no false with
    | some t => .ok t
    | none => .error (.mismatched .choice yes no)

/-- The type an operator with one operand computes in. -/
def unaryType (op : UnaryOp) (operand : ValueType) : Except TypeCause ValueType :=
  match op with
  | .not => if operand.isBoolable then .ok .bool else .error (.rightOperand (.unary op) operand)
  | .complement =>
    if operand.isInteger then .ok operand else .error (.rightOperand (.unary op) operand)

/-- The type an assignment computes in before its value is stored in a variable of type
`target`. -/
def assignmentType (op : BinaryOp) (target value : ValueType) : Except TypeCause ValueType :=
  match op with
  | .compound c =>
    match c.base with
    | .bits _ => bitwiseType (.binary op) target value
    | _ => arithmeticType (.binary op) target value
  | _ =>
    if value.castsTo target then .ok target else .error (.rightOperand (.binary op) value)

end ExprEngine
