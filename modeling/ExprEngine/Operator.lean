/-!
# Operators

Operators are sorted by what they do to their operands; the parser sees only a symbol, an operand
count and a precedence.

* `UnaryOp`, `BinaryOp`, `Operator`   one, two, or any number of operands;
* `Operator.ofSymbol?`                the operator a symbol introduces;
* `Operator.precedence`               binding strength, higher binds tighter;
* `CompoundOp.base`                   what a compound assignment combines with.
-/

namespace ExprEngine

inductive ArithOp
  | add | sub | mul | div | mod
deriving DecidableEq, Repr

inductive CompareOp
  | eq | ne | gt | ge | lt | le
deriving DecidableEq, Repr

inductive LogicOp
  | or | and
deriving DecidableEq, Repr

inductive BitOp
  | or | and | xor
deriving DecidableEq, Repr

/-- Operators that an assignment may carry. -/
inductive CompoundOp
  | add | sub | mul | div | bitOr | bitAnd | bitXor
deriving DecidableEq, Repr

inductive UnaryOp
  /-- the negation of a truth value -/
  | not
  /-- the complement of every bit -/
  | complement
deriving DecidableEq, Repr

inductive BinaryOp
  | arith (op : ArithOp)
  | compare (op : CompareOp)
  | logic (op : LogicOp)
  | bits (op : BitOp)
  | assign
  | compound (op : CompoundOp)
deriving DecidableEq, Repr

inductive Operator
  | unary (op : UnaryOp)
  | binary (op : BinaryOp)
  /-- the choice `c ? a : b` -/
  | choice
deriving DecidableEq, Repr

/-- Families of operators, by their rule for types. -/
inductive OperatorFamily
  | arithmetic | comparison | logical | bitwise | choice | assignment
deriving DecidableEq, Repr

/-- The operator that combines the old value with the right side. -/
def CompoundOp.base : CompoundOp → BinaryOp
  | .add => .arith .add
  | .sub => .arith .sub
  | .mul => .arith .mul
  | .div => .arith .div
  | .bitOr => .bits .or
  | .bitAnd => .bits .and
  | .bitXor => .bits .xor

/-- Whether the operator writes its left operand. -/
def BinaryOp.isAssignment : BinaryOp → Bool
  | .assign => true
  | .compound _ => true
  | _ => false

/-- Binding strength of a cast, that of the operators with one operand. -/
def castPrecedence : Nat := 12

def BinaryOp.precedence : BinaryOp → Nat
  | .arith .mul | .arith .div | .arith .mod => 11
  | .arith .add | .arith .sub => 10
  | .compare .gt | .compare .ge | .compare .lt | .compare .le => 9
  | .compare .eq | .compare .ne => 8
  | .bits .and => 7
  | .bits .xor => 6
  | .bits .or => 5
  | .logic .and => 4
  | .logic .or => 3
  | .assign => 1
  | .compound _ => 1

def choicePrecedence : Nat := 2

/-- The sign between the two branches of a choice. -/
def branchSymbol : String := ":"

namespace Operator

def all : List Operator :=
  [.binary (.arith .add), .binary (.arith .sub), .binary (.arith .mul), .binary (.arith .div),
   .binary (.arith .mod),
   .binary (.compare .eq), .binary (.compare .ne), .binary (.compare .gt), .binary (.compare .ge),
   .binary (.compare .lt), .binary (.compare .le),
   .binary (.logic .or), .binary (.logic .and), .unary .not,
   .binary (.bits .or), .binary (.bits .and), .binary (.bits .xor), .unary .complement,
   .choice,
   .binary .assign, .binary (.compound .add), .binary (.compound .sub), .binary (.compound .mul),
   .binary (.compound .div), .binary (.compound .bitOr), .binary (.compound .bitAnd),
   .binary (.compound .bitXor)]

theorem mem_all (o : Operator) : o ∈ all := by
  rcases o with ⟨_ | _⟩ | ⟨_ | _ | _ | _ | _ | _⟩ | _ <;> (try rename_i op; cases op) <;> decide

/-- The symbol that introduces an operator. -/
def symbol : Operator → String
  | .binary (.arith .add) => "+"
  | .binary (.arith .sub) => "-"
  | .binary (.arith .mul) => "*"
  | .binary (.arith .div) => "/"
  | .binary (.arith .mod) => "%"
  | .binary (.compare .eq) => "=="
  | .binary (.compare .ne) => "!="
  | .binary (.compare .gt) => ">"
  | .binary (.compare .ge) => ">="
  | .binary (.compare .lt) => "<"
  | .binary (.compare .le) => "<="
  | .binary (.logic .or) => "||"
  | .binary (.logic .and) => "&&"
  | .unary .not => "!"
  | .binary (.bits .or) => "|"
  | .binary (.bits .and) => "&"
  | .binary (.bits .xor) => "^"
  | .unary .complement => "~"
  | .choice => "?"
  | .binary .assign => "="
  | .binary (.compound .add) => "+="
  | .binary (.compound .sub) => "-="
  | .binary (.compound .mul) => "*="
  | .binary (.compound .div) => "/="
  | .binary (.compound .bitOr) => "|="
  | .binary (.compound .bitAnd) => "&="
  | .binary (.compound .bitXor) => "^="

/-- The operator a symbol introduces. -/
def ofSymbol? (s : String) : Option Operator := all.find? fun o => o.symbol == s

/-- The name of an operator in messages. -/
def name : Operator → String
  | .binary (.arith .add) => "addition"
  | .binary (.arith .sub) => "subtraction"
  | .binary (.arith .mul) => "multiplication"
  | .binary (.arith .div) => "division"
  | .binary (.arith .mod) => "modulo"
  | .binary (.compare .eq) => "equality"
  | .binary (.compare .ne) => "inequality"
  | .binary (.compare .gt) => "greater-than"
  | .binary (.compare .ge) => "greater-or-equal"
  | .binary (.compare .lt) => "less-than"
  | .binary (.compare .le) => "less-or-equal"
  | .binary (.logic .or) => "logical or"
  | .binary (.logic .and) => "logical and"
  | .unary .not => "logical not"
  | .binary (.bits .or) => "bitwise or"
  | .binary (.bits .and) => "bitwise and"
  | .binary (.bits .xor) => "bitwise xor"
  | .unary .complement => "bitwise not"
  | .choice => "ternary"
  | .binary .assign => "assignment"
  | .binary (.compound .add) => "add-assignment"
  | .binary (.compound .sub) => "subtract-assignment"
  | .binary (.compound .mul) => "multiply-assignment"
  | .binary (.compound .div) => "divide-assignment"
  | .binary (.compound .bitOr) => "or-assignment"
  | .binary (.compound .bitAnd) => "and-assignment"
  | .binary (.compound .bitXor) => "xor-assignment"

def arity : Operator → Nat
  | .unary _ => 1
  | .binary _ => 2
  | .choice => 3

/-- Binding strength, higher binds tighter. -/
def precedence : Operator → Nat
  | .unary _ => 12
  | .binary op => op.precedence
  | .choice => choicePrecedence

/-- Whether `a op b op c` groups as `a op (b op c)`. -/
def isRightAssociative : Operator → Bool
  | .binary op => op.isAssignment
  | _ => false

def family : Operator → OperatorFamily
  | .unary .not => .logical
  | .unary .complement => .bitwise
  | .binary (.arith _) => .arithmetic
  | .binary (.compare _) => .comparison
  | .binary (.logic _) => .logical
  | .binary (.bits _) => .bitwise
  | .binary .assign => .assignment
  | .binary (.compound _) => .assignment
  | .choice => .choice

/-- The sign between the later operands, for the choice. -/
def secondSymbol? : Operator → Option String
  | .choice => some branchSymbol
  | _ => none

/-- For a compound assignment, the operator that combines the old value with the right side. -/
def base? : Operator → Option Operator
  | .binary (.compound op) => some (.binary op.base)
  | _ => none

end Operator
end ExprEngine
