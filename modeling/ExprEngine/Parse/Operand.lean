import ExprEngine.Tree
import ExprEngine.Token

/-!
# Operands while parsing

The parser keeps a stack of operands. An entry is a finished tree, or an operator that still waits
for an operand. A finished operand is handed to the waiting operator below it, which may finish
that one in turn. An infix operator takes the entry before it as its left operand, or the last
piece of that entry which binds as tightly; the operators around the piece wait again.

* `Pending`        an operator that waits for an operand, with those it has;
* `Entry`          an entry of the stack;
* `connect`        hands a finished tree to the stack;
* `Tree.reopen`    the last piece of a tree and the operators around it;
* `takeLeft`       the left operand of an infix operator, taken from the stack;
* `single`         the one finished tree that a pair of brackets must leave.
-/

namespace ExprEngine

/-- Why tokens make no expression. -/
inductive ParseCause
  | mismatchedParenthesis
  | missingOperator
  | missingLeftOperand
  | missingRightOperand
  | invalidOperator (found : String)
  | unknownVariable (name : String)
  | unknownFunction (name : String)
  | tooManyArguments (name : String) (max : Nat)
  | missingArguments (name : String) (min : Nat)
  | emptyArgument
  | invalidConstant
  | emptyExpression
  | unexpectedComma
  | tooManyParts (max : Nat)
  | nestingTooDeep (max : Nat)
  | operandOverflow (max : Nat)
deriving DecidableEq, Repr

/-- A parsing error: the token at fault, if it is one, its span, and an earlier span that explains
it. -/
structure ParseError where
  cause : ParseCause
  token : Option Nat
  span : Span
  related : Option Span := none
deriving DecidableEq, Repr

/-- An error at the token a part was built from. -/
def Origin.parseError (o : Origin) (cause : ParseCause) : ParseError :=
  ⟨cause, some o.token, o.span, none⟩

def Lexeme.parseError (t : Lexeme) (cause : ParseCause) : ParseError :=
  ⟨cause, some t.index, t.span, none⟩

/-- An operator that waits for an operand. -/
inductive Pending
  | unary (o : Origin) (op : UnaryOp)
  | cast (o : Origin) (target : ValueType)
  | binary (o : Origin) (op : BinaryOp) (left : Tree)
  /-- `c ?` -/
  | condition (o : Origin) (cond : Tree)
  /-- `c ? y`, which takes no operand before the `:` -/
  | branch (o : Origin) (cond yes : Tree)
  /-- `c ? y :` -/
  | otherwise (o : Origin) (cond yes : Tree)

namespace Pending

def origin : Pending → Origin
  | unary o _ => o
  | cast o _ => o
  | binary o _ _ => o
  | condition o _ => o
  | branch o _ _ => o
  | otherwise o _ _ => o

/-- The operator with holes for the operands it waits for. -/
def tree : Pending → Tree
  | unary o op => .unary o op .hole
  | cast o ty => .cast o ty .hole
  | binary o op l => .binary o op l .hole
  | condition o c => .choice o c .hole .hole
  | branch o c y => .choice o c y .hole
  | otherwise o c y => .choice o c y .hole

end Pending

/-- An entry of the operand stack. -/
inductive Entry
  | done (t : Tree)
  | pending (p : Pending)

def Entry.origin : Entry → Origin
  | done t => t.origin
  | pending p => p.origin

/-- The entry as a tree, with holes for what it waits for. -/
def Entry.tree : Entry → Tree
  | done t => t
  | pending p => p.tree

/-- A stack of operands, the newest first. -/
abbrev OperandStack := List Entry

/-- The operator with one operand more. A branch waits for its `:` first. -/
def Pending.fill? : Pending → Tree → Option Entry
  | unary o op, t => some (.done (.unary o op t))
  | cast o ty, t => some (.done (.cast o ty t))
  | binary o op l, t => some (.done (.binary o op l t))
  | condition o c, t => some (.pending (branch o c t))
  | branch _ _ _, _ => none
  | otherwise o c y, t => some (.done (.choice o c y t))

namespace OperandStack

/-- One more entry, unless the stack is full. -/
def push (max : Nat) (e : Entry) (s : OperandStack) : Except ParseError OperandStack :=
  if max ≤ s.length then .error (e.origin.parseError (.operandOverflow max)) else .ok (e :: s)

/-- Hands a finished tree to the operator that waits on top, and that operator, if it is finished
now, to the one below. A tree that nothing waits for is pushed. -/
def connect (max : Nat) : OperandStack → Tree → Except ParseError OperandStack
  | .pending p :: below, t =>
    match p.fill? t with
    | some (.done t') => connect max below t'
    | some (.pending p') => .ok (.pending p' :: below)
    | none => push max (.done t) (.pending p :: below)
  | s, t => push max (.done t) s

/-- Several waiting operators, the outermost pushed first. -/
def pushAll (max : Nat) : List Pending → OperandStack → Except ParseError OperandStack
  | [], s => .ok s
  | p :: ps, s =>
    match push max (.pending p) s with
    | .ok s' => pushAll max ps s'
    | .error e => .error e

end OperandStack

/-- How an infix operator competes for its left operand. -/
structure Binding where
  precedence : Nat
  rightAssociative : Bool
deriving DecidableEq, Repr

/-- Whether a tree stays whole as the left operand: it is no operator, or it binds tighter, or as
tightly and the operator groups to the left. -/
def Binding.keepsWhole (b : Binding) (t : Tree) : Bool :=
  match t.precedence? with
  | none => true
  | some p => b.precedence < p || (p == b.precedence && !b.rightAssociative)

/-- The last piece of a finished tree that stays whole, and the operators around it, outermost
first, which wait for that operand again. -/
def Tree.reopen (b : Binding) : Tree → List Pending × Tree
  | .binary o op l r =>
    if b.keepsWhole (.binary o op l r) then ([], .binary o op l r)
    else ((.binary o op l :: (r.reopen b).1), (r.reopen b).2)
  | .choice o c y n =>
    if b.keepsWhole (.choice o c y n) then ([], .choice o c y n)
    else ((.otherwise o c y :: (n.reopen b).1), (n.reopen b).2)
  | t => ([], t)

/-- The left operand inside a stack entry, and the operators that wait again. A waiting operator
has none to give, except for a branch before its `:`. -/
def Entry.leftOperand (b : Binding) : Entry → Except ParseError (List Pending × Tree)
  | .done t => .ok (t.reopen b)
  | .pending (.branch o c y) => .ok (.condition o c :: (y.reopen b).1, (y.reopen b).2)
  | .pending p => .error (p.origin.parseError .missingRightOperand)

/-- The left operand of an infix operator and the stack without it. -/
def OperandStack.takeLeft (max : Nat) (b : Binding) (here : Lexeme) :
    OperandStack → Except ParseError (Tree × OperandStack)
  | [] => .error (here.parseError .missingLeftOperand)
  | e :: below =>
    match e.leftOperand b with
    | .error err => .error err
    | .ok (reopened, operand) =>
      match OperandStack.pushAll max reopened below with
      | .error err => .error err
      | .ok s => .ok (operand, s)

/-- The `:` of a choice: the branch on top is complete. -/
def OperandStack.separate (here : Lexeme) : OperandStack → Except ParseError OperandStack
  | [] => .error (here.parseError .missingLeftOperand)
  | .pending (.branch o c y) :: below => .ok (.pending (.otherwise o c y) :: below)
  | .pending p :: _ => .error (p.origin.parseError .missingRightOperand)
  | .done _ :: _ => .error (here.parseError (.invalidOperator here.text))

/-- The oldest entry that still waits. -/
def OperandStack.unfinished? (s : OperandStack) : Option Pending :=
  s.reverse.findSome? fun e => match e with
    | .pending p => some p
    | .done _ => none

/-- The one finished tree of a stack. -/
def OperandStack.single (s : OperandStack) (ifEmpty : ParseError) : Except ParseError Tree :=
  match s.unfinished? with
  | some p => .error (p.origin.parseError .missingRightOperand)
  | none =>
    match s.reverse with
    | [] => .error ifEmpty
    | [e] => .ok e.tree
    | first :: second :: _ =>
      .error { second.origin.parseError .missingOperator with related := some first.tree.extent }

end ExprEngine
