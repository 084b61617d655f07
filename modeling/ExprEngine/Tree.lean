import ExprEngine.Operator
import ExprEngine.Registry
import ExprEngine.Span

/-!
# Expression trees

A tree is made of parts. Each part has an id, the position and the span of the token it was built
from, and its operands below it. A hole stands where an operand is missing.

* `Tree`             the parts of an expression;
* `Tree.nodes`       all parts, a part before its operands;
* `Tree.extent`      the span of a part and everything below it;
* `Tree.render`      the tree in prefix form;
* `Expr`             a tree with the number of ids that were given out for it.
-/

namespace ExprEngine

/-- The id of a part: its position in the order of creation. -/
abbrev PartId := Nat

/-- Where a part comes from. -/
structure Origin where
  id : PartId
  /-- position of the token the part was built from -/
  token : Nat
  /-- span of that token, brackets included -/
  span : Span
deriving DecidableEq, Repr

/-- A part with everything below it. -/
inductive Tree
  /-- a missing operand -/
  | hole
  | constant (o : Origin) (v : Value)
  | reference (o : Origin) (x : VarId)
  | unary (o : Origin) (op : UnaryOp) (operand : Tree)
  | binary (o : Origin) (op : BinaryOp) (left right : Tree)
  | choice (o : Origin) (condition yes no : Tree)
  | cast (o : Origin) (target : ValueType) (operand : Tree)
  | group (o : Origin) (inner : Tree)
  | call (o : Origin) (f : FuncId) (args : List Tree)

namespace Tree

/-- Where a hole would come from. -/
def nowhere : Origin := ⟨0, 0, .zero⟩

def origin : Tree → Origin
  | hole => nowhere
  | constant o _ => o
  | reference o _ => o
  | unary o _ _ => o
  | binary o _ _ _ => o
  | choice o _ _ _ => o
  | cast o _ _ => o
  | group o _ => o
  | call o _ _ => o

def id (t : Tree) : PartId := t.origin.id

/-- Whether an operand is missing. -/
def isHole : Tree → Bool
  | hole => true
  | _ => false

/-- The variable a tree consists of, when it is a bare reference. -/
def singleVariable? : Tree → Option VarId
  | reference _ x => some x
  | _ => none

def operator? : Tree → Option Operator
  | unary _ op _ => some (.unary op)
  | binary _ op _ _ => some (.binary op)
  | choice _ _ _ _ => some .choice
  | _ => none

/-- The binding strength of the topmost part, if it is an operator or a cast. -/
def precedence? : Tree → Option Nat
  | cast _ _ _ => some castPrecedence
  | t => t.operator?.map Operator.precedence

/-- The operand positions of the topmost part, holes included. -/
def operands : Tree → List Tree
  | unary _ _ x => [x]
  | binary _ _ l r => [l, r]
  | choice _ c y n => [c, y, n]
  | cast _ _ x => [x]
  | group _ x => [x]
  | call _ _ args => args
  | _ => []

/-- The parts directly below the topmost one. -/
def children (t : Tree) : List Tree := t.operands.filter fun x => !x.isHole

mutual

/-- All parts of a tree, a part before its operands. -/
def nodes : Tree → List Tree
  | hole => []
  | constant o v => [constant o v]
  | reference o x => [reference o x]
  | unary o op x => unary o op x :: nodes x
  | binary o op l r => binary o op l r :: (nodes l ++ nodes r)
  | choice o c y n => choice o c y n :: (nodes c ++ nodes y ++ nodes n)
  | cast o ty x => cast o ty x :: nodes x
  | group o x => group o x :: nodes x
  | call o f args => call o f args :: nodesOfAll args

/-- All parts of some trees, in order. -/
def nodesOfAll : List Tree → List Tree
  | [] => []
  | t :: ts => nodes t ++ nodesOfAll ts

end

/-- The span that covers a part and everything below it. -/
def extent (t : Tree) : Span :=
  t.origin.span.cover (t.nodes.map fun n => n.origin.span)

/-! ## prefix form -/

/-- How a variable is shown: by name, or by its id when the registry does not declare it. -/
def variableText (r : Registry) (x : VarId) : String :=
  match r.variableAt? x with
  | some v => v.name
  | none => "$" ++ toString x

/-- How a function is shown: by name, or by its id when the registry does not declare it. -/
def functionText (r : Registry) (f : FuncId) : String :=
  match r.functionAt? f with
  | some s => s.name
  | none => "#" ++ toString f

mutual

/-- The tree in prefix form, an underscore for a missing operand. -/
def render (r : Registry) : Tree → String
  | hole => "_"
  | constant _ v => v.displayInTree
  | reference _ x => variableText r x
  | unary _ op x => "(" ++ (Operator.unary op).symbol ++ " " ++ render r x ++ ")"
  | binary _ op a b =>
    "(" ++ (Operator.binary op).symbol ++ " " ++ render r a ++ " " ++ render r b ++ ")"
  | choice _ c a b =>
    "(" ++ Operator.choice.symbol ++ " " ++ render r c ++ " " ++ render r a ++ " " ++ render r b
      ++ ")"
  | cast _ ty x => "(" ++ ty.name ++ " " ++ render r x ++ ")"
  | group _ x => "[" ++ render r x ++ "]"
  | call _ f args => functionText r f ++ "(" ++ String.intercalate ", " (renderAll r args) ++ ")"

/-- Trees in prefix form, in order. -/
def renderAll (r : Registry) : List Tree → List String
  | [] => []
  | t :: ts => render r t :: renderAll r ts

end

end Tree

/-- A tree with the number of ids that were given out while it was built. -/
structure Expr where
  tree : Tree
  partCount : Nat

end ExprEngine
