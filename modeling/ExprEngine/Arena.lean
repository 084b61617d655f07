import ExprEngine.Tree

/-!
# Parts in one table

The same parts as a flat table: a part refers to its operands by id. An operand slot may be empty,
and a lock says that its operand may no longer be taken out of it.

* `Part`             one entry of the table;
* `Arena`            the table;
* `Arena.tree`       the tree below an id, shared parts repeated;
* `Arena.ofTree`     the table of a tree.
-/

namespace ExprEngine

/-- An operand position of an operator or a cast. -/
structure Slot where
  child : Option PartId := none
  locked : Bool := false
deriving DecidableEq, Repr

/-- What a part is. -/
inductive PartKind
  | constant (v : Value)
  | reference (x : VarId)
  | operator (op : Operator) (slots : List Slot)
  | call (f : FuncId) (args : List PartId)
  | group (child : PartId)
  | cast (target : ValueType) (slot : Slot)
deriving DecidableEq

structure Part where
  kind : PartKind
  token : Nat
  span : Span
deriving DecidableEq

namespace PartKind

/-- An operator with every slot empty. -/
def ofOperator (op : Operator) : PartKind := operator op (List.replicate op.arity {})

def slots : PartKind → List Slot
  | operator _ slots => slots
  | cast _ slot => [slot]
  | _ => []

/-- The part with another slot at a position it has. -/
def setSlot (k : PartKind) (i : Nat) (s : Slot) : PartKind :=
  match k with
  | operator op slots => operator op (slots.set i s)
  | cast target slot => if i = 0 then cast target s else cast target slot
  | k => k

def hasSlots : PartKind → Bool
  | operator _ _ => true
  | cast _ _ => true
  | _ => false

/-- Whether every slot is filled. -/
def isReady (k : PartKind) : Bool := k.slots.all fun s => s.child.isSome

def precedence? : PartKind → Option Nat
  | operator op _ => some op.precedence
  | cast _ _ => some castPrecedence
  | _ => none

def operator? : PartKind → Option Operator
  | operator op _ => some op
  | _ => none

/-- The first slot without an operand. -/
def emptySlot? (k : PartKind) : Option Nat := k.slots.findIdx? fun s => s.child.isNone

/-- The last slot with an operand, unless it is locked. -/
def stealableSlot? (k : PartKind) : Option Nat :=
  match (k.slots.zipIdx.filter fun s => s.1.child.isSome).getLast? with
  | some (s, i) => if s.locked then none else some i
  | none => none

/-- The ids of the operands in order. -/
def children : PartKind → List PartId
  | operator _ slots => slots.filterMap Slot.child
  | cast _ slot => slot.child.toList
  | call _ args => args
  | group child => [child]
  | _ => []

end PartKind

/-- A table of parts, indexed by id. -/
structure Arena where
  parts : List Part := []
deriving DecidableEq

namespace Arena

def size (a : Arena) : Nat := a.parts.length

def part? (a : Arena) (id : PartId) : Option Part := a.parts[id]?

/-- The table with one more part, whose id is the old size. -/
def alloc (a : Arena) (p : Part) : Arena := ⟨a.parts ++ [p]⟩

/-- The table with another slot in a part. -/
def setSlot (a : Arena) (id : PartId) (i : Nat) (s : Slot) : Arena :=
  match a.part? id with
  | some p => ⟨a.parts.set id { p with kind := p.kind.setSlot i s }⟩
  | none => a

/-- Fills the first empty slot of a part; the position of that slot, if there was one. -/
def fill (a : Arena) (id child : PartId) (locked : Bool) : Option Nat × Arena :=
  match (a.part? id).bind fun p => p.kind.emptySlot? with
  | some i => (some i, a.setSlot id i ⟨some child, locked⟩)
  | none => (none, a)

/-- The tree below an id, cut off at a depth. A missing part is a hole. -/
def unfold (a : Arena) : Nat → PartId → Tree
  | 0, _ => .hole
  | depth + 1, id =>
    match a.part? id with
    | none => .hole
    | some p =>
      let o : Origin := ⟨id, p.token, p.span⟩
      let operand (s : Option Slot) : Tree := ((s.bind Slot.child).map (a.unfold depth)).getD .hole
      match p.kind with
      | .constant v => .constant o v
      | .reference x => .reference o x
      | .operator (.unary op) slots => .unary o op (operand slots[0]?)
      | .operator (.binary op) slots => .binary o op (operand slots[0]?) (operand slots[1]?)
      | .operator .choice slots =>
        .choice o (operand slots[0]?) (operand slots[1]?) (operand slots[2]?)
      | .call f args => .call o f (args.map (a.unfold depth))
      | .group child => .group o (a.unfold depth child)
      | .cast target slot => .cast o target (operand (some slot))

/-- The tree below an id. No path without a repetition is longer than the table. -/
def tree (a : Arena) (root : PartId) : Tree := a.unfold a.size root

def expr (a : Arena) (root : PartId) : Expr := ⟨a.tree root, a.size⟩

end Arena

/-! ## the table of a tree -/

/-- A slot for an operand, empty for a hole. Only an operand that is there can be locked. -/
def Slot.ofTree (t : Tree) (locked : Bool) : Slot :=
  if t.isHole then {} else ⟨some t.id, locked⟩

/-- The topmost part of a tree as an entry. Left operands, the operand of a cast and the first two
operands of a choice are locked. -/
def PartKind.ofTree? : Tree → Option PartKind
  | .hole => none
  | .constant _ v => some (.constant v)
  | .reference _ x => some (.reference x)
  | .unary _ op x => some (.operator (.unary op) [.ofTree x false])
  | .binary _ op l r => some (.operator (.binary op) [.ofTree l true, .ofTree r false])
  | .choice _ c y n =>
    some (.operator .choice [.ofTree c true, .ofTree y true, .ofTree n false])
  | .cast _ target x => some (.cast target (.ofTree x true))
  | .group _ x => some (.group x.id)
  | .call _ f args => some (.call f (args.map Tree.id))

/-- The topmost part of a tree as an entry. -/
def Part.ofTree? (t : Tree) : Option Part :=
  (PartKind.ofTree? t).map fun k => ⟨k, t.origin.token, t.origin.span⟩

/-- The table of a tree: every id up to `count` with the part that has it. -/
def Arena.ofTree (t : Tree) (count : Nat) : Arena :=
  let nodes := t.nodes
  ⟨(List.range count).filterMap fun id => (nodes.find? fun n => n.id == id).bind Part.ofTree?⟩

def Expr.arena (e : Expr) : Arena := .ofTree e.tree e.partCount

end ExprEngine
