import ExprEngine.Arena
import ExprEngine.Parse

/-!
# Parsing in a table

The parser once more, on one table of parts. An entry of an operand stack is the id of a part, and
what the part waits for is told by its slots: the first empty one takes the next operand, the last
filled one gives its operand away again unless it is locked.

* `Request`                 what a token asks for, whatever the operands are;
* `Attempt`                 a result, an error, or no end;
* `Arena.connect`           hands an operand to the part that waits on top;
* `Arena.descend`           the way down to the operand that an infix operator takes;
* `Arena.takeLeft`          that operand, taken out of its slot;
* `TableState.perform`      what a token asks for, done in the table;
* `parseTable`              the table and the root of a token stream.
-/

namespace ExprEngine

/-! ## requests -/

/-- What a token asks for. -/
inductive Request
  /-- nothing, the token was accounted for -/
  | pass
  | refuse (e : ParseError)
  | constant (t : Lexeme) (v : Value)
  | reference (t : Lexeme) (x : VarId)
  | operator (t : Lexeme) (op : Operator)
  /-- the `:` of a choice -/
  | separate (t : Lexeme)
  /-- a cast, by its `(` and its span -/
  | cast (t : Lexeme) (span : Span) (target : ValueType)
  | descend (opening : Lexeme) (bracket : Bracket) (skip : Nat)
  /-- the end of the innermost bracket -/
  | ascend
  /-- the end of an argument -/
  | comma (t : Lexeme)

/-- The lexemes ahead that lie inside a bracket. -/
def Bracket.within (b : Bracket) (ahead : List Lexeme) : List Lexeme :=
  match b.close? with
  | none => ahead
  | some close => ahead.takeWhile fun t => t.index < close

namespace Request

def ofOperator (t : Lexeme) : Request :=
  if t.text == branchSymbol then separate t
  else match Operator.ofSymbol? t.text with
    | none => refuse (t.parseError (.invalidOperator t.text))
    | some op => operator t op

def ofReference (r : Registry) (t : Lexeme) : Request :=
  match r.variableNamed? t.text with
  | some x => reference t x
  | none => refuse (t.parseError (.unknownVariable t.text))

def ofCall (name opening : Lexeme) (ahead : List Lexeme) : Request :=
  match closing? 0 (opening :: ahead) with
  | none => refuse (opening.parseError .mismatchedParenthesis)
  | some close =>
    descend opening
      (.call name (name.span.merge close.span) close (close.index == opening.index + 1)) 1

def ofIdentifier (r : Registry) (t : Lexeme) (ahead : List Lexeme) : Request :=
  match booleanNamed? t.text with
  | some b => constant t (.bool b)
  | none =>
    match ahead with
    | opening :: rest => if opening.isOpening then ofCall t opening rest else ofReference r t
    | [] => ofReference r t

def ofParenthesis (t : Lexeme) (ahead : List Lexeme) : Request :=
  match closing? 0 (t :: ahead) with
  | none => refuse (t.parseError .mismatchedParenthesis)
  | some close =>
    let span := t.span.merge close.span
    match ParseState.castTarget? t close ahead with
    | some target => cast t span target
    | none => descend t (.group t.index span close.index) 0

/-- What a token asks for that does not close the innermost bracket. -/
def ofToken (r : Registry) (bracket : Bracket) (t : Lexeme) (ahead : List Lexeme) : Request :=
  match t.kind with
  | .number =>
    match Literal.number? t.text.toList with
    | some v => constant t v
    | none => refuse (t.parseError .invalidConstant)
  | .string => constant t (.string (String.ofList (Literal.unescape t.text.toList)))
  | .identifier => ofIdentifier r t (bracket.within ahead)
  | .parenthesis =>
    if t.isOpening then ofParenthesis t (bracket.within ahead)
    else refuse (t.parseError .mismatchedParenthesis)
  | .operator => ofOperator t
  | .comma =>
    match bracket with
    | .call .. => comma t
    | _ => refuse (t.parseError .unexpectedComma)

/-- What a token asks for inside a bracket, with the tokens after it to look ahead. -/
def next (r : Registry) (bracket : Bracket) (skip : Nat) (t : Lexeme) (ahead : List Lexeme) :
    Request :=
  match skip with
  | _ + 1 => pass
  | 0 => if bracket.close? = some t.index then ascend else ofToken r bracket t ahead

end Request

/-- How an operator competes for its left operand. -/
def Operator.binding (op : Operator) : Binding := ⟨op.precedence, op.isRightAssociative⟩

/-! ## parts and their slots -/

/-- Whether a part as a left operand stays whole: it is no operator, or it binds tighter, or as
tightly and the operator groups to the left. -/
def Binding.keepsKind (b : Binding) (k : PartKind) : Bool :=
  match k.precedence? with
  | none => true
  | some p => b.precedence < p || (p == b.precedence && !b.rightAssociative)

namespace PartKind

/-- A choice whose first branch is there and not closed by a `:` yet. -/
def hasOpenBranch : PartKind → Bool
  | operator .choice [_, branch, _] => branch.child.isSome && !branch.locked
  | _ => false

/-- Whether the part takes an operand: a slot is empty, and no branch waits for its `:`. -/
def awaits (k : PartKind) : Bool := k.hasSlots && !k.isReady && !k.hasOpenBranch

/-- Whether a `:` closes the first branch of the part. -/
def awaitsSeparator : PartKind → Bool
  | operator .choice [_, branch, other] =>
    branch.child.isSome && !branch.locked && other.child.isNone
  | _ => false

def isCast : PartKind → Bool
  | cast _ _ => true
  | _ => false

/-- The part with an operand in its first empty slot. -/
def fill (k : PartKind) (child : PartId) (locked : Bool) : PartKind :=
  match k.emptySlot? with
  | some i => k.setSlot i ⟨some child, locked⟩
  | none => k

/-- The operand that the part gives away again, with its slot. -/
def stealable? (k : PartKind) : Option (Nat × PartId) :=
  k.stealableSlot?.bind fun i => (k.slots[i]?.bind Slot.child).map fun child => (i, child)

end PartKind

/-! ## operations on the table -/

/-- A result or an error, if there is an end. -/
abbrev Attempt (α : Type) := ExceptT ParseError Option α

namespace Attempt

variable {α : Type}

/-- An attempt that ends. -/
def of (x : Except ParseError α) : Attempt α := ExceptT.mk (some x)

/-- An attempt that takes more steps than it may. -/
def endless : Attempt α := ExceptT.mk none

def Ends (x : Attempt α) : Prop := ∃ y, x = of y

end Attempt

namespace Arena

/-- Whether a part of the table passes a test. -/
def test (a : Arena) (f : PartKind → Bool) (id : PartId) : Bool :=
  (a.part? id).any fun p => f p.kind

/-- An error at the token of a part. -/
def errorAt (a : Arena) (id : PartId) (cause : ParseCause) : ParseError :=
  match a.part? id with
  | some p => ⟨cause, some p.token, p.span, none⟩
  | none => ⟨cause, none, .zero, none⟩

/-- The table with the operand in a slot locked. -/
def lock (a : Arena) (id : PartId) (i : Nat) : Arena :=
  match (a.part? id).bind fun p => p.kind.slots[i]? with
  | some s => a.setSlot id i { s with locked := true }
  | none => a

/-- A part more, unless there are too many. -/
def make (limits : Limits) (p : Part) (a : Arena) : Attempt (PartId × Arena) :=
  if limits.maxParts ≤ a.size then
    throw ⟨.tooManyParts limits.maxParts, some p.token, p.span, none⟩
  else return (a.size, a.alloc p)

/-- One more entry on a stack, unless it is full. -/
def push (max : Nat) (id : PartId) (a : Arena) (stack : List PartId) :
    Attempt (Arena × List PartId) :=
  if max ≤ stack.length then throw (a.errorAt id (.operandOverflow max))
  else return (a, id :: stack)

/-- Hands a part to the one that waits on top, and that one, if it is filled now, to the one below.
A part that nothing waits for is pushed. -/
def connect (max : Nat) (a : Arena) : List PartId → PartId → Attempt (Arena × List PartId)
  | [], id => push max id a []
  | top :: below, id =>
    if a.test PartKind.isReady id && a.test PartKind.awaits top then
      let a := (a.fill top id (a.test PartKind.isCast top)).2
      if a.test PartKind.isReady top then connect max a below top else return (a, top :: below)
    else push max id a (top :: below)

/-- The way from a part down through the slots that give their operands away, to the first part
that stays whole. -/
def descend (a : Arena) (b : Binding) : Nat → PartId → Attempt (List (PartId × Nat) × PartId)
  | 0, _ => .endless
  | steps + 1, id =>
    if a.test (fun k => k.isReady && b.keepsKind k) id then return ([], id)
    else match (a.part? id).bind fun p => p.kind.stealable? with
      | none => throw (a.errorAt id .missingRightOperand)
      | some (i, child) => do
        let (path, operand) ← descend a b steps child
        return ((id, i) :: path, operand)

/-- Empties the slots on a way down and pushes their parts again, the outermost first. -/
def reopen (max : Nat) (a : Arena) :
    List (PartId × Nat) → List PartId → Attempt (Arena × List PartId)
  | [], stack => return (a, stack)
  | (id, i) :: path, stack => do
    let (a, stack) ← push max id (a.setSlot id i {}) stack
    reopen max a path stack

/-- The left operand of an infix operator, and the stack without it. -/
def takeLeft (max : Nat) (b : Binding) (here : Lexeme) (a : Arena) :
    List PartId → Attempt (PartId × Arena × List PartId)
  | [] => throw (here.parseError .missingLeftOperand)
  | top :: below => do
    let (path, operand) ← a.descend b a.size top
    let (a, stack) ← a.reopen max path below
    return (operand, a, stack)

/-- The `:` of a choice locks its first branch. -/
def separate (here : Lexeme) (a : Arena) : List PartId → Attempt Arena
  | [] => throw (here.parseError .missingLeftOperand)
  | top :: _ =>
    if a.test PartKind.awaitsSeparator top then return a.lock top 1
    else if a.test (fun k => k.hasSlots && !k.isReady) top then
      throw (a.errorAt top .missingRightOperand)
    else throw (here.parseError (.invalidOperator here.text))

/-- The one filled part of a stack. -/
def single (a : Arena) (stack : List PartId) (ifEmpty : ParseError) : Except ParseError PartId :=
  match stack.reverse.find? fun id => !a.test PartKind.isReady id with
  | some id => .error (a.errorAt id .missingRightOperand)
  | none =>
    match stack.reverse with
    | [] => .error ifEmpty
    | [id] => .ok id
    | first :: second :: _ =>
      .error { a.errorAt second .missingOperator with related := some (a.tree first).extent }

end Arena

/-! ## the parser -/

/-- An open bracket: the ids of its operands, the newest first, and of its arguments. -/
structure TableLevel where
  bracket : Bracket
  operands : List PartId := []
  args : List PartId := []

/-- The table and the open brackets, the innermost apart. -/
structure TableState where
  arena : Arena := {}
  level : TableLevel := { bracket := .whole }
  outer : List TableLevel := []
  /-- lexemes that are accounted for already -/
  skip : Nat := 0

namespace TableState

/-- The state with another table and other operands in the innermost bracket. -/
def setOperands (ts : TableState) (x : Arena × List PartId) : TableState :=
  { ts with arena := x.1, level := { ts.level with operands := x.2 } }

/-- Makes a part and hands it to the operands. -/
def place (limits : Limits) (p : Part) (ts : TableState) : Attempt TableState := do
  let (id, a) ← ts.arena.make limits p
  return ts.setOperands (← a.connect limits.maxOperands ts.level.operands id)

/-- An operator between its operands. It is made with the left one in its first slot. -/
def infixOperator (limits : Limits) (t : Lexeme) (op : Operator) (ts : TableState) :
    Attempt TableState := do
  let (left, x) ← ts.arena.takeLeft limits.maxOperands op.binding t ts.level.operands
  (ts.setOperands x).place limits ⟨(PartKind.ofOperator op).fill left true, t.index, t.span⟩

/-- One bracket deeper, unless the nesting is too deep. -/
def descend (limits : Limits) (opening : Lexeme) (bracket : Bracket) (skip : Nat)
    (ts : TableState) : Attempt TableState :=
  if limits.maxNesting ≤ ts.outer.length then
    throw (opening.parseError (.nestingTooDeep limits.maxNesting))
  else return { ts with level := { bracket }, outer := ts.level :: ts.outer, skip }

/-- Constants for the arguments that a call leaves out, placed at its `)`. -/
def fillDefaults (limits : Limits) (close : Lexeme) :
    List Value → Arena → Attempt (List PartId × Arena)
  | [], a => return ([], a)
  | v :: vs, a => do
    let (id, a) ← a.make limits ⟨.constant v, close.index, close.span⟩
    let (ids, a) ← fillDefaults limits close vs a
    return (id :: ids, a)

/-- The arguments of a call with the last one, which an empty list of arguments has not. -/
def closeArguments (close : Lexeme) (bare : Bool) (ts : TableState) :
    Except ParseError (List PartId) :=
  if bare then .ok []
  else (ts.arena.single ts.level.operands ⟨.emptyArgument, none, close.span, none⟩).map fun id =>
    ts.level.args ++ [id]

/-- The innermost bracket closes. What it leaves becomes an operand of the bracket around it. -/
def ascend (r : Registry) (limits : Limits) (ts : TableState) : Attempt TableState :=
  match ts.outer with
  | [] => return ts
  | level :: outer =>
    let around := { ts with level, outer }
    match ts.level.bracket with
    | .whole => return around
    | .group opening span _ => do
      let inner ← .of (ts.arena.single ts.level.operands ⟨.emptyExpression, none, span, none⟩)
      around.place limits ⟨.group inner, opening, span⟩
    | .call name span close bare => do
      let args ← .of (ts.closeArguments close bare)
      let f ← .of (ParseState.resolveCall r name args.length)
      let (filled, a) ← fillDefaults limits close (ParseState.defaultsAfter r f args.length)
        ts.arena
      { around with arena := a }.place limits ⟨.call f (args ++ filled), name.index, span⟩

/-- A comma ends an argument. -/
def comma (t : Lexeme) (ts : TableState) : Attempt TableState := do
  let arg ← .of (ts.arena.single ts.level.operands ⟨.emptyArgument, none, t.span, none⟩)
  return { ts with level := { ts.level with operands := [], args := ts.level.args ++ [arg] } }

/-- What a token asks for, done. -/
def perform (r : Registry) (limits : Limits) : Request → TableState → Attempt TableState
  | .pass, ts => return { ts with skip := ts.skip - 1 }
  | .refuse e, _ => throw e
  | .constant t v, ts => ts.place limits ⟨.constant v, t.index, t.span⟩
  | .reference t x, ts => ts.place limits ⟨.reference x, t.index, t.span⟩
  | .operator t op, ts =>
    if op.arity = 1 then ts.place limits ⟨.ofOperator op, t.index, t.span⟩
    else ts.infixOperator limits t op
  | .separate t, ts => do
    let a ← ts.arena.separate t ts.level.operands
    return { ts with arena := a }
  | .cast t span target, ts => do
    let ts ← ts.place limits ⟨.cast target {}, t.index, span⟩
    return { ts with skip := 2 }
  | .descend opening bracket skip, ts => ts.descend limits opening bracket skip
  | .ascend, ts => ts.ascend r limits
  | .comma t, ts => ts.comma t

/-- One token more, with the tokens after it to look ahead. -/
def step (r : Registry) (limits : Limits) (t : Lexeme) (ahead : List Lexeme) (ts : TableState) :
    Attempt TableState :=
  ts.perform r limits (.next r ts.level.bracket ts.skip t ahead)

/-- Some tokens, one after the other, with those behind them only to look ahead at. -/
def readBefore (r : Registry) (limits : Limits) (ahead : List Lexeme) :
    List Lexeme → TableState → Attempt TableState
  | [], ts => return ts
  | t :: rest, ts => do
    let ts ← ts.step r limits t (rest ++ ahead)
    readBefore r limits ahead rest ts

end TableState

/-- The table of a token stream and the id of its root. -/
def parseTable (stream : TokenStream) (r : Registry) (limits : Limits) :
    Attempt (Arena × PartId) := do
  let ts ← TableState.readBefore r limits [] stream.lexemes {}
  let root ← .of (ts.arena.single ts.level.operands
    ⟨.emptyExpression, none, .point stream.endOffset, none⟩)
  return (ts.arena, root)

end ExprEngine
