import ExprEngine.Parse.Operand
import ExprEngine.Token.Literal
import ExprEngine.Limits

/-!
# From tokens to a tree

The parser reads the tokens once, from left to right. It keeps one level for every bracket that is
open: the operands found in it so far, and for a call the arguments that are complete. Where a
bracket closes is looked up when it opens.

* `closing?`     the lexeme that closes a bracket;
* `Level`        an open bracket and what was found in it;
* `ParseState`   the open brackets and the number of parts made so far;
* `step`         one token more;
* `parse`        the expression of a token stream.
-/

namespace ExprEngine

/-- The lexeme that closes the bracket which the first opening parenthesis opens. Any other
parenthesis closes one; `depth` are open before. -/
def closing? : Nat → List Lexeme → Option Lexeme
  | _, [] => none
  | depth, t :: ts =>
    if t.kind ≠ .parenthesis then closing? depth ts
    else if t.isOpening then closing? (depth + 1) ts
    else if depth - 1 = 0 then some t
    else closing? (depth - 1) ts

/-- What an open bracket will become. -/
inductive Bracket
  /-- the expression as a whole -/
  | whole
  /-- a group, by the position of its `(`, its span and the position of its `)` -/
  | group (opening : Nat) (span : Span) (close : Nat)
  /-- a call, by its name, its span and its `)`; `bare` when nothing is between the brackets -/
  | call (name : Lexeme) (span : Span) (close : Lexeme) (bare : Bool)

/-- The position of the lexeme that closes a bracket. -/
def Bracket.close? : Bracket → Option Nat
  | whole => none
  | group _ _ close => some close
  | call _ _ close _ => some close.index

/-- An open bracket: its operands, and for a call its complete arguments. -/
structure Level where
  bracket : Bracket
  operands : OperandStack := []
  args : List Tree := []

/-- The open brackets, the innermost apart, and the id of the next part. -/
structure ParseState where
  level : Level := { bracket := .whole }
  outer : List Level := []
  next : PartId := 0
  /-- lexemes that are accounted for already -/
  skip : Nat := 0

namespace ParseState

/-- The lexemes ahead that lie inside the innermost bracket. -/
def within (st : ParseState) (ahead : List Lexeme) : List Lexeme :=
  match st.level.bracket.close? with
  | none => ahead
  | some close => ahead.takeWhile fun t => t.index < close

/-- An id for a part built from a token, unless there are too many parts. -/
def alloc (limits : Limits) (token : Nat) (span : Span) (st : ParseState) :
    Except ParseError (Origin × ParseState) :=
  if limits.maxParts ≤ st.next then .error ⟨.tooManyParts limits.maxParts, some token, span, none⟩
  else .ok (⟨st.next, token, span⟩, { st with next := st.next + 1 })

/-- The state with other operands in the innermost bracket. -/
def setOperands (st : ParseState) (s : OperandStack) : ParseState :=
  { st with level := { st.level with operands := s } }

/-- Makes a finished part and hands it to the operands. -/
def place (limits : Limits) (token : Nat) (span : Span) (make : Origin → Tree) (st : ParseState) :
    Except ParseError ParseState := do
  let (o, st) ← st.alloc limits token span
  let s ← st.level.operands.connect limits.maxOperands (make o)
  return st.setOperands s

/-- Makes an operator that waits and pushes it. -/
def await (limits : Limits) (token : Nat) (span : Span) (make : Origin → Pending)
    (st : ParseState) : Except ParseError ParseState := do
  let (o, st) ← st.alloc limits token span
  let s ← st.level.operands.push limits.maxOperands (.pending (make o))
  return st.setOperands s

/-- An operator with one operand, which comes after it. -/
def unary (limits : Limits) (t : Lexeme) (op : UnaryOp) (st : ParseState) :
    Except ParseError ParseState :=
  st.await limits t.index t.span (.unary · op)

/-- An operator between its operands: it takes the left one and waits for the next. -/
def infixOperator (limits : Limits) (t : Lexeme) (b : Binding) (make : Tree → Origin → Pending)
    (st : ParseState) : Except ParseError ParseState := do
  let (left, s) ← st.level.operands.takeLeft limits.maxOperands b t
  (st.setOperands s).await limits t.index t.span (make left)

def operator (limits : Limits) (t : Lexeme) (st : ParseState) : Except ParseError ParseState :=
  if t.text == branchSymbol then (st.level.operands.separate t).map st.setOperands
  else match Operator.ofSymbol? t.text with
    | none => .error (t.parseError (.invalidOperator t.text))
    | some (.unary op) => st.unary limits t op
    | some (.binary op) =>
      st.infixOperator limits t ⟨op.precedence, op.isAssignment⟩ fun l o => .binary o op l
    | some .choice =>
      st.infixOperator limits t ⟨choicePrecedence, false⟩ fun c o => .condition o c

/-- One bracket deeper, unless the nesting is too deep. -/
def descend (limits : Limits) (opening : Lexeme) (bracket : Bracket) (skip : Nat)
    (st : ParseState) : Except ParseError ParseState :=
  if limits.maxNesting ≤ st.outer.length then
    .error (opening.parseError (.nestingTooDeep limits.maxNesting))
  else .ok { st with level := { bracket }, outer := st.level :: st.outer, skip }

/-- A call: its name, and the lexemes from its `(` on. -/
def openCall (limits : Limits) (name opening : Lexeme) (ahead : List Lexeme) (st : ParseState) :
    Except ParseError ParseState :=
  match closing? 0 (opening :: ahead) with
  | none => .error (opening.parseError .mismatchedParenthesis)
  | some close =>
    st.descend limits opening
      (.call name (name.span.merge close.span) close (close.index == opening.index + 1)) 1

/-- The type between two parentheses, when a type name is all there is. -/
def castTarget? (opening close : Lexeme) (ahead : List Lexeme) : Option ValueType :=
  match ahead with
  | name :: _ =>
    if close.index = opening.index + 2 ∧ name.kind = .identifier then ValueType.ofName? name.text
    else none
  | [] => none

/-- An opening parenthesis: a cast, or a group. -/
def openParenthesis (limits : Limits) (t : Lexeme) (ahead : List Lexeme) (st : ParseState) :
    Except ParseError ParseState :=
  match closing? 0 (t :: ahead) with
  | none => .error (t.parseError .mismatchedParenthesis)
  | some close =>
    let span := t.span.merge close.span
    match castTarget? t close ahead with
    | some target =>
      (st.await limits t.index span (.cast · target)).map fun st => { st with skip := 2 }
    | none => st.descend limits t (.group t.index span close.index) 0

/-- A name that stands for a variable. -/
def reference (r : Registry) (limits : Limits) (t : Lexeme) (st : ParseState) :
    Except ParseError ParseState :=
  match r.variableNamed? t.text with
  | some x => st.place limits t.index t.span (.reference · x)
  | none => .error (t.parseError (.unknownVariable t.text))

/-- A name: a boolean constant, a call, or a variable. -/
def identifier (r : Registry) (limits : Limits) (t : Lexeme) (ahead : List Lexeme)
    (st : ParseState) : Except ParseError ParseState :=
  match booleanNamed? t.text with
  | some b => st.place limits t.index t.span (.constant · (.bool b))
  | none =>
    match ahead with
    | opening :: rest =>
      if opening.isOpening then st.openCall limits t opening rest else st.reference r limits t
    | [] => st.reference r limits t

/-- The function that a call means. -/
def resolveCall (r : Registry) (name : Lexeme) (count : Nat) : Except ParseError FuncId :=
  if maxArguments < count then
    .error (name.parseError (.tooManyArguments name.text maxArguments))
  else match r.resolve name.text count with
    | .ok f => .ok f
    | .error .unknown => .error (name.parseError (.unknownFunction name.text))
    | .error (.tooMany max) => .error (name.parseError (.tooManyArguments name.text max))
    | .error (.missing min) => .error (name.parseError (.missingArguments name.text min))

/-- The defaults of a function's parameters after the first `count`. -/
def defaultsAfter (r : Registry) (f : FuncId) (count : Nat) : List Value :=
  match r.functionAt? f with
  | some s => (s.parameters.drop count).filterMap Parameter.default
  | none => []

/-- Constants for the arguments that a call leaves out, placed at its `)`. -/
def fillDefaults (limits : Limits) (close : Lexeme) :
    List Value → ParseState → Except ParseError (List Tree × ParseState)
  | [], st => .ok ([], st)
  | v :: vs, st => do
    let (o, st) ← st.alloc limits close.index close.span
    let (args, st) ← fillDefaults limits close vs st
    return (.constant o v :: args, st)

/-- The last argument, or the end of an empty list of arguments. -/
def closeArguments (close : Lexeme) (bare : Bool) (l : Level) : Except ParseError (List Tree) :=
  if bare then .ok []
  else (l.operands.single ⟨.emptyArgument, none, close.span, none⟩).map fun t => l.args ++ [t]

/-- The innermost bracket closes. What it leaves becomes an operand of the bracket around it. -/
def ascend (r : Registry) (limits : Limits) (st : ParseState) : Except ParseError ParseState :=
  match st.outer with
  | [] => .ok st
  | level :: outer =>
    let around := { st with level, outer }
    match st.level.bracket with
    | .whole => .ok around
    | .group opening span _ => do
      let inner ← st.level.operands.single ⟨.emptyExpression, none, span, none⟩
      around.place limits opening span (.group · inner)
    | .call name span close bare => do
      let args ← closeArguments close bare st.level
      let f ← resolveCall r name args.length
      let (filled, around) ← fillDefaults limits close (defaultsAfter r f args.length) around
      around.place limits name.index span (.call · f (args ++ filled))

/-- A comma ends an argument of a call. -/
def comma (t : Lexeme) (st : ParseState) : Except ParseError ParseState :=
  match st.level.bracket with
  | .call .. =>
    (st.level.operands.single ⟨.emptyArgument, none, t.span, none⟩).map fun arg =>
      { st with level := { st.level with operands := [], args := st.level.args ++ [arg] } }
  | _ => .error (t.parseError .unexpectedComma)

/-- A token that no open bracket was waiting for. -/
def token (r : Registry) (limits : Limits) (t : Lexeme) (ahead : List Lexeme) (st : ParseState) :
    Except ParseError ParseState :=
  match t.kind with
  | .number =>
    match Literal.number? t.text.toList with
    | some v => st.place limits t.index t.span (.constant · v)
    | none => .error (t.parseError .invalidConstant)
  | .string =>
    st.place limits t.index t.span
      (.constant · (.string (String.ofList (Literal.unescape t.text.toList))))
  | .identifier => st.identifier r limits t (st.within ahead)
  | .parenthesis =>
    if t.isOpening then st.openParenthesis limits t (st.within ahead)
    else .error (t.parseError .mismatchedParenthesis)
  | .operator => st.operator limits t
  | .comma => st.comma t

/-- One token more, with the tokens after it to look ahead. -/
def step (r : Registry) (limits : Limits) (t : Lexeme) (ahead : List Lexeme) (st : ParseState) :
    Except ParseError ParseState :=
  match st.skip with
  | skip + 1 => .ok { st with skip }
  | 0 =>
    if st.level.bracket.close? = some t.index then st.ascend r limits
    else st.token r limits t ahead

/-- All tokens, one after the other. -/
def run (r : Registry) (limits : Limits) : List Lexeme → ParseState → Except ParseError ParseState
  | [], st => .ok st
  | t :: ts, st =>
    match st.step r limits t ts with
    | .ok st' => run r limits ts st'
    | .error e => .error e

end ParseState

/-- The expression of a token stream, its names resolved in a registry. -/
def parse (stream : TokenStream) (r : Registry) (limits : Limits) : Except ParseError Expr := do
  let st ← ParseState.run r limits stream.lexemes {}
  let root ← st.level.operands.single ⟨.emptyExpression, none, .point stream.endOffset, none⟩
  return ⟨root, st.next⟩

end ExprEngine
