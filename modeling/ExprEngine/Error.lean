import ExprEngine.Diagnostic.Terminal
import ExprEngine.Machine
import ExprEngine.Parse.Operand
import ExprEngine.Token.Scanner

/-!
# Errors of all stages

Every stage stops at its first error. An error has a message, a code, and a report that points at
the expression.

* `Error`                 the error of a stage;
* `Error.message`         what went wrong, and where;
* `Error.diagnostic`      its report on a source;
* `Error.render`          the report as plain text with the source underlined.
-/

namespace ExprEngine

/-! ## tokens -/

namespace LexCause

/-- What is wrong. -/
def message : LexCause → String
  | invalidChar c => "invalid character `" ++ Text.escapedAscii c ++ "`"
  | invalidIdentifier => "number is followed directly by an identifier"
  | missingQuote => "string literal is missing its closing quote"
  | sourceTooLong n => "expression text is too long (" ++ toString n ++ " bytes)"

/-- The code of the cause. -/
def code : LexCause → ErrorCode
  | invalidChar _ => .invalidChar
  | invalidIdentifier => .invalidIdentifier
  | missingQuote => .missingQuote
  | sourceTooLong _ => .sourceTooLong

/-- The remark at the place of the error. -/
def remark : LexCause → String
  | invalidChar _ => "not valid here"
  | invalidIdentifier => "identifier starts with a digit"
  | missingQuote => "string starts here"
  | sourceTooLong _ => "input starts here"

/-- A way to mend the expression. -/
def suggestion? : LexCause → Option String
  | invalidChar c =>
    if c == '.' then
      some "member access is not supported; a `.` may only start or continue a number"
    else if c == '\n' || c == '\r' then some "an expression must be written on a single line"
    else none
  | invalidIdentifier => some "separate the number from the name with an operator"
  | missingQuote => some "add a closing `\"`"
  | sourceTooLong _ => none

end LexCause

def LexError.diagnostic (e : LexError) : Diagnostic where
  code := e.cause.code
  message := e.cause.message
  labels := [⟨e.span, e.cause.remark, true⟩]
  suggestions := e.cause.suggestion?.toList

/-! ## parsing -/

namespace ParseCause

def message : ParseCause → String
  | mismatchedParenthesis => "unbalanced parenthesis"
  | missingOperator => "expected an operator between operands"
  | missingLeftOperand => "operator has no left operand"
  | missingRightOperand => "operator is missing an operand"
  | invalidOperator found => "unknown operator `" ++ found ++ "`"
  | unknownVariable name => "unknown variable `" ++ name ++ "`"
  | unknownFunction name => "unknown function `" ++ name ++ "`"
  | tooManyArguments name max =>
    "too many arguments to `" ++ name ++ "` (accepts at most " ++ toString max ++ ")"
  | missingArguments name min =>
    "missing arguments to `" ++ name ++ "` (requires at least " ++ toString min ++ ")"
  | emptyArgument => "empty function argument"
  | invalidConstant => "number literal out of range"
  | emptyExpression => "empty expression"
  | unexpectedComma => "comma outside of a function call"
  | tooManyParts max => "expression has more than " ++ toString max ++ " parts"
  | nestingTooDeep max => "parentheses nested deeper than " ++ toString max ++ " levels"
  | operandOverflow max => "more than " ++ toString max ++ " pending operands"

def code : ParseCause → ErrorCode
  | mismatchedParenthesis => .mismatchedParenthesis
  | missingOperator => .missingOperator
  | missingLeftOperand => .missingLeftOperand
  | missingRightOperand => .missingRightOperand
  | invalidOperator _ => .invalidOperator
  | unknownVariable _ => .unknownVariable
  | unknownFunction _ => .unknownFunction
  | tooManyArguments _ _ => .tooManyArguments
  | missingArguments _ _ => .missingArguments
  | emptyArgument => .emptyArgument
  | invalidConstant => .invalidConstant
  | emptyExpression => .emptyExpression
  | unexpectedComma => .unexpectedComma
  | tooManyParts _ => .tooManyParts
  | nestingTooDeep _ => .nestingTooDeep
  | operandOverflow _ => .operandOverflow

def remark : ParseCause → String
  | mismatchedParenthesis => "no matching parenthesis"
  | missingOperator => "expected an operator before this"
  | missingLeftOperand => "nothing on the left"
  | missingRightOperand => "operand missing"
  | invalidOperator _ => "not an operator here"
  | unknownVariable _ => "not defined in the context"
  | unknownFunction _ => "no function with this name"
  | tooManyArguments _ _ => "wrong number of arguments"
  | missingArguments _ _ => "wrong number of arguments"
  | emptyArgument => "empty argument"
  | invalidConstant => "does not fit in 64 bits"
  | emptyExpression => "nothing to evaluate"
  | unexpectedComma => "unexpected comma"
  | tooManyParts _ => "limit reached here"
  | nestingTooDeep _ => "limit reached here"
  | operandOverflow _ => "limit reached here"

def suggestion? : ParseCause → Option String
  | invalidOperator found =>
    if found == branchSymbol then some "`:` is only valid after the `?` of a conditional" else none
  | tooManyParts _ | nestingTooDeep _ | operandOverflow _ =>
    some "simplify the expression or raise the engine limits"
  | _ => none

end ParseCause

def ParseError.diagnostic (e : ParseError) : Diagnostic where
  code := e.cause.code
  message := e.cause.message
  labels := ⟨e.span, e.cause.remark, true⟩ ::
    (e.related.map fun s => (⟨s, "previous operand", false⟩ : Label)).toList
  suggestions := e.cause.suggestion?.toList

/-! ## typing -/

namespace TypeCause

def message : TypeCause → String
  | leftOperand op found =>
    "invalid left operand of type `" ++ found.name ++ "` for " ++ op.name
  | rightOperand op found => "invalid operand of type `" ++ found.name ++ "` for " ++ op.name
  | mismatched op left right =>
    "cannot apply " ++ op.name ++ " to `" ++ left.name ++ "` and `" ++ right.name ++ "`"
  | condition found => "condition of type `" ++ found.name ++ "` has no truth value"
  | cast source target => "cannot cast `" ++ source.name ++ "` to `" ++ target.name ++ "`"
  | argument function index expected found =>
    "argument " ++ toString (index + 1) ++ " of `" ++ function ++ "` is `" ++ found.name ++
      "`, expected `" ++ expected.name ++ "`"
  | readOnly name => "cannot assign to read-only `" ++ name ++ "`"
  | missingContext => "expression refers to a context that was not provided"

def code : TypeCause → ErrorCode
  | leftOperand _ _ => .leftOperandType
  | rightOperand _ _ => .rightOperandType
  | mismatched _ _ _ => .mismatchedTypes
  | condition _ => .conditionType
  | cast _ _ => .castType
  | argument _ _ _ _ => .argumentType
  | readOnly _ => .readOnly
  | missingContext => .untypedContext

def remark : TypeCause → String
  | leftOperand _ found => "this is `" ++ found.name ++ "`"
  | rightOperand _ found => "this is `" ++ found.name ++ "`"
  | condition found => "this is `" ++ found.name ++ "`"
  | mismatched _ left right =>
    "`" ++ left.name ++ "` and `" ++ right.name ++ "` have no common type"
  | cast _ _ => "invalid cast"
  | argument _ _ expected _ => "expected `" ++ expected.name ++ "`"
  | readOnly _ => "assignment target"
  | missingContext => "needs a context"

/-- What helps to understand the cause. -/
def note? : TypeCause → Option String
  | leftOperand (.binary (.compound _)) _ =>
    some "compound assignment needs a numeric variable"
  | leftOperand (.binary .assign) _ => some "only variables can be assigned"
  | cast _ _ => some "strings and pointers only cast to themselves and `bool`"
  | missingContext =>
    some "type-check with the same context the expression was parsed with"
  | _ => none

end TypeCause

def TypeError.diagnostic (e : TypeError) : Diagnostic where
  code := e.cause.code
  message := e.cause.message
  labels := [⟨e.span, e.cause.remark, true⟩]
  notes := e.cause.note?.toList

/-! ## evaluation -/

namespace EvalCause

def message : EvalCause → String
  | divideByZero => "integer division by zero"
  | bindingType name expected found =>
    "variable `" ++ name ++ "` holds a `" ++ found.name ++ "`, declared as `" ++ expected.name
      ++ "`"
  | returnType function expected found =>
    "function `" ++ function ++ "` returned a `" ++ found.name ++ "`, declared to return `" ++
      expected.name ++ "`"
  | noValue => "expression produced no value"
  | valueOverflow max => "evaluation needs more than " ++ toString max ++ " stack slots"
  | unbalancedStack n => "evaluation left " ++ toString n ++ " values on the stack"
  | missingContext => "expression refers to a context that was not provided"
  | uncheckedOperand => "operand value does not match its checked type"

def code : EvalCause → ErrorCode
  | divideByZero => .divideByZero
  | bindingType _ _ _ => .bindingType
  | returnType _ _ _ => .returnType
  | noValue => .noValue
  | valueOverflow _ => .valueOverflow
  | unbalancedStack _ => .unbalancedStack
  | missingContext => .missingContext
  | uncheckedOperand => .uncheckedOperand

def remark : EvalCause → String
  | divideByZero => "right side is zero"
  | bindingType _ _ _ => "read here"
  | returnType _ _ _ => "called here"
  | valueOverflow _ => "stack full here"
  | missingContext => "needs a context"
  | noValue | unbalancedStack _ | uncheckedOperand => "while evaluating this"

def note? : EvalCause → Option String
  | bindingType _ _ _ =>
    some "the host changed the variable's value to an incompatible type"
  | valueOverflow _ => some "raise `Limits::max_eval_stack`"
  | unbalancedStack _ | uncheckedOperand => some "this is a bug in the expression engine"
  | _ => none

end EvalCause

def EvalError.diagnostic (e : EvalError) : Diagnostic where
  code := e.cause.code
  message := e.cause.message
  labels := [⟨e.span, e.cause.remark, true⟩]
  notes := e.cause.note?.toList

/-! ## all stages -/

/-- The stages of the engine. -/
inductive Stage
  | tokenize | parse | typeCheck | evaluate
deriving DecidableEq, Repr

def Stage.name : Stage → String
  | tokenize => "tokenize"
  | parse => "parse"
  | typeCheck => "type check"
  | evaluate => "evaluate"

/-- The error of a stage. -/
inductive Error
  | lex (e : LexError)
  | parse (e : ParseError)
  | type (e : TypeError)
  | eval (e : EvalError)
deriving DecidableEq

namespace Error

def stage : Error → Stage
  | lex _ => .tokenize
  | parse _ => .parse
  | type _ => .typeCheck
  | eval _ => .evaluate

def span : Error → Span
  | lex e => e.span
  | parse e => e.span
  | type e => e.span
  | eval e => e.span

def code : Error → ErrorCode
  | lex e => e.cause.code
  | parse e => e.cause.code
  | type e => e.cause.code
  | eval e => e.cause.code

/-- What is wrong, without the place. -/
def causeMessage : Error → String
  | lex e => e.cause.message
  | parse e => e.cause.message
  | type e => e.cause.message
  | eval e => e.cause.message

/-- What is wrong, and where. -/
def message (e : Error) : String := e.causeMessage ++ " at " ++ e.span.display

/-- The report that the stage itself makes. -/
def stageDiagnostic : Error → Diagnostic
  | lex e => e.diagnostic
  | parse e => e.diagnostic
  | type e => e.diagnostic
  | eval e => e.diagnostic

/-- The note that names the stage and quotes the text at fault. -/
def stageNote (e : Error) (source : Text) : String :=
  let text := e.span.slice source
  if text.isEmpty then e.stage.name ++ " failed"
  else e.stage.name ++ " failed at `" ++ String.ofList text ++ "`"

/-- The report of an error on a source. -/
def diagnostic (e : Error) (source : String) : Diagnostic :=
  e.stageDiagnostic.addNote (e.stageNote source.toList)

/-- The report as plain text, the source underlined. -/
def render (e : Error) (source : String) : String :=
  (e.diagnostic source).render false (some source.toList)

end Error
end ExprEngine
