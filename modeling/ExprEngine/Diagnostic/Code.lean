import ExprEngine.Text.Ascii

/-!
# Error codes

Every error has a code, the letter `E` and four digits; the first digit names the stage.

* `ErrorCode`            what went wrong, without the details;
* `ErrorCode.number`     the number of a code;
* `ErrorCode.text`       the code as it is printed;
* `ErrorCode.ofText?`    the code of a text, in any letter case.
-/

namespace ExprEngine

inductive ErrorCode
  | invalidChar | invalidIdentifier | missingQuote | sourceTooLong
  | mismatchedParenthesis | missingOperator | missingLeftOperand | missingRightOperand
  | invalidOperator | unknownVariable | unknownFunction | tooManyArguments | missingArguments
  | emptyArgument | invalidConstant | emptyExpression | unexpectedComma
  | tooManyParts | nestingTooDeep | operandOverflow
  | leftOperandType | rightOperandType | mismatchedTypes | conditionType | castType | argumentType
  | readOnly | untypedContext
  | divideByZero | bindingType | returnType | noValue | valueOverflow | missingContext
  | unbalancedStack | uncheckedOperand
deriving DecidableEq, Repr

/-- What the first digit of a code names. -/
inductive ErrorGroup
  | tokenizer | parser | types | evaluation | internal
deriving DecidableEq, Repr

namespace ErrorCode

def all : List ErrorCode :=
  [invalidChar, invalidIdentifier, missingQuote, sourceTooLong,
   mismatchedParenthesis, missingOperator, missingLeftOperand, missingRightOperand,
   invalidOperator, unknownVariable, unknownFunction, tooManyArguments, missingArguments,
   emptyArgument, invalidConstant, emptyExpression, unexpectedComma,
   tooManyParts, nestingTooDeep, operandOverflow,
   leftOperandType, rightOperandType, mismatchedTypes, conditionType, castType, argumentType,
   readOnly, untypedContext,
   divideByZero, bindingType, returnType, noValue, valueOverflow, missingContext,
   unbalancedStack, uncheckedOperand]

theorem mem_all (c : ErrorCode) : c ∈ all := by cases c <;> decide

/-- The number of a code. Its thousands name the stage. -/
def number : ErrorCode → Nat
  | invalidChar => 1
  | invalidIdentifier => 2
  | missingQuote => 3
  | sourceTooLong => 4
  | mismatchedParenthesis => 1001
  | missingOperator => 1002
  | missingLeftOperand => 1003
  | missingRightOperand => 1004
  | invalidOperator => 1005
  | unknownVariable => 1006
  | unknownFunction => 1007
  | tooManyArguments => 1008
  | missingArguments => 1009
  | emptyArgument => 1010
  | invalidConstant => 1011
  | emptyExpression => 1012
  | unexpectedComma => 1013
  | tooManyParts => 1014
  | nestingTooDeep => 1015
  | operandOverflow => 1016
  | leftOperandType => 2001
  | rightOperandType => 2002
  | mismatchedTypes => 2003
  | conditionType => 2004
  | castType => 2005
  | argumentType => 2006
  | readOnly => 2007
  | untypedContext => 2008
  | divideByZero => 6001
  | bindingType => 6002
  | returnType => 6003
  | noValue => 6004
  | valueOverflow => 6005
  | missingContext => 6006
  | unbalancedStack => 9001
  | uncheckedOperand => 9002

def group (c : ErrorCode) : ErrorGroup :=
  match c.number / 1000 with
  | 0 => .tokenizer
  | 1 => .parser
  | 2 => .types
  | 6 => .evaluation
  | _ => .internal

/-- The code as it is printed: `E` and the number in four digits. -/
def text (c : ErrorCode) : String :=
  let digits := Nat.toDigits 10 c.number
  String.ofList ('E' :: (List.replicate (4 - digits.length) '0' ++ digits))

/-- The code of a text, in any letter case. -/
def ofText? (s : String) : Option ErrorCode := all.find? fun c => Text.sameIgnoringCase c.text s

end ErrorCode
end ExprEngine
