import ExprEngine.Value
import ExprEngine.Floating.Decimal

/-!
# What literals denote

* `Literal.unescape`   the text of a string literal, escapes expanded;
* `Literal.number?`    the value of a number literal, in the narrowest type that holds it.
-/

namespace ExprEngine.Literal

/-- The character that a backslash and a character stand for, when they are an escape. -/
def escapeTarget? : Char → Option Char
  | '\\' => some '\\'
  | '"' => some '"'
  | '\'' => some '\''
  | 'n' => some '\n'
  | 'r' => some '\r'
  | 't' => some '\t'
  | _ => none

/-- Expands the escapes of a string literal. A backslash before any other character, or at the end,
stands for itself. -/
def unescape : Text → Text
  | [] => []
  | '\\' :: c :: cs =>
    match escapeTarget? c with
    | some d => d :: unescape cs
    | none => '\\' :: c :: unescape cs
  | c :: cs => c :: unescape cs

/-- The number of decimal digits that matter: none before the first nonzero one, and no zeros after
the last. -/
def significantDigits (cs : Text) : Nat :=
  (((cs.filter Char.isDigit).dropWhile (· == '0')).reverse.dropWhile (· == '0')).length

/-- Digits that a 32-bit float holds for certain, and one more. -/
def wideFloatDigits : Nat := 7

/-- The natural number of a text of digits. -/
def natural? (cs : Text) : Option Nat :=
  if cs.isEmpty || !cs.all Char.isDigit then none else some (Floating.Decimal.ofDigits cs)

/-- The integer in the narrowest type of its signedness that holds it. -/
def narrowest? (signed : Bool) (n : Int) : Option Value :=
  [Width.w8, .w16, .w32, .w64].findSome? fun w => (FixedInt.ofInt? ⟨signed, w⟩ n).map Value.int

/-- The value of an integer literal: signed when it starts with `-`, else unsigned. -/
def integer? : Text → Option Value
  | '-' :: cs => (natural? cs).bind fun n => narrowest? true (-(n : Int))
  | '+' :: cs => (natural? cs).bind fun n => narrowest? false n
  | cs => (natural? cs).bind fun n => narrowest? false n

/-- The value of a number literal. With a point it is a float, wide when it has digits for it. -/
def number? (cs : Text) : Option Value :=
  if cs.contains '.' then
    (Floating.Decimal.read? cs).map fun d =>
      if wideFloatDigits ≤ significantDigits cs then .r64 d.toFloat else .r32 d.toFloat32
  else integer? cs

end ExprEngine.Literal
