import ExprEngine.Text.Offset

/-!
# Reading decimals

A decimal is an optional sign, digits with at most one point and at least one digit, and an
optional exponent. It denotes an exact rational, which is rounded once to the format asked for.

* `Decimal.read?`       the decimal a text denotes;
* `Decimal.toFloat`     the nearest 64-bit float, ties to even;
* `Decimal.toFloat32`   the nearest 32-bit float, ties to even.
-/

namespace ExprEngine.Floating

/-- `± digits * 10 ^ exponent`. -/
structure Decimal where
  negative : Bool
  digits : Nat
  exponent : Int
deriving DecidableEq, Repr

namespace Decimal

/-- A text of digits as a natural number, most significant first. -/
def ofDigits (cs : Text) : Nat := cs.foldl (fun n c => 10 * n + (c.toNat - '0'.toNat)) 0

/-- A sign at the front of a text, and what follows it. -/
def takeSign : Text → Bool × Text
  | '-' :: cs => (true, cs)
  | '+' :: cs => (false, cs)
  | cs => (false, cs)

/-- The exponent that ends a decimal: nothing, or `e`, a sign and digits up to the end. -/
def readExponent? : Text → Option Int
  | [] => some 0
  | c :: cs =>
    if c == 'e' || c == 'E' then
      let (negative, digits) := takeSign cs
      if digits.isEmpty || !digits.all Char.isDigit then none
      else if negative then some (-(ofDigits digits : Int)) else some (ofDigits digits)
    else none

/-- The fraction after the whole digits: its digits, and what follows them. -/
def takeFraction : Text → Text × Text
  | '.' :: cs => (cs.takeWhile Char.isDigit, cs.dropWhile Char.isDigit)
  | cs => ([], cs)

/-- The decimal a text denotes. -/
def read? (cs : Text) : Option Decimal :=
  let (negative, cs) := takeSign cs
  let whole := cs.takeWhile Char.isDigit
  let (fraction, rest) := takeFraction (cs.dropWhile Char.isDigit)
  if whole.isEmpty && fraction.isEmpty then none
  else (readExponent? rest).map fun e =>
    ⟨negative, ofDigits (whole ++ fraction), e - fraction.length⟩

/-- A decimal within reach of the formats, with the same nearest float: beyond `10 ^ 400` every
format overflows, and below `10 ^ -400` every format underflows to zero. -/
def withinReach (d : Decimal) : Decimal :=
  let magnitude := (Nat.toDigits 10 d.digits).length + d.exponent
  if d.digits = 0 || magnitude < -400 then ⟨d.negative, 0, 0⟩
  else if 400 < magnitude then ⟨d.negative, 1, 400⟩
  else d

def toFloat (d : Decimal) : Float :=
  let r := d.withinReach
  let x := Float.ofScientific r.digits (r.exponent < 0) r.exponent.natAbs
  if r.negative then -x else x

def toFloat32 (d : Decimal) : Float32 :=
  let r := d.withinReach
  let x := Float32.ofScientific r.digits (r.exponent < 0) r.exponent.natAbs
  if r.negative then -x else x

end Decimal
end ExprEngine.Floating
