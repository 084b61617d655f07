import ExprEngine.Floating.Format
import ExprEngine.Text.Offset

/-!
# Shortest decimal text of floats

The text of a float has the fewest significant digits that read back to the same float in its own
format, and among those the nearest to its exact value; of two equally near the larger. It is
always positional, whatever the exponent, and a whole number shows no point.

* `Floating.shortest`   the digits and the decimal exponent of a positive value;
* `Floating.display`    the text of a datum.
-/

namespace ExprEngine.Floating

/-- A positive finite value in decimal, exactly, with the grid of floats around it. All three
counts share the scale `10 ^ -places`. -/
structure Grid where
  /-- the value -/
  value : Nat
  /-- the distance to the next float above -/
  gap : Nat
  places : Nat
  /-- whether the distance to the next float below is only half of `gap` -/
  narrowBelow : Bool
  /-- whether a tie reads back to this float -/
  even : Bool

/-- The grid around `m * 2 ^ q`: a negative power of two has as many decimal places as its
exponent says. -/
def Grid.ofBinary (f : Format) (m : Nat) (q : Int) : Grid where
  value := if 0 ≤ q then m <<< q.toNat else m * Nat.pow 5 (-q).toNat
  gap := if 0 ≤ q then 1 <<< q.toNat else Nat.pow 5 (-q).toNat
  places := (-q).toNat
  narrowBelow := m == f.unit && f.leastExponent < q
  even := m % 2 == 0

/-- Whether a decimal on the grid's scale reads back to the value: it lies no further than half the
way to the neighbour on its side, the very middle only for the even float. -/
def Grid.readsBack (g : Grid) (d : Nat) : Bool :=
  let twice := if g.value ≤ d then 2 * (d - g.value)
    else if g.narrowBelow then 4 * (g.value - d) else 2 * (g.value - d)
  if g.even then twice ≤ g.gap else twice < g.gap

/-- The decimal nearest to the value among those with `dropped` digits fewer than it has, when it
reads back. Of two equally near ones that do, the larger. -/
def Grid.nearest? (g : Grid) (dropped : Nat) : Option Nat :=
  let unit := Nat.pow 10 dropped
  let below := g.value / unit
  let above := below + 1
  if g.readsBack (below * unit) then
    if g.readsBack (above * unit) && above * unit - g.value ≤ g.value - below * unit then some above
    else some below
  else if g.readsBack (above * unit) then some above
  else none

/-- The decimal with the most dropped digits that reads back, and how many are dropped. The value
itself drops none. -/
def Grid.shortest (g : Grid) : Nat → Nat × Nat
  | 0 => (g.value, 0)
  | dropped + 1 =>
    match g.nearest? (dropped + 1) with
    | some d => (d, dropped + 1)
    | none => g.shortest dropped

/-- Shortest digits of `m * 2 ^ q` and their decimal exponent. -/
def shortest (f : Format) (m : Nat) (q : Int) : Nat × Int :=
  let g := Grid.ofBinary f m q
  let (d, dropped) := g.shortest ((Nat.toDigits 10 g.value).length - 1)
  (d, (dropped : Int) - g.places)

/-- A text without the zeros at its end. -/
def dropTrailingZeros (cs : Text) : Text := (cs.reverse.dropWhile (· == '0')).reverse

/-- `d * 10 ^ e` written out in full. -/
def positional (d : Nat) (e : Int) : String :=
  let digits := Nat.toDigits 10 d
  if 0 ≤ e then String.ofList (digits ++ List.replicate e.toNat '0')
  else
    let places := (-e).toNat
    let padded := List.replicate (places + 1 - digits.length) '0' ++ digits
    let whole := padded.take (padded.length - places)
    let fraction := dropTrailingZeros (padded.drop (padded.length - places))
    String.ofList (if fraction.isEmpty then whole else whole ++ '.' :: fraction)

/-- The text of a datum in its format. -/
def display (f : Format) : Datum → String
  | .nan => "NaN"
  | .infinite negative => if negative then "-inf" else "inf"
  | .finite negative m q =>
    let (d, e) := if m = 0 then (0, 0) else shortest f m q
    (if negative then "-" else "") ++ positional d e

end ExprEngine.Floating
