import ExprEngine.Floating.Format

/-!
# The remainder of floats

The remainder of `x` by `y` is `x - n * y` for the quotient `n` rounded toward zero. It is exact: a
multiple of the finer of the two grids, no larger than either magnitude, so a float holds it.

* `Floating.remainder`   the remainder of 64-bit floats, with the sign of the dividend.
-/

namespace ExprEngine.Floating

/-- The remainder of `m₁ * 2 ^ q₁` by `m₂ * 2 ^ q₂`, on the finer of the two grids. -/
def remainderMagnitude (m₁ : Nat) (q₁ : Int) (m₂ : Nat) (q₂ : Int) : Nat × Int :=
  let q := min q₁ q₂
  ((m₁ <<< (q₁ - q).toNat) % (m₂ <<< (q₂ - q).toNat), q)

/-- The remainder of 64-bit floats. No number: by zero, of an infinity, or with NaN. -/
def remainder (x y : Float) : Float :=
  match ofFloat x, ofFloat y with
  | .finite negative m₁ q₁, .finite _ m₂ q₂ =>
    if m₂ = 0 then 0.0 / 0.0
    else
      let (m, q) := remainderMagnitude m₁ q₁ m₂ q₂
      Float.ofBits (UInt64.ofNat (Format.double.encode negative m q))
  | .finite .., .infinite _ => x
  | _, _ => 0.0 / 0.0

end ExprEngine.Floating
