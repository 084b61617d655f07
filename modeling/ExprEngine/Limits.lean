/-!
# Limits

* `Limits`   bounds on one expression, so that hostile text costs little.
-/

namespace ExprEngine

/-- Bounds on one expression. -/
structure Limits where
  /-- most parts, filled-in defaults included -/
  maxParts : Nat := 256
  /-- most pending operands within one pair of brackets -/
  maxOperands : Nat := 32
  /-- deepest nesting of brackets -/
  maxNesting : Nat := 32
  /-- most intermediate values of a run -/
  maxValues : Nat := 64
deriving DecidableEq, Repr

end ExprEngine
