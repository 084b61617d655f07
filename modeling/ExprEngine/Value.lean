import ExprEngine.ValueType
import ExprEngine.Text.Escape
import ExprEngine.Floating.Shortest

/-!
# Values

* `Value.type`       the type of a value;
* `Value.truth?`     what a condition makes of it;
* `Value.zero`       the zero of each type;
* `Value.display`    its text;
* `Value.cast?`      its conversion to a type: integers wrap, floats are cut and kept in range.
-/

namespace ExprEngine

/-- A handle of the host, with a tag of the host's own. Handles are compared and never followed. -/
structure Pointer where
  handle : UInt64
  tag : UInt64
deriving DecidableEq

inductive Value
  | void
  | bool (b : Bool)
  | pointer (p : Pointer)
  | string (s : String)
  | r32 (x : Float32)
  | r64 (x : Float)
  | int (n : FixedInt)
deriving DecidableEq

/-- The number behind a value, before a conversion. -/
inductive Scalar
  | int (n : Int)
  | single (x : Float32)
  | double (x : Float)

namespace Scalar

/-- The number as a 32-bit float, rounded once. -/
def toFloat32 : Scalar → Float32
  | int n => Float32.ofInt n
  | single x => x
  | double x => x.toFloat32

/-- The number as a 64-bit float, rounded once. -/
def toFloat : Scalar → Float
  | int n => Float.ofInt n
  | single x => x.toFloat
  | double x => x

/-- The number as an integer of a type: an integer wraps, a float loses its fraction and stops at
the ends of the type. -/
def toFixedInt (t : IntType) : Scalar → FixedInt
  | int n => .wrap t n
  | single x => .clamp t ((Floating.ofFloat32 x).truncate t.least t.greatest)
  | double x => .clamp t ((Floating.ofFloat x).truncate t.least t.greatest)

end Scalar

namespace Value

def type : Value → ValueType
  | void => .void
  | bool _ => .bool
  | pointer _ => .pointer
  | string _ => .string
  | r32 _ => .r32
  | r64 _ => .r64
  | int n => .int n.type

/-- What a condition makes of a value: nonzero, nonempty, not null. -/
def truth? : Value → Option Bool
  | void => none
  | bool b => some b
  | pointer p => some (p.handle != 0)
  | string s => some (s != "")
  | r32 x => some (x != 0.0)
  | r64 x => some (x != 0.0)
  | int n => some (n.val != 0)

/-- The number behind a value. A `bool` counts as zero or one. -/
def scalar? : Value → Option Scalar
  | bool b => some (.int (if b then 1 else 0))
  | r32 x => some (.single x)
  | r64 x => some (.double x)
  | int n => some (.int n.val)
  | _ => none

def zero : ValueType → Value
  | .void => void
  | .bool => bool false
  | .pointer => pointer ⟨0, 0⟩
  | .string => string ""
  | .float .r32 => r32 0.0
  | .float .r64 => r64 0.0
  | .int t => int (.wrap t 0)

def display : Value → String
  | void => "void"
  | bool b => if b then "true" else "false"
  | pointer p => "pointer(0x" ++ Text.hex p.handle.toNat ++ ":" ++ toString p.tag.toNat ++ ")"
  | string s => s
  | r32 x => Floating.display .single (Floating.ofFloat32 x)
  | r64 x => Floating.display .double (Floating.ofFloat x)
  | int n => toString n.val

/-- The text of a value inside a tree, where strings are quoted. -/
def displayInTree : Value → String
  | string s => Text.quoted s
  | v => v.display

/-- The conversion of a value to a type, when the types allow it. -/
def cast? (v : Value) : ValueType → Option Value
  | .void => match v with
    | void => some void
    | _ => none
  | .bool => v.truth?.map bool
  | .pointer => match v with
    | pointer p => some (pointer p)
    | _ => none
  | .string => match v with
    | string s => some (string s)
    | _ => none
  | .float .r32 => v.scalar?.map fun n => r32 n.toFloat32
  | .float .r64 => v.scalar?.map fun n => r64 n.toFloat
  | .int t => v.scalar?.map fun n => int (n.toFixedInt t)

/-! ## conversions and types agree -/

theorem type_zero (t : ValueType) : (zero t).type = t := by
  cases t with
  | float t => cases t <;> rfl
  | _ => rfl

/-- A conversion succeeds exactly when the types allow it. -/
theorem isSome_cast? (v : Value) (t : ValueType) : (v.cast? t).isSome = v.type.castsTo t := by
  cases v <;> rcases t with _ | _ | _ | _ | ⟨_ | _⟩ | t <;>
    simp [cast?, truth?, scalar?, type, ValueType.castsTo, ValueType.isBoolable,
      ValueType.isNumeric]

/-- A conversion has the type asked for. -/
theorem type_of_cast? {v w : Value} {t : ValueType} (h : v.cast? t = some w) : w.type = t := by
  rcases t with _ | _ | _ | _ | ⟨_ | _⟩ | t
  case void =>
    cases v <;> simp_all [cast?]
    subst h
    rfl
  case pointer =>
    cases v <;> simp_all [cast?]
    subst h
    rfl
  case string =>
    cases v <;> simp_all [cast?]
    subst h
    rfl
  case bool =>
    obtain ⟨b, _, rfl⟩ := Option.map_eq_some_iff.1 h
    rfl
  case float.r32 =>
    obtain ⟨n, _, rfl⟩ := Option.map_eq_some_iff.1 h
    rfl
  case float.r64 =>
    obtain ⟨n, _, rfl⟩ := Option.map_eq_some_iff.1 h
    rfl
  case int =>
    obtain ⟨n, _, rfl⟩ := Option.map_eq_some_iff.1 h
    cases n <;> rfl

/-- A value converts to its own type unchanged. -/
theorem cast?_type (v : Value) : v.cast? v.type = some v := by
  cases v with
  | int n => simp [cast?, type, scalar?, Scalar.toFixedInt, FixedInt.wrap_val]
  | _ => rfl

end Value
end ExprEngine
