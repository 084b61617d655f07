import ExprEngine.FixedInt
import ExprEngine.Text.Ascii

/-!
# Types of values

* `ValueType.name`, `ValueType.ofName?`   the name a cast writes, in any letter case;
* `ValueType.castsTo`                     which types convert to which;
* `ValueType.widen?`                      the type two numeric operands compute in.
-/

namespace ExprEngine

inductive FloatType
  | r32 | r64
deriving DecidableEq, Repr

/-- The type of a value. -/
inductive ValueType
  | void
  | bool
  /-- a handle of the host, compared by identity only -/
  | pointer
  | string
  | float (t : FloatType)
  | int (t : IntType)
deriving DecidableEq, Repr

namespace ValueType

abbrev r32 : ValueType := .float .r32
abbrev r64 : ValueType := .float .r64
abbrev i64 : ValueType := .int ⟨true, .w64⟩
abbrev u64 : ValueType := .int ⟨false, .w64⟩

def all : List ValueType :=
  [void, bool, pointer, string, r32, r64,
   .int ⟨true, .w8⟩, .int ⟨true, .w16⟩, .int ⟨true, .w32⟩, i64,
   .int ⟨false, .w8⟩, .int ⟨false, .w16⟩, .int ⟨false, .w32⟩, u64]

theorem mem_all (t : ValueType) : t ∈ all := by
  rcases t with _ | _ | _ | _ | ⟨_ | _⟩ | ⟨⟨_ | _, _ | _ | _ | _⟩⟩ <;> decide

def name : ValueType → String
  | void => "void"
  | bool => "bool"
  | pointer => "pointer"
  | string => "string"
  | .float .r32 => "r32"
  | .float .r64 => "r64"
  | .int ⟨true, .w8⟩ => "i8"
  | .int ⟨true, .w16⟩ => "i16"
  | .int ⟨true, .w32⟩ => "i32"
  | .int ⟨true, .w64⟩ => "i64"
  | .int ⟨false, .w8⟩ => "u8"
  | .int ⟨false, .w16⟩ => "u16"
  | .int ⟨false, .w32⟩ => "u32"
  | .int ⟨false, .w64⟩ => "u64"

/-- The type of a name, in any letter case. -/
def ofName? (s : String) : Option ValueType := all.find? fun t => Text.sameIgnoringCase t.name s

def isInteger : ValueType → Bool
  | .int _ => true
  | _ => false

def isFloat : ValueType → Bool
  | .float _ => true
  | _ => false

/-- Whether the type is an integer or a float type. -/
def isNumeric : ValueType → Bool
  | .int _ => true
  | .float _ => true
  | _ => false

/-- Whether the type is a signed integer or a float type. -/
def isSigned : ValueType → Bool
  | .int t => t.signed
  | .float _ => true
  | _ => false

/-- Whether values of the type are true or false. -/
def isBoolable : ValueType → Bool
  | void => false
  | _ => true

/-- The number of bits of a numeric type, zero for the others. -/
def bits : ValueType → Nat
  | .int t => t.width.bits
  | .float .r32 => 32
  | .float .r64 => 64
  | _ => 0

/-- The integer type of a width in bits. -/
def integer? (bits : Nat) (signed : Bool) : Option ValueType :=
  match bits with
  | 8 => some (.int ⟨signed, .w8⟩)
  | 16 => some (.int ⟨signed, .w16⟩)
  | 32 => some (.int ⟨signed, .w32⟩)
  | 64 => some (.int ⟨signed, .w64⟩)
  | _ => none

/-- Whether every value of the first type converts to the second: a type to itself, all that has a
truth value to `bool`, numbers and `bool` to any number. -/
def castsTo (source target : ValueType) : Bool :=
  source == target ||
    match target with
    | bool => source.isBoolable
    | .int _ => source.isNumeric || source == bool
    | .float _ => source.isNumeric || source == bool
    | _ => false

/-- The type two numbers compute in: `r64` with any float, else the 64-bit integers, signed when
either side is or when asked for. -/
def widen? (a b : ValueType) (forceSigned : Bool) : Option ValueType :=
  if !a.isNumeric || !b.isNumeric then none
  else if a.isFloat || b.isFloat then some r64
  else if forceSigned || a.isSigned || b.isSigned then some i64
  else some u64

theorem castsTo_self (t : ValueType) : t.castsTo t = true := by simp [castsTo]

end ValueType
end ExprEngine
