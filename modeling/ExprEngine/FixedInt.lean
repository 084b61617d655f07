/-!
# Integers of fixed width

An integer type is a signedness and one of four widths; a value of the type is an integer in its
range.

* `IntType.Contains`   the integers of a type;
* `IntType.wrap`       the one integer of a type in a class modulo `2 ^ width`;
* `IntType.clamp`      the integer of a type nearest to a given one;
* `FixedInt`           an integer with the type that holds it.
-/

namespace ExprEngine

/-- The widths integers come in. -/
inductive Width
  | w8 | w16 | w32 | w64
deriving DecidableEq, Repr

def Width.bits : Width → Nat
  | .w8 => 8
  | .w16 => 16
  | .w32 => 32
  | .w64 => 64

/-- Number of bit patterns. -/
def Width.count : Width → Nat
  | .w8 => 256
  | .w16 => 65536
  | .w32 => 4294967296
  | .w64 => 18446744073709551616

theorem Width.count_eq (w : Width) : w.count = 1 <<< w.bits := by cases w <;> rfl

structure IntType where
  signed : Bool
  width : Width
deriving DecidableEq, Repr

namespace IntType

/-- The number of integers a type holds. -/
def modulus (t : IntType) : Nat := t.width.count

def least (t : IntType) : Int := if t.signed then -(t.modulus / 2 : Nat) else 0

def greatest (t : IntType) : Int :=
  if t.signed then (t.modulus / 2 : Nat) - 1 else t.modulus - 1

/-- Whether a type holds an integer. -/
def Contains (t : IntType) (n : Int) : Prop := t.least ≤ n ∧ n ≤ t.greatest

instance (t : IntType) (n : Int) : Decidable (t.Contains n) :=
  inferInstanceAs (Decidable (_ ∧ _))

/-- The integer of the type that agrees with `n` modulo `2 ^ width`. -/
def wrap (t : IntType) (n : Int) : Int :=
  if t.signed then n.bmod t.modulus else n % (t.modulus : Int)

/-- The integer of the type nearest to `n`. -/
def clamp (t : IntType) (n : Int) : Int :=
  if n < t.least then t.least else if t.greatest < n then t.greatest else n

theorem least_le_greatest (t : IntType) : t.least ≤ t.greatest := by
  rcases t with ⟨s, w⟩
  cases s <;> cases w <;> decide

theorem wrap_contains (t : IntType) (n : Int) : t.Contains (t.wrap n) := by
  rcases t with ⟨s, w⟩
  cases s <;> cases w <;>
    simp only [Contains, wrap, least, greatest, modulus, Width.count, Bool.false_eq_true, if_true,
      if_false, Int.bmod] <;> omega

theorem clamp_contains (t : IntType) (n : Int) : t.Contains (t.clamp n) := by
  have h := t.least_le_greatest
  unfold clamp Contains
  split
  · exact ⟨Int.le_refl _, h⟩
  · split
    · exact ⟨h, Int.le_refl _⟩
    · omega

/-- An integer of the type is its own representative. -/
theorem wrap_of_contains {t : IntType} {n : Int} (h : t.Contains n) : t.wrap n = n := by
  rcases t with ⟨s, w⟩
  cases s <;> cases w <;>
    simp only [Contains, wrap, least, greatest, modulus, Width.count, Bool.false_eq_true, if_true,
      if_false, Int.bmod] at h ⊢ <;> omega

end IntType

/-- An integer together with the type that holds it. -/
structure FixedInt where
  type : IntType
  val : Int
  holds : type.Contains val
deriving DecidableEq

namespace FixedInt

def wrap (t : IntType) (n : Int) : FixedInt := ⟨t, t.wrap n, t.wrap_contains n⟩

def clamp (t : IntType) (n : Int) : FixedInt := ⟨t, t.clamp n, t.clamp_contains n⟩

/-- The integer as a value of the type, if the type holds it. -/
def ofInt? (t : IntType) (n : Int) : Option FixedInt :=
  if h : t.Contains n then some ⟨t, n, h⟩ else none

theorem type_wrap (t : IntType) (n : Int) : (wrap t n).type = t := rfl
theorem val_wrap (t : IntType) (n : Int) : (wrap t n).val = t.wrap n := rfl
theorem type_clamp (t : IntType) (n : Int) : (clamp t n).type = t := rfl

theorem ext {a b : FixedInt} (ht : a.type = b.type) (hv : a.val = b.val) : a = b := by
  cases a
  cases b
  simp only at ht hv
  subst ht hv
  rfl

/-- A value of a type wrapped into that type again is itself. -/
theorem wrap_val (a : FixedInt) : wrap a.type a.val = a :=
  ext rfl (IntType.wrap_of_contains a.holds)

end FixedInt
end ExprEngine
