import ExprEngine.Proofs.FixedInt
import ExprEngine.Value

/-!
# Conversions of values

To an integer type, an integer or a `bool` converts to the one value of the type in its class modulo
`2 ^ width`. What a detour through a type does to it depends on the width of the detour alone.

* `Value.integer?`         the integer that a value counts as;
* `cast?_of_integer`       its conversion is a wrap;
* `Value.Reduces`          conversions as reductions modulo a width;
* `Value.CastsByType`      conversions and the types that allow them;
* `casts_exact`            all values have both.
-/

namespace ExprEngine

/-! ## wraps of wraps -/

/-- Integers that agree in a width agree in a narrower one. -/
theorem IntType.modEq_of_le {t m : IntType} (h : t.width.bits ≤ m.width.bits) {a b : Int}
    (hab : a ≡ b [ZMOD 2 ^ m.width.bits]) : a ≡ b [ZMOD 2 ^ t.width.bits] :=
  hab.of_dvd (pow_dvd_pow 2 h)

/-- A wrap into a type is not noticed by a wrap into one that is no wider. -/
theorem FixedInt.wrap_wrap {t m : IntType} (h : t.width.bits ≤ m.width.bits) (n : Int) :
    wrap t (wrap m n).val = wrap t n := by
  have hcong : (wrap m n).val ≡ n [ZMOD 2 ^ t.width.bits] :=
    IntType.modEq_of_le h (m.wrap_modEq n)
  exact FixedInt.ext rfl (IntType.wrap_congr hcong)

/-- Every integer type holds zero and one. -/
theorem IntType.contains_bit (t : IntType) (b : Bool) : t.Contains (if b then 1 else 0) := by
  rcases t with ⟨s, w⟩
  cases s <;> cases w <;> cases b <;> decide

/-! ## values that count as integers -/

namespace Value

/-- The integer that a value counts as: an integer as itself, a `bool` as zero or one. -/
def integer? : Value → Option Int
  | bool b => some (if b then 1 else 0)
  | int a => some a.val
  | _ => none

variable {v : Value} {n : Int}

theorem cast?_of_integer (h : v.integer? = some n) (t : IntType) :
    v.cast? (.int t) = some (.int (.wrap t n)) := by
  cases v with
  | bool b =>
    obtain rfl := Option.some.inj h
    rfl
  | int a =>
    obtain rfl := Option.some.inj h
    rfl
  | _ => cases h

theorem integer?_wrap (t : IntType) (n : Int) :
    (int (.wrap t n)).integer? = some (FixedInt.wrap t n).val := rfl

/-- Conversions of a value that counts as an integer: each is the reduction of the integer modulo
the width of the target, a detour that is wide enough changes nothing, and there is a way back. -/
structure Reduces (v : Value) (n : Int) : Prop where
  reduced : ∀ t : IntType, ∃ u : FixedInt, v.cast? (.int t) = some (.int u) ∧ u.type = t ∧
    u.Represents n
  through : ∀ m t : IntType, t.width.bits ≤ m.width.bits →
    ((v.cast? (.int m)).bind fun u => u.cast? (.int t)) = v.cast? (.int t)
  back : ∀ t : IntType, v.type.bits ≤ t.width.bits →
    ((v.cast? (.int t)).bind fun u => u.cast? v.type) = some v

/-- The way back from an integer type that is as wide. -/
theorem cast?_back (h : v.integer? = some n) {t : IntType} (ht : v.type.bits ≤ t.width.bits) :
    (int (.wrap t n)).cast? v.type = some v := by
  cases v with
  | bool b =>
    obtain rfl := Option.some.inj h
    -- zero and one stay what they are in every integer type
    have hval : (FixedInt.wrap t (if b then 1 else 0)).val = if b then 1 else 0 :=
      IntType.wrap_of_contains (t.contains_bit b)
    show some (bool ((FixedInt.wrap t (if b then 1 else 0)).val != 0)) = some (bool b)
    rw [hval]
    cases b with
    | true => rfl
    | false => rfl
  | int a =>
    obtain rfl := Option.some.inj h
    have hback : FixedInt.wrap a.type (FixedInt.wrap t a.val).val = a := by
      rw [FixedInt.wrap_wrap ht, FixedInt.wrap_val]
    show (int (.wrap t a.val)).cast? (.int a.type) = some (int a)
    rw [cast?_of_integer (integer?_wrap t a.val), hback]
  | _ => cases h

theorem reduces (h : v.integer? = some n) : v.Reduces n where
  reduced t := ⟨.wrap t n, cast?_of_integer h t, rfl, FixedInt.wrap_represents rfl⟩
  through m t hle := by
    rw [cast?_of_integer h m, cast?_of_integer h t, Option.bind_some,
      cast?_of_integer (integer?_wrap m n), FixedInt.wrap_wrap hle]
  back t hle := by
    rw [cast?_of_integer h t, Option.bind_some]
    exact cast?_back h hle

/-! ## any value -/

/-- Conversions of a value to every type: there is one exactly if the types allow it, it has the
type asked for, and it converts to that type as itself. -/
structure CastsByType (v : Value) : Prop where
  allowed : ∀ t, (v.cast? t).isSome = true ↔ v.type.castsTo t = true
  typed : ∀ t w, v.cast? t = some w → w.type = t
  settled : ∀ t w, v.cast? t = some w → w.cast? t = some w

theorem castsByType (v : Value) : v.CastsByType where
  allowed t := by rw [isSome_cast?]
  typed _ _ h := type_of_cast? h
  settled t w h := by
    have hself := w.cast?_type
    rwa [type_of_cast? h] at hself

end Value

/-- What conversions do to every value. One that counts as an integer is reduced modulo the width of
an integer type; any value converts exactly where its type does, to a value of the target, and once
more to the same. -/
theorem casts_exact (v : Value) : (∀ n, v.integer? = some n → v.Reduces n) ∧ v.CastsByType :=
  ⟨fun _ h => Value.reduces h, v.castsByType⟩

/-- Minus one as a signed byte. -/
def minusOne : Value := .int (.wrap ⟨true, .w8⟩ (-1))

/-- A detour through an unsigned type extends the sign, and the byte comes back from it. -/
theorem casts_exact_minusOne :
    minusOne.integer? = some (-1) ∧ minusOne.Reduces (-1) ∧ minusOne.CastsByType ∧
      minusOne.cast? .u64 = some (.int (.wrap ⟨false, .w64⟩ 18446744073709551615)) ∧
      ((minusOne.cast? .u64).bind fun u => u.cast? minusOne.type) = some minusOne := by
  have hcounts : minusOne.integer? = some (-1) := by decide
  obtain ⟨hreduces, hbyType⟩ := casts_exact minusOne
  exact ⟨hcounts, hreduces _ hcounts, hbyType, by decide,
    (hreduces _ hcounts).back ⟨false, .w64⟩ (by decide)⟩

end ExprEngine
