import ExprEngine.FixedInt
import Mathlib.Data.BitVec
import Mathlib.Data.Int.Bitwise
import Mathlib.Data.Int.ModEq

/-!
# Integers modulo a width

An integer type holds exactly one integer of every class modulo `2 ^ width`, and wrapping finds it.
The bits of a word are the low bits of any integer that the word stands for.

* `IntType.wrap_modEq`     wrapping stays in the class;
* `IntType.eq_of_modEq`    the class has one member in the type;
* `FixedInt.Represents`    the value of its type for an integer;
* `ofInt_eq_iff`           integers of one word;
* `ofInt_of_testBit`       the word with given bits;
* `ofInt_land`             operators on bits act on words as on integers.
-/

namespace ExprEngine

namespace IntType

variable {t : IntType} {m n : Int}

theorem modulus_eq (t : IntType) : (t.modulus : Int) = 2 ^ t.width.bits := by
  rcases t with ⟨s, w⟩
  cases w <;> rfl

theorem bits_le (t : IntType) : t.width.bits ≤ 64 := by
  cases t.width <;> decide

theorem wrap_modEq (t : IntType) (n : Int) : t.wrap n ≡ n [ZMOD 2 ^ t.width.bits] := by
  rw [← modulus_eq]
  unfold wrap
  split
  · exact Int.bmod_emod
  · exact Int.mod_modEq n t.modulus

theorem wrap_congr (h : m ≡ n [ZMOD 2 ^ t.width.bits]) : t.wrap m = t.wrap n := by
  rw [← modulus_eq] at h
  unfold wrap
  rw [← Int.emod_bmod m, ← Int.emod_bmod n, h.eq]

/-- Two integers of a type in one class are the same. -/
theorem eq_of_modEq (hm : t.Contains m) (hn : t.Contains n)
    (h : m ≡ n [ZMOD 2 ^ t.width.bits]) : m = n := by
  rw [← wrap_of_contains hm, wrap_congr h, wrap_of_contains hn]

/-- Integers that agree in 64 bits agree in fewer. -/
theorem modEq_of_word (h : m ≡ n [ZMOD 2 ^ 64]) : m ≡ n [ZMOD 2 ^ t.width.bits] :=
  h.of_dvd (pow_dvd_pow 2 t.bits_le)

end IntType

namespace FixedInt

variable {v : FixedInt} {m n : Int}

/-- The only value of its type that is congruent to an integer. -/
structure Represents (v : FixedInt) (n : Int) : Prop where
  congruent : v.val ≡ n [ZMOD 2 ^ v.type.width.bits]
  unique : ∀ u : FixedInt, u.type = v.type → u.val ≡ n [ZMOD 2 ^ v.type.width.bits] → u = v

theorem represents_of_modEq (h : v.val ≡ n [ZMOD 2 ^ v.type.width.bits]) : v.Represents n := by
  refine ⟨h, fun u hu hcong => ext hu ?_⟩
  have hholds : v.type.Contains u.val := hu ▸ u.holds
  exact IntType.eq_of_modEq hholds v.holds (hcong.trans h.symm)

theorem wrap_represents {t : IntType} (h : m ≡ n [ZMOD 2 ^ t.width.bits]) :
    (wrap t m).Represents n :=
  represents_of_modEq ((t.wrap_modEq m).trans h)

end FixedInt

/-! ## words -/

section
variable {w : Nat} {m n : Int}

theorem ofInt_eq_iff : BitVec.ofInt w m = BitVec.ofInt w n ↔ m ≡ n [ZMOD 2 ^ w] := by
  rw [← BitVec.toInt_inj, BitVec.toInt_ofInt, BitVec.toInt_ofInt, Int.ModEq]
  constructor
  · intro h
    have hmod : m.bmod (2 ^ w) % (2 ^ w : Nat) = n.bmod (2 ^ w) % (2 ^ w : Nat) := by rw [h]
    rwa [Int.bmod_emod, Int.bmod_emod, Nat.cast_pow] at hmod
  · intro h
    rw [← Int.emod_bmod m, ← Int.emod_bmod n, Nat.cast_pow, Nat.cast_ofNat, h]

theorem getLsbD_ofInt (n : Int) (i : Nat) :
    (BitVec.ofInt w n).getLsbD i = (decide (i < w) && n.testBit i) := by
  cases n with
  | ofNat k => exact BitVec.getLsbD_ofNat w k i
  | negSucc k =>
    rw [BitVec.ofInt_negSucc_eq_not_ofNat, BitVec.getLsbD_not, BitVec.getLsbD_ofNat]
    cases decide (i < w) with
    | true => rfl
    | false => rfl

theorem testBit_ofInt {i : Nat} (hi : i < w) (n : Int) :
    (BitVec.ofInt w n).getLsbD i = n.testBit i := by
  rw [getLsbD_ofInt, decide_eq_true hi, Bool.true_and]

/-- The word of an integer is the one with its low bits. -/
theorem ofInt_of_testBit {v : BitVec w} (h : ∀ i < w, v.getLsbD i = n.testBit i) :
    BitVec.ofInt w n = v := by
  refine BitVec.eq_of_getLsbD_eq fun i hi => ?_
  rw [testBit_ofInt hi, h i hi]

theorem ofInt_land (m n : Int) :
    BitVec.ofInt w (Int.land m n) = BitVec.ofInt w m &&& BitVec.ofInt w n := by
  refine ofInt_of_testBit fun i hi => ?_
  rw [BitVec.getLsbD_and, testBit_ofInt hi, testBit_ofInt hi, Int.testBit_land]

theorem ofInt_lor (m n : Int) :
    BitVec.ofInt w (Int.lor m n) = BitVec.ofInt w m ||| BitVec.ofInt w n := by
  refine ofInt_of_testBit fun i hi => ?_
  rw [BitVec.getLsbD_or, testBit_ofInt hi, testBit_ofInt hi, Int.testBit_lor]

theorem ofInt_xor (m n : Int) :
    BitVec.ofInt w (Int.xor m n) = BitVec.ofInt w m ^^^ BitVec.ofInt w n := by
  refine ofInt_of_testBit fun i hi => ?_
  rw [BitVec.getLsbD_xor, testBit_ofInt hi, testBit_ofInt hi, Int.testBit_lxor]

end
end ExprEngine
