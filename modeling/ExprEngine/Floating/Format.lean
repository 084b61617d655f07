/-!
# Binary floating-point formats

A format is the width of its fraction and exponent fields. Decoding turns a bit pattern into the
exact value it stands for; encoding goes back for values the format holds.

* `Format.decode`     the datum of a bit pattern;
* `Format.encode`     the bit pattern of `± m * 2 ^ q`;
* `Datum.truncate`    the datum without its fraction, infinities at the ends of a range.
-/

namespace ExprEngine.Floating

/-- Field widths of a binary format. -/
structure Format where
  fractionBits : Nat
  exponentBits : Nat
deriving DecidableEq, Repr

def Format.single : Format := ⟨23, 8⟩

def Format.double : Format := ⟨52, 11⟩

/-- What a bit pattern stands for. The finite value is `mantissa * 2 ^ exponent`, signed. -/
inductive Datum
  | nan
  | infinite (negative : Bool)
  | finite (negative : Bool) (mantissa : Nat) (exponent : Int)
deriving DecidableEq, Repr

namespace Format

/-- One more than the greatest fraction. -/
def unit (f : Format) : Nat := 1 <<< f.fractionBits

/-- The exponent of the least positive value. -/
def leastExponent (f : Format) : Int := 2 - (1 <<< (f.exponentBits - 1) : Nat) - f.fractionBits

/-- The weight of the sign bit. -/
def signBit (f : Format) : Nat := 1 <<< (f.fractionBits + f.exponentBits)

/-- The datum of a bit pattern. -/
def decode (f : Format) (bits : Nat) : Datum :=
  let fraction := bits % f.unit
  let biased := bits / f.unit % (1 <<< f.exponentBits)
  let negative := bits / f.signBit % 2 == 1
  if biased = (1 <<< f.exponentBits) - 1 then
    if fraction = 0 then .infinite negative else .nan
  else if biased = 0 then .finite negative fraction f.leastExponent
  else .finite negative (f.unit + fraction) (f.leastExponent + (biased - 1 : Nat))

/-- The bit pattern of `± m * 2 ^ q`, for a value that the format holds. -/
def encode (f : Format) (negative : Bool) (m : Nat) (q : Int) : Nat :=
  let sign := if negative then f.signBit else 0
  if m = 0 then sign
  else
    let e := max (q + m.log2 - f.fractionBits) f.leastExponent
    let scaled := if e ≤ q then m <<< (q - e).toNat else m >>> (e - q).toNat
    if scaled < f.unit then sign + scaled
    else sign + ((e - f.leastExponent).toNat + 1) * f.unit + (scaled - f.unit)

end Format

/-- The magnitude `m * 2 ^ q` without its fraction. -/
def wholePart (m : Nat) (q : Int) : Nat := if 0 ≤ q then m <<< q.toNat else m >>> (-q).toNat

/-- The datum rounded toward zero. Infinities go to the ends of the range, and NaN to zero. -/
def Datum.truncate (least greatest : Int) : Datum → Int
  | .nan => 0
  | .infinite true => least
  | .infinite false => greatest
  | .finite true m q => -(wholePart m q : Int)
  | .finite false m q => wholePart m q

def ofFloat (x : Float) : Datum := Format.double.decode x.toBits.toNat

def ofFloat32 (x : Float32) : Datum := Format.single.decode x.toBits.toNat

end ExprEngine.Floating
