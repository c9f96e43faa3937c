/-
  Conversions and remainders of doubles.

  * `Double.toInt64` drops the fraction and stops at the ends of the range;
  * `Double.ofInt64` and `Double.ofUInt64` round to the nearest double;
  * `Double.toSingle` rounds to single precision;
  * `Double.rem` is the remainder of the quotient cut off toward zero.
-/

namespace Treewalk.Double

open Float.Model

/-- The integer part, the nearest 64-bit integer if it lies outside the
    range, and zero if `x` is no number. -/
def toInt64 (x : Float) : Int64 :=
  x.toModel.toInt64

/-- The double nearest to an integer. -/
def ofInt64 (n : Int64) : Float :=
  .ofModel (.ofInt64 n)

/-- The double nearest to an integer without a sign. -/
def ofUInt64 (n : UInt64) : Float :=
  n.toFloat

/-- An unpacked number in double format. -/
def ofUnpacked : UnpackedFloat → Float
  | .finite sign m e _ => .ofModel (.pack (.round .binary64 sign m e))
  | u => .ofModel (.pack u)

/-- The nearest number of single precision, infinite if it is too large. -/
def toSingle (x : Float) : Float :=
  match x.toModel.unpack with
  | .finite sign m e _ =>
    ofUnpacked (.unpack .binary32 (UnpackedFloat.pack .binary32 (.round .binary32 sign m e)))
  | u => ofUnpacked u

/-- The remainder of `m · 2^e` by `n · 2^f`, with the sign of the former. -/
def remFinite (sign : UnpackedFloat.Sign) (m : Nat) (e : Int) (n : Nat) (f : Int) : UnpackedFloat :=
  let low := min e f
  let r := (m * Nat.pow 2 (e - low).toNat) % (n * Nat.pow 2 (f - low).toNat)
  if h : r = 0 then .zero sign else .finite sign r low (Nat.pos_of_ne_zero h)

/-- The remainder of the quotient of two doubles cut off toward zero. It is
    exact, and no number if `x` is infinite or `y` is zero. -/
def rem (x y : Float) : Float :=
  match x.toModel.unpack, y.toModel.unpack with
  | .finite sign m e _, .finite _ n f _ => ofUnpacked (remFinite sign m e n f)
  | .finite .., .infinity _ => x
  | .zero _, .finite .. => x
  | .zero _, .infinity _ => x
  | _, _ => ofUnpacked .notANumber

end Treewalk.Double
