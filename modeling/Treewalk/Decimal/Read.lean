/-
  Reading a decimal numeral as a number.

  The digits are gathered into a 64-bit significand and a power of ten; what
  no longer fits is left out. The double is the significand, rounded, then
  multiplied or divided by the power of ten, so a long numeral may differ from
  the nearest double in its last bit.

  * `Numeral` is a numeral cut into its parts, `Numeral.value` the number it
    stands for, if there is one.
-/

namespace Treewalk

/-- A numeral cut into its parts. -/
structure Numeral where
  negative : Bool
  /-- digits before the point, at least one -/
  whole : List Nat
  /-- digits after the point, at least one if there is a point -/
  fraction : Option (List Nat)
  /-- sign (is it negative?) and digits of the exponent -/
  exponent : Option (Bool × List Nat)

/-- What a numeral stands for. -/
inductive NumeralValue where
  | integer (n : Int)
  | floating (x : Float)

namespace Numeral

/-- The greatest significand. -/
def significandMax : Nat :=
  18446744073709551615

/-- Append digits to a significand as long as they fit; the digits from the
    first that does not fit are left over. -/
def gather (significand : Nat) : List Nat → Nat × List Nat
  | [] => (significand, [])
  | d :: rest =>
    if significand * 10 + d ≤ significandMax then
      gather (significand * 10 + d) rest
    else
      (significand, d :: rest)

/-- The greatest power of ten that is a finite double. -/
def powerMax : Nat :=
  308

def powerOfTen (n : Nat) : Float :=
  Float.ofScientific 1 false n

/-- `x · 10^e`, dividing by the greatest power of ten while `e` is below what
    one division can do. No number if the result is too large. -/
def scale : Nat → Float → Int → Option Float
  | 0, x, _ => some x
  | fuel + 1, x, e =>
    if e.natAbs ≤ powerMax then
      if 0 ≤ e then
        let y := x * powerOfTen e.natAbs
        if y.isInf then none else some y
      else
        some (x / powerOfTen e.natAbs)
    else if x == 0 then
      some x
    else if 0 ≤ e then
      none
    else
      scale fuel (x / powerOfTen powerMax) (e + powerMax)

/-- The bound of exponents: beyond it a numeral is zero or too large. -/
def exponentMax : Nat :=
  2147483647

def digitsValue (ds : List Nat) : Nat :=
  ds.foldl (fun n d => n * 10 + d) 0

/-- The double `± significand · 10^e`. -/
def double (negative : Bool) (significand : Nat) (e : Int) : Option Float :=
  (scale 8 (UInt64.ofNat significand).toFloat e).map fun x => if negative then -x else x

/-- The number a numeral stands for. Without point and exponent it is an
    integer if it fits 64 bits; minus zero is a double. -/
def value (n : Numeral) : Option NumeralValue :=
  let (whole, dropped) := gather 0 n.whole
  let before : Int := dropped.length
  match n.fraction, n.exponent with
  | none, none =>
    if dropped ≠ [] then
      (double n.negative whole before).map .floating
    else if n.negative = false then
      some (.integer whole)
    else if whole = 0 ∨ 9223372036854775808 < whole then
      (double true whole 0).map .floating
    else
      some (.integer (-whole))
  | fraction, exponent =>
    let (significand, left) := gather whole (fraction.getD [])
    let point : Int := before - ((fraction.getD []).length - left.length : Nat)
    match exponent with
    | none => (double n.negative significand point).map .floating
    | some (negExp, ds) =>
      let e := digitsValue ds
      if exponentMax < e then
        if significand ≠ 0 ∧ negExp = false then
          none
        else
          some (.floating (if n.negative then -0.0 else 0.0))
      else
        (double n.negative significand (if negExp then point - e else point + e)).map .floating

end Numeral

end Treewalk
