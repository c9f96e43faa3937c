/-
  The fewest decimal digits that read back as the same double.

  A finite double is `m · 2^q`; the reals that round to it form an interval
  around it. For one digit, two digits, … the two neighbours of the value on
  that decimal grid are tested against the interval; the first grid with a hit
  wins, and of two hits the nearer one. A `Tie` says which one that is if they
  are equally near.

  * `Decimal` is a number `digits · 10^exponent`, `Decimal.positional` its
    text without an exponent, `Decimal.scientific` its text with one;
  * `shortest` finds the decimal, `floatText` spells any double.
-/

namespace Treewalk

/-- The number `digits · 10^exponent`. -/
structure Decimal where
  digits : Nat
  exponent : Int
  deriving DecidableEq

namespace Decimal

/-- The number of decimal digits; zero has none. -/
def digitCount (n : Nat) : Nat :=
  if n = 0 then 0 else (Nat.toDigits 10 n).length

/-- Move trailing zeros of the digits into the exponent; at most `fuel`. -/
def stripZeros : Nat → Decimal → Decimal
  | 0, d => d
  | fuel + 1, d =>
    if d.digits ≠ 0 ∧ d.digits % 10 = 0 then
      stripZeros fuel ⟨d.digits / 10, d.exponent + 1⟩
    else
      d

/-- The number written out without an exponent. -/
def positional (d : Decimal) : String :=
  let digits := String.ofList (Nat.toDigits 10 d.digits)
  match d.exponent with
  | .ofNat e => digits ++ String.ofList (List.replicate e '0')
  | .negSucc e =>
    let places := e + 1
    if digits.length ≤ places then
      "0." ++ String.ofList (List.replicate (places - digits.length) '0') ++ digits
    else
      let whole := digits.length - places
      (digits.take whole).toString ++ "." ++ (digits.drop whole).toString

/-- The exponent `k` for which the number lies between `10^(k-1)` and `10^k`. -/
def magnitude (d : Decimal) : Int :=
  digitCount d.digits + d.exponent

/-- One digit, the others after a point, a mark and the exponent. -/
def scientific (d : Decimal) : String :=
  let digits := String.ofList (Nat.toDigits 10 d.digits)
  let rest := (digits.drop 1).toString
  let point := if rest.isEmpty then "" else "."
  (digits.take 1).toString ++ point ++ rest ++ "e" ++ toString (d.magnitude - 1)

end Decimal

/-- Which of two equally near decimals is taken. -/
inductive Tie where
  | up
  /-- the one whose last digit is even -/
  | even

namespace Tie

/-- Is the upper one of `below` and `below + 1` taken? -/
def takesUpper : Tie → Nat → Bool
  | up, _ => true
  | even, below => below % 2 == 1

end Tie

namespace Shortest

/-- The reals that round to a double, and the double itself, as numerators
    over one denominator. -/
structure Interval where
  low : Nat
  value : Nat
  high : Nat
  den : Nat
  /-- do the ends round to the double too? -/
  closed : Bool

/-- The interval of `m · 2^q`. Below a power of two the neighbour is half as
    far, unless that neighbour is subnormal. -/
def Interval.of (m : Nat) (q : Int) : Interval :=
  let low := if m = Nat.pow 2 52 ∧ q > -1074 then 4 * m - 1 else 4 * m - 2
  let scale := q - 2
  let up := Nat.pow 2 scale.toNat
  { low := low * up
    value := 4 * m * up
    high := (4 * m + 2) * up
    den := Nat.pow 2 (-scale).toNat
    closed := m % 2 == 0 }

/-- Does `c · 10^e` round to the double? -/
def Interval.contains (i : Interval) (c : Nat) (e : Int) : Bool :=
  let point := c * Nat.pow 10 e.toNat * i.den
  let unit := Nat.pow 10 (-e).toNat
  if i.closed then
    i.low * unit ≤ point && point ≤ i.high * unit
  else
    i.low * unit < point && point < i.high * unit

/-- The exponent `k` for which the value lies between `10^(k-1)` and `10^k`. -/
def Interval.magnitude (i : Interval) : Int :=
  if i.den ≤ i.value then
    Decimal.digitCount (i.value / i.den)
  else
    1 - (Decimal.digitCount ((i.den - 1) / i.value) : Int)

/-- The better neighbour of the value on the grid of multiples of `10^e`, if
    one of the two rounds to the double. -/
def Interval.hit (i : Interval) (tie : Tie) (e : Int) : Option Decimal :=
  let num := i.value * Nat.pow 10 (-e).toNat
  let den := i.den * Nat.pow 10 e.toNat
  let below := num / den
  match i.contains below e, i.contains (below + 1) e with
  | true, true =>
    let twice := 2 * (num % den)
    let upper := den < twice || (twice == den && tie.takesUpper below)
    some ⟨if upper then below + 1 else below, e⟩
  | true, false => some ⟨below, e⟩
  | false, true => some ⟨below + 1, e⟩
  | false, false => none

/-- The first hit on the grids of `n`, `n + 1`, … digits; at most `fuel` of
    them are tried. -/
def Interval.search (i : Interval) (tie : Tie) (k : Int) : Nat → Nat → Option Decimal
  | 0, _ => none
  | fuel + 1, n =>
    match i.hit tie (k - n) with
    | some d => some d
    | none => i.search tie k fuel (n + 1)

end Shortest

/-- The shortest decimal that rounds to `m · 2^q`, for `m ≠ 0`. -/
def shortest (tie : Tie) (m : Nat) (q : Int) : Decimal :=
  let i := Shortest.Interval.of m q
  match i.search tie i.magnitude 17 1 with
  | some d => d.stripZeros 20
  | none => ⟨m, 0⟩

open Float.Model in
/-- The shortest decimal of a finite double, without its sign. -/
def shortestOf (tie : Tie) (x : Float) : Decimal :=
  match x.toModel.unpack with
  | .finite _ m q _ => shortest tie m q
  | _ => ⟨0, 0⟩

/-- The text of a double: shortest digits, the upper ones on a tie, never an
    exponent, no point for a whole number. -/
def floatText (x : Float) : String :=
  if x.isNaN then
    "NaN"
  else
    let sign := if x.toBits >>> 63 = 1 then "-" else ""
    if x.isInf then sign ++ "inf" else sign ++ (shortestOf .up x).positional

end Treewalk
