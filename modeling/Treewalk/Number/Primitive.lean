/-
  Numbers of a kind.

  A `Primitive` is a kind, a signedness and a payload; the payload always fits
  the kind: integral kinds wrap to their width, `float` is rounded to single
  precision.

  * `fit` narrows a payload, `Primitive.of` makes a number of a kind,
    `Primitive.converted` converts one;
  * `Primitive.toInt64` and `Primitive.toDouble` read a number.
-/
import Treewalk.Number.Double
import Treewalk.Ty

namespace Treewalk

/-- What a number holds: 64 bits with a sign, or a double. -/
inductive Payload where
  | integral (n : Int64)
  | floating (x : Float)
  deriving DecidableEq

namespace Payload

/-- The payload as an integer; a double loses its fraction. -/
def toInt64 : Payload → Int64
  | integral n => n
  | floating x => Double.toInt64 x

/-- The payload as a double; an integer is read with or without a sign. -/
def toDouble (unsigned : Bool) : Payload → Float
  | integral n => if unsigned then Double.ofUInt64 n.toUInt64 else Double.ofInt64 n
  | floating x => x

def isZero : Payload → Bool
  | integral n => n == 0
  | floating x => x == 0

/-- Equality as numbers compare: a double that is no number differs from
    itself, and the two zeros are equal. -/
protected def beq : Payload → Payload → Bool
  | integral n, integral m => n == m
  | floating x, floating y => x == y
  | _, _ => false

end Payload

/-- The low bits of an integer, as a number of the kind's width. -/
def wrap (kind : Kind) (unsigned : Bool) (n : Int64) : Int64 :=
  match kind, unsigned with
  | .char, false => n.toInt8.toInt64
  | .char, true => n.toUInt64.toUInt8.toUInt64.toInt64
  | .short, false => n.toInt16.toInt64
  | .short, true => n.toUInt64.toUInt16.toUInt64.toInt64
  | .int, false => n.toInt32.toInt64
  | .int, true => n.toUInt64.toUInt32.toUInt64.toInt64
  | _, _ => n

/-- A payload narrowed to what a kind can hold; `void` holds anything. -/
def fit (kind : Kind) (unsigned : Bool) (p : Payload) : Payload :=
  match kind with
  | .void => p
  | .float => .floating (Double.toSingle (p.toDouble unsigned))
  | .double => .floating (p.toDouble unsigned)
  | _ => .integral (wrap kind unsigned p.toInt64)

/-- A number of a kind. -/
structure Primitive where
  kind : Kind
  unsigned : Bool
  payload : Payload
  deriving DecidableEq

namespace Primitive

/-- The number of a kind closest to a payload. -/
def of (kind : Kind) (unsigned : Bool) (p : Payload) : Primitive :=
  ⟨kind, unsigned, fit kind unsigned p⟩

/-- Zero, of a kind. -/
def zero (kind : Kind) (unsigned : Bool) : Primitive :=
  of kind unsigned (if kind.isFloating then .floating 0 else .integral 0)

def int (n : Int64) : Primitive :=
  of .int false (.integral n)

def long (n : Int64) : Primitive :=
  of .long false (.integral n)

def char (c : UInt8) : Primitive :=
  of .char false (.integral c.toUInt64.toInt64)

/-- One or zero, as an `int`. -/
def truth (b : Bool) : Primitive :=
  int (if b then 1 else 0)

instance : Inhabited Primitive := ⟨zero .int false⟩

/-- Is the payload a double? -/
def isFloating (p : Primitive) : Bool :=
  match p.payload with
  | .floating _ => true
  | .integral _ => false

def toInt64 (p : Primitive) : Int64 :=
  p.payload.toInt64

def toDouble (p : Primitive) : Float :=
  p.payload.toDouble p.unsigned

def isZero (p : Primitive) : Bool :=
  p.payload.isZero

/-- The low byte of the integer. -/
def toByte (p : Primitive) : UInt8 :=
  p.toInt64.toUInt64.toUInt8

def ty (p : Primitive) : Ty :=
  .primitive p.kind p.unsigned

/-- Conversion to another kind. -/
def converted (p : Primitive) (kind : Kind) (unsigned : Bool) : Primitive :=
  of kind unsigned p.payload

/-- The same kind, another payload. -/
def withPayload (p : Primitive) (payload : Payload) : Primitive :=
  of p.kind p.unsigned payload

/-- Equality of payload and signedness, whatever the kinds. -/
def sameNumber (p q : Primitive) : Bool :=
  p.payload.beq q.payload && p.unsigned == q.unsigned

/-- The null pointer is written as an integral zero. -/
def isNullConstant (p : Primitive) : Bool :=
  p.isZero && !p.isFloating

end Primitive

end Treewalk
