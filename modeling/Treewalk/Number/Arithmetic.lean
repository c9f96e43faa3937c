/-
  Binary and unary operations on numbers.

  Both operands are converted to their common kind (`commonKind`), the
  operation happens there, and the result is narrowed back if the left operand
  is a `char`.

  * `arithmetic` applies a binary operator that is not logical;
  * `negated`, `complemented` and `stepped` are the unary operations;
  * `holds` decides a comparison from an ordering.
-/
import Treewalk.Fault
import Treewalk.Number.Primitive

namespace Treewalk

/-- Does a comparison hold between values ordered like this? -/
def BinaryOp.holds (op : BinaryOp) (o : Ordering) : Bool :=
  match op with
  | .eq => o == .eq
  | .ne => o != .eq
  | .lt => o == .lt
  | .le => o != .gt
  | .gt => o == .gt
  | _ => o != .lt

/-- Kind and signedness in which two numbers meet: the kind of higher rank, at
    least `int`, unsigned if an operand of that kind is. -/
def commonKind (l r : Primitive) : Kind × Bool :=
  let k := l.kind.max r.kind
  if k.isFloating then
    (k, false)
  else
    let k := k.max .int
    (k, (l.kind == k && l.unsigned) || (r.kind == k && r.unsigned))

/-- An operation on doubles, its result of the given kind. -/
def floatingArithmetic (op : BinaryOp) (l r : Float) (kind : Kind) : Except Cause Primitive :=
  let result (x : Float) : Except Cause Primitive := .ok (.of kind false (.floating x))
  match op with
  | .add => result (l + r)
  | .sub => result (l - r)
  | .mul => result (l * r)
  | .div => result (l / r)
  | .mod => result (Double.rem l r)
  | .eq => .ok (.truth (l == r))
  | .ne => .ok (.truth (!(l == r)))
  | .lt => .ok (.truth (l < r))
  | .le => .ok (.truth (l ≤ r))
  | .gt => .ok (.truth (r < l))
  | .ge => .ok (.truth (r ≤ l))
  | op => .error (.malformed (.floatingOperands op))

/-- The number of places a shift moves: the count modulo 64. -/
def shiftCount (n : Int64) : UInt64 :=
  n.toUInt64 % 64

/-- An operation on 64-bit integers with or without a sign; comparisons have
    no integral result. -/
def integralArithmetic (op : BinaryOp) (unsigned : Bool) (l r : Int64) :
    Except Cause (Option Int64) :=
  match op with
  | .add => .ok (some (l + r))
  | .sub => .ok (some (l - r))
  | .mul => .ok (some (l * r))
  | .div =>
    if r = 0 then .error .divisionByZero
    else if unsigned then .ok (some (l.toUInt64 / r.toUInt64).toInt64)
    else .ok (some (l / r))
  | .mod =>
    if r = 0 then .error .moduloByZero
    else if unsigned then .ok (some (l.toUInt64 % r.toUInt64).toInt64)
    else .ok (some (l % r))
  | .bitAnd => .ok (some (l &&& r))
  | .bitOr => .ok (some (l ||| r))
  | .bitXor => .ok (some (l ^^^ r))
  | .shl => .ok (some (l.toUInt64 <<< shiftCount r).toInt64)
  | .shr =>
    if unsigned then .ok (some (l.toUInt64 >>> shiftCount r).toInt64)
    else .ok (some (l >>> (shiftCount r).toInt64))
  | _ => .ok none

/-- The order of two integers read with or without a sign. -/
def integralOrder (unsigned : Bool) (l r : Int64) : Ordering :=
  if unsigned then compare l.toUInt64 r.toUInt64 else compare l r

/-- A binary operation that is not logical. -/
def arithmetic (op : BinaryOp) (l r : Primitive) : Except Cause Primitive := do
  let (kind, unsigned) := commonKind l r
  let result ←
    if kind.isFloating then
      floatingArithmetic op l.toDouble r.toDouble kind
    else do
      let a := (l.converted kind unsigned).toInt64
      let b := (r.converted kind unsigned).toInt64
      match ← integralArithmetic op unsigned a b with
      | some n => pure (.of kind unsigned (.integral n))
      | none => pure (.truth (op.holds (integralOrder unsigned a b)))
  if l.kind = .char && !op.isComparison && !result.isFloating then
    return result.converted .char l.unsigned
  else
    return result

/-! ## Unary operations -/

/-- The operand of a sign or complement: integral kinds become at least `int`. -/
def Primitive.promoted (p : Primitive) : Primitive :=
  if p.isFloating || Kind.int.rank ≤ p.kind.rank then p else p.converted .int false

def Primitive.negated (p : Primitive) : Primitive :=
  match p.payload with
  | .integral n => p.withPayload (.integral (-n))
  | .floating x => p.withPayload (.floating (-x))

/-- The bitwise complement; doubles have none. -/
def Primitive.complemented (p : Primitive) : Except Cause Primitive :=
  match p.payload with
  | .integral n => .ok (p.withPayload (.integral (~~~n)))
  | .floating _ => .error (.malformed .floatingComplement)

/-- The number moved by `delta`. -/
def Primitive.stepped (p : Primitive) (delta : Int64) : Primitive :=
  match p.payload with
  | .integral n => p.withPayload (.integral (n + delta))
  | .floating x => p.withPayload (.floating (x + Double.ofInt64 delta))

end Treewalk
