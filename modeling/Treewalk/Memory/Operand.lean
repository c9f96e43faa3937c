/-
  Values as operands and conditions.

  * `truthOf` reads a value as a condition;
  * an `Operand` is a value reduced to what an operator needs, and `operate`
    applies a binary operator to two of them;
  * `conform` is the value a parameter or result of a declared type gets, and
    `conformToNode` adapts a number to the type of the node that yields it.
-/
import Treewalk.Memory.Assign
import Treewalk.Number.Arithmetic

namespace Treewalk

open Mem

/-! ## Conditions -/

/-- Does a value hold as a condition? Numbers hold when they are not zero,
    pointers when they are not null, arrays always, absent values never. -/
def Heap.truthOf (h : Heap) (r : Ref) : Except Cause Bool :=
  match h.cell (h.flatten r) with
  | .primitive p => .ok (!p.isZero)
  | .pointer p => .ok (!h.isNull p)
  | .slot .. => .ok false
  | .array .. => .ok true
  | .compound ty _ => .error (.malformed (.asCondition ty))

/-- A value read as a condition. -/
def truthOf (r : Ref) : Mem Bool := do
  answer (← read (·.truthOf r))

/-! ## Operands -/

/-- A value reduced to what an operator needs. -/
inductive Operand where
  | pointer (p : Pointer)
  | number (n : Primitive)
  /-- an empty slot, which reads as zero -/
  | absent

/-- A value as an operand; arrays decay, compounds are none. -/
def Heap.operand (h : Heap) (r : Ref) : Except Cause Operand :=
  match h.cell (h.flatten r) with
  | .primitive n => .ok (.number n)
  | .pointer p => .ok (.pointer p)
  | .array element b => .ok (.pointer ⟨element, b, 0⟩)
  | .slot .. => .ok .absent
  | .compound ty _ => .error (.malformed (.asOperand ty))

/-- Does an operand hold as a condition? -/
def Operand.truth (h : Heap) : Operand → Bool
  | pointer p => !h.isNull p
  | number n => !n.isZero
  | absent => false

/-- What an operation yields. -/
inductive Yield where
  | number (n : Primitive)
  | pointer (p : Pointer)

/-- The outcome of a comparison. -/
def Yield.truth (b : Bool) : Yield :=
  .number (.truth b)

/-- A pointer compared with null. -/
def nullComparison (h : Heap) (op : BinaryOp) (p : Pointer) : Except Cause Yield :=
  match op with
  | .eq => .ok (.truth (h.isNull p))
  | .ne => .ok (.truth (!h.isNull p))
  | op =>
    if op.isComparison then
      .ok (.truth (op.holds (if h.isNull p then .eq else .gt)))
    else
      .error (.malformed (.pointerAndAbsent op))

/-- Two pointers: they compare by where they point, never by what they point
    at. Against the null pointer itself, an emptied slot reads as null. -/
def pointerPair (h : Heap) (op : BinaryOp) (p q : Pointer) : Except Cause Yield :=
  match op with
  | .eq | .ne =>
    if h.hasNoStorage p then nullComparison h op q
    else if h.hasNoStorage q then nullComparison h op p
    else .ok (.truth (h.sameTarget p q == (op == .eq)))
  | .sub => .ok (.number (.long (p.offset - q.offset)))
  | op =>
    if op.isComparison then
      .ok (.truth (op.holds (h.order p q)))
    else
      .error (.malformed (.twoPointers op))

/-- A pointer and a number, in either order: only zero compares with a
    pointer, and only integers move one. -/
def pointerAndNumber (h : Heap) (op : BinaryOp) (p : Pointer) (n : Primitive)
    (numberFirst : Bool) : Except Cause Yield :=
  if op.isComparison then
    if n.isZero then nullComparison h op p else .error (.malformed (.pointerCompared n.toInt64))
  else if n.isFloating then
    .error (.malformed .floatingOffset)
  else
    match op, numberFirst with
    | .add, _ => .ok (.pointer (p.moved n.toInt64))
    | .sub, false => .ok (.pointer (p.moved (-n.toInt64)))
    | op, _ => .error (.malformed (.pointerAndInteger op))

/-- A binary operation on two numbers. -/
def numberPair (op : BinaryOp) (l r : Primitive) : Except Cause Yield :=
  (arithmetic op l r).map .number

/-- A binary operation. An absent operand is zero of the other's kind. -/
def operate (h : Heap) (op : BinaryOp) (l r : Operand) : Except Cause Yield :=
  match op with
  | .and => .ok (.truth (l.truth h && r.truth h))
  | .or => .ok (.truth (l.truth h || r.truth h))
  | op =>
    match l, r with
    | .pointer p, .pointer q => pointerPair h op p q
    | .pointer p, .number n => pointerAndNumber h op p n false
    | .number n, .pointer p => pointerAndNumber h op p n true
    | .pointer p, .absent => nullComparison h op p
    | .absent, .pointer p => nullComparison h op p
    | .number l, .number r => numberPair op l r
    | .number l, .absent => numberPair op l (.zero l.kind l.unsigned)
    | .absent, .number r => numberPair op (.zero r.kind r.unsigned) r
    | .absent, .absent => numberPair op (.int 0) (.int 0)

/-- A new value of what an operation yields. -/
def yielded : Yield → Mem Ref
  | .number n => alloc (.primitive n)
  | .pointer p => alloc (.pointer p)

/-- A value as an operand. -/
def operandOf (r : Ref) : Mem Operand := do
  answer (← read (·.operand r))

/-- A binary operation on operands, as a new value. -/
def operateOn (op : BinaryOp) (l r : Operand) : Mem Ref := do
  yielded (← answer (← read (operate · op l r)))

/-- A binary operation on values, as a new value. -/
def binaryOperation (op : BinaryOp) (l r : Ref) : Mem Ref := do
  let l ← operandOf l
  let r ← operandOf r
  operateOn op l r

/-- The operand of a sign or complement. -/
def Heap.promoted (h : Heap) (r : Ref) : Except Cause Primitive :=
  match h.primitive? r with
  | some p => .ok p.promoted
  | none =>
    if h.isAbsent r then .ok (.int 0) else .error (.malformed (.arithmeticOn (h.cell r).variant))

/-! ## Conforming to a declared type -/

/-- The value a parameter or result of type `declared` gets: a copy, converted
    if it is a number or absent and the type is a number or pointer. -/
def conform (r : Ref) (declared : Ty) : Mem Ref := do
  let bound ← copyForBinding r
  match declared.unqualified, ← read (·.cell bound) with
  | .primitive .void _, _ => return bound
  | .primitive .., .primitive _ | .primitive .., .slot .. => castTo bound declared
  | .pointer _, .primitive _ | .pointer _, .slot .. => castTo bound declared
  | _, _ => return bound

/-- A number converted to the type of the node that yields it, if that is a
    number of another kind or signedness; any other value itself. -/
def conformToNode (r : Ref) (ty : Ty) : Mem Ref := do
  match ty.primitive?, ← read (·.cell r) with
  | some (.void, _), _ => return r
  | some (k, u), .primitive p =>
    if p.kind = k ∧ p.unsigned = u then return r else alloc (.primitive (p.converted k u))
  | _, _ => return r

end Treewalk
