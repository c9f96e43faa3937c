/-
  Access to elements, fields and what pointers refer to.

  Each yields the slot or field itself, so that it can be assigned.
-/
import Treewalk.Eval.Value

namespace Treewalk

namespace Heap

/-- A value as an index; an absent one is zero. -/
def indexOf (h : Heap) (r : Ref) : Except Cause Int64 :=
  match h.primitive? r with
  | some p => if p.isFloating then .error (.malformed .floatingIndex) else .ok p.toInt64
  | none =>
    if h.isAbsent r then .ok 0 else .error (.malformed (.indexIsA (h.cell r).variant))

/-- The element of an array, or from a pointer on. -/
def element (h : Heap) (container : Ref) (i : Int64) : Except Cause Ref :=
  match h.cell container with
  | .array _ b => h.slotIn b i
  | .pointer p => h.slotOf (p.moved i)
  | .slot .. => .error (.access .indexIntoAbsent)
  | c => .error (.malformed (.indexInto c.variant))

/-- The compound whose field is meant: the value itself, or what it points
    at. -/
def fieldOwner (h : Heap) (owner : Ref) (field : String) : Except Cause Ref :=
  match h.cell owner with
  | .compound .. => .ok owner
  | .pointer p =>
    if h.isNull p then .error (.access (.fieldThroughNull field))
    else (h.slotOf p).map h.flatten
  | .slot .. => .error (.access (.fieldOfAbsent field))
  | c => .error (.malformed (.fieldOf field c.variant))

/-- A field of a compound, or of what a pointer points at. -/
def fieldOf (h : Heap) (owner : Ref) (field : String) : Except Cause Ref := do
  let object ← h.fieldOwner owner field
  match h.field? object field with
  | some r => .ok r
  | none => .error (.malformed (.noField (h.tyOf object) field))

/-- What a value points at. -/
def referent (h : Heap) (r : Ref) : Except Cause Ref :=
  match h.cell r with
  | .pointer p => h.slotOf p
  | .array _ b => h.slotIn b 0
  | .slot .. => .error (.access .absentPointer)
  | c@(.primitive p) =>
    if p.isZero then .error (.access .nullPointer) else .error (.malformed (.dereferenceOf c.variant))
  | c => .error (.malformed (.dereferenceOf c.variant))

/-- The address of an element, at most one past the last. -/
def elementAddress (h : Heap) (container : Ref) (i : Int64) : Except Cause Pointer :=
  match h.pointer? container with
  | none => .error (.malformed (.elementOf (h.cell container).variant))
  | some base =>
    let p := base.moved i
    let size := h.blockSize p.block
    if p.offset < 0 ∨ size < p.offset.toInt.toNat then
      .error (.access (.elementAddress p.offset size))
    else
      .ok p

end Heap

namespace Eval

/-- The container and the index of an element. -/
def indexed (ev : Evaluator) (container index : Node) : Eval (Ref × Int64) := do
  let container ← valueOf ev container
  let index ← valueOf ev index
  return (container, ← look? (·.indexOf index))

/-- An element. -/
def index (ev : Evaluator) (container index : Node) : Eval Outcome := do
  let (container, i) ← indexed ev container index
  yield (← look? (·.element container i))

/-- A field, through a pointer if the owner is one. -/
def field (ev : Evaluator) (owner : Node) (name : String) : Eval Outcome := do
  let owner ← valueOf ev owner
  yield (← look? (·.fieldOf owner name))

/-- What a pointer points at. -/
def deref (ev : Evaluator) (operand : Node) : Eval Outcome := do
  let r ← valueOf ev operand
  yield (← look? (·.referent r))

/-- The address of a value. That of an element stays in its block, so that it
    can reach the other elements. -/
def addressOf (ev : Evaluator) (operand : Node) : Eval Outcome := do
  match operand.construct with
  | .index container index =>
    let (container, i) ← indexed ev container index
    let p ← look? (·.elementAddress container i)
    yield (← Mem.alloc (.pointer p))
  | _ => yield (← toPointer (← valueOf ev operand))

end Eval

end Treewalk
