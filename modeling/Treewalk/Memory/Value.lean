/-
  Reading values.

  A present slot stands for its content (`Heap.flatten`); all questions about
  a value look through it.

  * `Heap.tyOf` is the type of a value, `Heap.primitive?` and
    `Heap.pointer?` its views as a number and as a pointer, arrays decaying;
  * `Heap.slotOf`, `Heap.isNull`, `Heap.remaining`, `Heap.sameTarget` and
    `Heap.order` are the questions about pointers.
-/
import Treewalk.Dict
import Treewalk.Memory.Heap

namespace Treewalk

/-! ## Pointers -/

namespace Pointer

/-- The pointer `delta` elements further. -/
def moved (p : Pointer) (delta : Int64) : Pointer :=
  { p with offset := p.offset + delta }

/-- The same place, pointing at another type. -/
def retargeted (p : Pointer) (target : Ty) : Pointer :=
  { p with target }

end Pointer

/-- The element of a row at a position that may be negative. -/
def slotAt? (slots : Array Ref) (i : Int64) : Option Ref :=
  if i < 0 then none else slots[i.toInt.toNat]?

namespace Heap

/-- The number of slots in a block. -/
def blockSize (h : Heap) (b : BlockRef) : Nat :=
  (h.block b).size

/-- Is the value an empty slot? -/
def isAbsent (h : Heap) (r : Ref) : Bool :=
  match h.cell r with
  | .slot _ none => true
  | _ => false

/-- The content of a present slot; any other value itself. A slot never holds
    a slot. -/
def flatten (h : Heap) (r : Ref) : Ref :=
  match h.cell r with
  | .slot _ (some content) => content
  | _ => r

/-- The slot at a position of a block. -/
def slotIn (h : Heap) (b : BlockRef) (i : Int64) : Except Cause Ref :=
  match slotAt? (h.block b) i with
  | some r => .ok r
  | none => .error (.access (.outOfBounds i (h.blockSize b)))

/-- Is this the null pointer itself? -/
def hasNoStorage (h : Heap) (p : Pointer) : Bool :=
  h.blockSize p.block == 0

/-- Does the pointer read as null: is it the null pointer, or its slot empty? -/
def isNull (h : Heap) (p : Pointer) : Bool :=
  h.hasNoStorage p ||
    match slotAt? (h.block p.block) p.offset with
    | some r => h.isAbsent r
    | none => false

/-- The slot a pointer refers to. -/
def slotOf (h : Heap) (p : Pointer) : Except Cause Ref :=
  if h.hasNoStorage p then .error (.access .nullPointer) else h.slotIn p.block p.offset

/-- The slots from the pointer to the end of its block. -/
def remaining (h : Heap) (p : Pointer) : List Ref :=
  if p.offset < 0 then [] else (h.block p.block).toList.drop p.offset.toInt.toNat

/-- Are both the null pointer, or in the same place? -/
def sameTarget (h : Heap) (p q : Pointer) : Bool :=
  match h.hasNoStorage p, h.hasNoStorage q with
  | true, true => true
  | false, false => p.block == q.block && p.offset == q.offset
  | _, _ => false

/-- A key by which pointers are ordered: by where their blocks lie, within one
    block by position, the null pointer before everything. -/
def addressOf (h : Heap) (p : Pointer) : Nat × Int64 :=
  if h.hasNoStorage p then (0, 0) else (h.layout.address p.block.id + 1, p.offset)

/-- The order of two pointers. -/
def order (h : Heap) (p q : Pointer) : Ordering :=
  let (b, i) := h.addressOf p
  let (c, j) := h.addressOf q
  (compare b c).then (compare i j)

/-! ## Views of a value -/

/-- The type of what a cell holds; of a slot, its declared type. -/
def cellTy (h : Heap) : Cell → Ty
  | .primitive p => p.ty
  | .array element b => .array element (some (h.blockSize b))
  | .pointer p => .pointer p.target
  | .slot ty _ => ty
  | .compound ty _ => ty

/-- The type of a value. -/
def tyOf (h : Heap) (r : Ref) : Ty :=
  h.cellTy (h.cell (h.flatten r))

/-- The value as a number. -/
def primitive? (h : Heap) (r : Ref) : Option Primitive :=
  match h.cell (h.flatten r) with
  | .primitive p => some p
  | _ => none

/-- The value as a pointer; an array decays to a pointer to its first
    element. -/
def pointer? (h : Heap) (r : Ref) : Option Pointer :=
  match h.cell (h.flatten r) with
  | .pointer p => some p
  | .array element b => some ⟨element, b, 0⟩
  | _ => none

/-- A field of a compound value. -/
def field? (h : Heap) (r : Ref) (name : String) : Option Ref :=
  match h.cell (h.flatten r) with
  | .compound _ fields => Dict.find? name fields
  | _ => none

end Heap

end Treewalk
