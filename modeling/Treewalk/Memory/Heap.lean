/-
  The heap.

  A value is a *cell*, reached by a `Ref`; two names for one value are two
  equal refs. Arrays and pointers share *blocks*, ordered rows of refs, reached
  by a `BlockRef`. Cells and blocks are only ever added; what a cell holds, and
  what stands in a block, may change.

  A block holds one *slot* per element. A scalar, pointer or array element
  lives inside a cell of its own (`Cell.slot`) that can be emptied; a compound
  element stands in the block directly. An empty slot is an *absent* value.

  The *null pointer* is a pointer into an empty block. A pointer whose slot is
  empty also reads as null, but keeps its place among other pointers. Where
  blocks lie is for the host to say (`Layout`).

  * `Heap.cell` and `Heap.block` read, `Heap.alloc`, `Heap.allocBlock`,
    `Heap.setCell` and `Heap.setSlot` write.
-/
import Treewalk.Fault
import Treewalk.Number.Primitive

namespace Treewalk

/-- A handle on a cell. -/
structure Ref where
  id : Nat
  deriving DecidableEq, Inhabited

/-- A handle on a block. -/
structure BlockRef where
  id : Nat
  deriving DecidableEq, Inhabited

/-- A place in a block. -/
structure Pointer where
  /-- the declared type of what it points at -/
  target : Ty
  block : BlockRef
  offset : Int64
  deriving DecidableEq

/-- What a cell holds. -/
inductive Cell where
  | primitive (value : Primitive)
  /-- the whole of a block -/
  | array (element : Ty) (block : BlockRef)
  | pointer (value : Pointer)
  /-- an element of the given type, or none -/
  | slot (ty : Ty) (content : Option Ref)
  /-- a struct or class with its fields, inherited ones first -/
  | compound (ty : Ty) (fields : List (String × Ref))
  deriving DecidableEq

instance : Inhabited Cell := ⟨.primitive default⟩

/-- The name of a cell's variant, for messages. -/
def Cell.variant : Cell → String
  | primitive _ => "primitive"
  | array .. => "array"
  | pointer _ => "pointer"
  | slot .. => "nullable"
  | compound .. => "compound"

/-- Where the host puts blocks, which are counted as they are made: no two in
    the same place, and otherwise in any order. -/
structure Layout where
  address : Nat → Nat
  address_inj : ∀ {i j : Nat}, address i = address j → i = j

/-- One after another. -/
def Layout.consecutive : Layout :=
  ⟨id, id⟩

/-- All cells and blocks. -/
structure Heap where
  cells : Array Cell := #[]
  blocks : Array (Array Ref) := #[]
  layout : Layout := .consecutive

instance : Inhabited Heap := ⟨{}⟩

namespace Heap

/-- What a cell holds. -/
def cell (h : Heap) (r : Ref) : Cell :=
  h.cells[r.id]?.getD default

/-- The slots of a block. -/
def block (h : Heap) (b : BlockRef) : Array Ref :=
  h.blocks[b.id]?.getD #[]

/-- Add a cell. -/
def alloc (h : Heap) (c : Cell) : Ref × Heap :=
  (⟨h.cells.size⟩, { h with cells := h.cells.push c })

/-- Add a block. -/
def allocBlock (h : Heap) (slots : Array Ref) : BlockRef × Heap :=
  (⟨h.blocks.size⟩, { h with blocks := h.blocks.push slots })

/-- Change what a cell holds. -/
def setCell (h : Heap) (r : Ref) (c : Cell) : Heap :=
  { h with cells := h.cells.setIfInBounds r.id c }

/-- Change what stands at a place of a block. -/
def setSlot (h : Heap) (b : BlockRef) (i : Nat) (r : Ref) : Heap :=
  { h with blocks := h.blocks.modify b.id fun slots => slots.setIfInBounds i r }

end Heap

/-- A computation on the heap that may halt; what it has changed before that
    stays changed. -/
abbrev Mem := EStateM Halt Heap

namespace Mem

/-- Halt with a fault that has no place yet. -/
@[inline] def fail {α : Type} (c : Cause) : Mem α :=
  throw (.of c)

/-- The answer to a question, unless asking it is a fault. -/
@[inline] def answer {α : Type} : Except Cause α → Mem α
  | .ok a => return a
  | .error c => fail c

/-- A value read off the heap. -/
@[inline] def read {α : Type} (f : Heap → α) : Mem α := fun h =>
  .ok (f h) h

/-- A change of the heap. -/
@[inline] def change (f : Heap → Heap) : Mem Unit := fun h =>
  .ok () (f h)

/-- Add a cell. -/
@[inline] def alloc (c : Cell) : Mem Ref := fun h =>
  let (r, h) := h.alloc c
  .ok r h

/-- Add a block. -/
@[inline] def allocBlock (slots : Array Ref) : Mem BlockRef := fun h =>
  let (b, h) := h.allocBlock slots
  .ok b h

end Mem

end Treewalk
