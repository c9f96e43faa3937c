/-
  Copies, casts and assignment.

  * `copy` duplicates a value in depth, pointers keeping their place, and
    `copyForBinding` is the copy a parameter gets: arrays decay;
  * `castTo` converts a value to a type;
  * `assign` stores a value into another in place, so that every name of the
    target sees it, and `release` empties the slot of a pointer.
-/
import Treewalk.Memory.Value
import Treewalk.Number.Arithmetic

namespace Treewalk

open Mem

/-! ## Slots and pointers -/

/-- An empty slot. -/
def absent (ty : Ty) : Mem Ref :=
  alloc (.slot ty none)

/-- A new null pointer. -/
def nullPointer (target : Ty) : Mem Ref := do
  let b ← allocBlock #[]
  alloc (.pointer ⟨target, b, 0⟩)

/-- A present slot around a value; a slot is kept as it is. -/
def toSlot (r : Ref) : Mem Ref := do
  match ← read (·.cell r) with
  | .slot .. => return r
  | _ =>
    let ty ← read (·.tyOf r)
    alloc (.slot ty (some r))

/-- A value the way a block holds it: compounds stand there directly. -/
def slotFor (r : Ref) : Mem Ref := do
  match ← read (·.cell r) with
  | .compound .. => return r
  | _ => toSlot r

/-- An array of values, each put into a slot. -/
def arrayOf (element : Ty) (values : List Ref) : Mem Ref := do
  let slots ← values.mapM slotFor
  let b ← allocBlock slots.toArray
  alloc (.array element b)

/-- An array of slots. -/
def arrayOfSlots (element : Ty) (slots : List Ref) : Mem Ref := do
  let b ← allocBlock slots.toArray
  alloc (.array element b)

/-- A new pointer to a value. -/
def toPointer (r : Ref) : Mem Ref := do
  let target ← read (·.tyOf r)
  let slot ← slotFor r
  let b ← allocBlock #[slot]
  alloc (.pointer ⟨target, b, 0⟩)

/-! ## Copies -/

/-- A copy in depth, at most `fuel` levels deep. -/
def copyWithin : Nat → Ref → Mem Ref
  | 0, r => return r
  | fuel + 1, r => do
    match ← read (·.cell r) with
    | .array element b =>
      let slots ← (← read fun h => (h.block b).toList).mapM (copyWithin fuel)
      let b ← allocBlock slots.toArray
      alloc (.array element b)
    | .slot ty (some content) =>
      let content ← copyWithin fuel content
      alloc (.slot ty (some content))
    | .compound ty fields =>
      let fields ← fields.mapM fun f => return (f.1, ← copyWithin fuel f.2)
      alloc (.compound ty fields)
    | c => alloc c

/-- The number of levels of containment a value can have: a value never
    contains itself. -/
def Heap.levels (h : Heap) : Nat :=
  h.cells.size + 1

/-- A copy in depth. -/
def copy (r : Ref) : Mem Ref := do
  copyWithin (← read Heap.levels) r

/-- The copy a parameter gets: an array decays to a pointer into its block. -/
def copyForBinding (r : Ref) : Mem Ref := do
  let r ← read (·.flatten r)
  match ← read (·.cell r) with
  | .array element b => alloc (.pointer ⟨element, b, 0⟩)
  | _ => copy r

/-! ## Casts -/

/-- What a cast makes. -/
inductive Casted where
  | cell (c : Cell)
  | null (target : Ty)

/-- What becomes of a value converted to a type. Numbers convert freely; an
    integral zero and an absent value become the null pointer, a null pointer
    and an absent value become zero. -/
def Heap.casted (h : Heap) (c : Cell) (target : Ty) : Except Cause Casted :=
  let refused : Except Cause Casted := .error (.invalidCast (h.cellTy c) target)
  match c, target.unqualified with
  | _, .primitive .void _ => refused
  | .primitive p, .primitive k u => .ok (.cell (.primitive (p.converted k u)))
  | .primitive p, .pointer t => if p.isNullConstant then .ok (.null t) else refused
  | .pointer p, .pointer t => .ok (.cell (.pointer (p.retargeted t)))
  | .pointer p, .primitive k u =>
    if h.isNull p then .ok (.cell (.primitive (.zero k u))) else refused
  | .array _ b, .pointer t => .ok (.cell (.pointer ⟨t, b, 0⟩))
  | .slot .., .primitive k u => .ok (.cell (.primitive (.zero k u)))
  | .slot .., .pointer t => .ok (.null t)
  | _, _ => refused

/-- A value converted to a type. -/
def castTo (r : Ref) (target : Ty) : Mem Ref := do
  match ← answer (← read fun h => h.casted (h.cell (h.flatten r)) target) with
  | .cell c => alloc c
  | .null t => nullPointer t

/-! ## Assignment -/

/-- What storing one value into another changes. -/
inductive Update where
  | nothing
  | primitive (value : Primitive)
  /-- move a pointer -/
  | place (block : BlockRef) (offset : Int64)
  /-- make a pointer null -/
  | null
  /-- store the second of each pair into the first -/
  | pairs (pairs : List (Ref × Ref))

/-- The pairs of fields of equal names; none if a field has no partner. -/
def fieldPairs? (target source : List (String × Ref)) : Option (List (Ref × Ref)) :=
  target.mapM fun f => (Dict.find? f.1 source).map (f.2, ·)

/-- What storing `source` into `target` changes. -/
def Heap.update (h : Heap) (target source : Cell) : Except Cause Update :=
  let refused : Except Cause Update := .error (.invalidCast (h.cellTy source) (h.cellTy target))
  match target, source with
  | .primitive t, .primitive s => .ok (.primitive (s.converted t.kind t.unsigned))
  | .primitive t, .slot .. => .ok (.primitive (.zero t.kind t.unsigned))
  | .primitive t, .pointer p =>
    if h.isNull p then .ok (.primitive (.zero t.kind t.unsigned)) else refused
  | .pointer _, .pointer p => .ok (.place p.block p.offset)
  | .pointer _, .array _ b => .ok (.place b 0)
  | .pointer _, .primitive s => if s.isNullConstant then .ok .null else refused
  | .pointer _, .slot .. => .ok .null
  | .array _ b, .array _ c =>
    if b = c then .ok .nothing else .ok (.pairs ((h.block b).toList.zip (h.block c).toList))
  | .array _ b, .pointer p => .ok (.pairs ((h.block b).toList.zip (h.remaining p)))
  | .compound _ fs, .compound _ gs =>
    match fieldPairs? fs gs with
    | some pairs => .ok (.pairs pairs)
    | none => refused
  | _, _ => refused

/-- Put a number into a cell that holds one. -/
def setPrimitive (r : Ref) (p : Primitive) : Mem Unit :=
  change (·.setCell r (.primitive p))

/-- Move the pointer in a cell. -/
def setPlace (r : Ref) (b : BlockRef) (offset : Int64) : Mem Unit :=
  change fun h =>
    match h.cell r with
    | .pointer p => h.setCell r (.pointer { p with block := b, offset })
    | _ => h

/-- Put a value into a slot, or empty it. -/
def setContent (r : Ref) (content : Option Ref) : Mem Unit :=
  change fun h =>
    match h.cell r with
    | .slot ty _ => h.setCell r (.slot ty content)
    | _ => h

/-- Store a copy of a value into an empty slot, converted if the slot is
    declared as a number or pointer. -/
def fill (r : Ref) (declared : Ty) (source : Ref) : Mem Unit := do
  if ← read (·.isAbsent source) then
    return
  let fresh ← copyForBinding source
  let fresh ←
    match declared.unqualified with
    | .primitive .void _ => pure fresh
    | .primitive .. | .pointer _ => castTo fresh declared
    | _ => pure fresh
  setContent r (some fresh)

/-- Store `source` into `target`, at most `fuel` levels deep. -/
def assignWithin : Nat → Ref → Ref → Mem Unit
  | 0, _, _ => return
  | fuel + 1, target, source => do
    let source ← read (·.flatten source)
    if target = source then
      return
    match ← read (·.cell target) with
    | .slot _ (some content) => assignWithin fuel content source
    | .slot declared none => fill target declared source
    | c =>
      match ← answer (← read fun h => h.update c (h.cell source)) with
      | .nothing => return
      | .primitive p => setPrimitive target p
      | .place b offset => setPlace target b offset
      | .null =>
        let b ← allocBlock #[]
        setPlace target b 0
      | .pairs pairs =>
        pairs.forM fun (t, s) => do
          if ← read (·.isAbsent s) then
            setContent t none
          else
            assignWithin fuel t s

/-- Store `source` into `target` in place. -/
def assign (target source : Ref) : Mem Unit := do
  assignWithin (2 * (← read Heap.levels)) target source

/-- Empty the slot a pointer refers to; every name of the slot sees it. The
    null pointer is left alone. -/
def release (p : Pointer) : Mem Unit := do
  if ← read (·.hasNoStorage p) then
    return
  let slot ← answer (← read (·.slotOf p))
  match ← read (·.cell slot) with
  | .slot .. => setContent slot none
  | _ =>
    let empty ← absent (← read (·.tyOf slot))
    change (·.setSlot p.block p.offset.toInt.toNat empty)

/-- Move a number by `delta`, or a pointer by `delta` elements, in place. -/
def step (r : Ref) (delta : Int64) : Mem Unit := do
  match ← read (·.cell r) with
  | .slot _ none =>
    let source ← alloc (.primitive (.int delta))
    assign r source
  | .primitive p => change (·.setCell r (.primitive (p.stepped delta)))
  | .pointer p => change (·.setCell r (.pointer (p.moved delta)))
  | c => fail (.malformed (.stepOf c.variant))

end Treewalk
