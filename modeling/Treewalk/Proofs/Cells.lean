/-
  Reading the heap after writing it.

  * `cell_alloc`, `cell_setCell`: what a cell holds after one was added or
    changed;
  * `block_allocBlock`, `block_setSlot`: the same for blocks.
-/
import Treewalk.Memory.Value

namespace Treewalk

theorem Ref.ext_id {r x : Ref} (h : r.id = x.id) : r = x := by
  cases r; cases x; cases h; rfl

theorem BlockRef.ext_id {b c : BlockRef} (h : b.id = c.id) : b = c := by
  cases b; cases c; cases h; rfl

namespace Heap

variable (h : Heap) (r x : Ref) (b b' : BlockRef) (c : Cell)

/-! ## Sizes -/

@[simp] theorem cells_size_alloc : (h.alloc c).2.cells.size = h.cells.size + 1 :=
  Array.size_push c

@[simp] theorem blocks_alloc : (h.alloc c).2.blocks = h.blocks := rfl

@[simp] theorem cells_allocBlock (slots : Array Ref) : (h.allocBlock slots).2.cells = h.cells := rfl

@[simp] theorem blocks_size_allocBlock (slots : Array Ref) :
    (h.allocBlock slots).2.blocks.size = h.blocks.size + 1 :=
  Array.size_push slots

@[simp] theorem cells_size_setCell : (h.setCell r c).cells.size = h.cells.size :=
  Array.size_setIfInBounds

@[simp] theorem blocks_setCell : (h.setCell r c).blocks = h.blocks := rfl

@[simp] theorem cells_setSlot (i : Nat) : (h.setSlot b i r).cells = h.cells := rfl

@[simp] theorem blocks_size_setSlot (i : Nat) : (h.setSlot b i r).blocks.size = h.blocks.size :=
  Array.size_modify

/-! ## Cells -/

variable {h r} in
theorem cell_of_le (hr : h.cells.size ≤ r.id) : h.cell r = default := by
  unfold cell
  rw [Array.getElem?_eq_none hr]
  rfl

variable {h r} in
/-- Only a cell that is there holds anything but the default. -/
theorem lt_of_cell_ne (hr : h.cell r ≠ default) : r.id < h.cells.size :=
  Nat.lt_of_not_le fun hle => hr (cell_of_le hle)

theorem cell_alloc : (h.alloc c).2.cell x = if x.id = h.cells.size then c else h.cell x := by
  unfold cell alloc
  rw [Array.getElem?_push]
  split <;> rfl

@[simp] theorem cell_alloc_new : (h.alloc c).2.cell (h.alloc c).1 = c := by
  rw [cell_alloc]; exact if_pos rfl

variable {h x} in
theorem cell_alloc_of_lt (hx : x.id < h.cells.size) : (h.alloc c).2.cell x = h.cell x := by
  rw [cell_alloc, if_neg (by omega)]

@[simp] theorem cell_allocBlock (slots : Array Ref) : (h.allocBlock slots).2.cell x = h.cell x :=
  rfl

@[simp] theorem cell_setSlot (i : Nat) : (h.setSlot b i r).cell x = h.cell x := rfl

theorem cell_setCell :
    (h.setCell r c).cell x = if x = r ∧ r.id < h.cells.size then c else h.cell x := by
  unfold cell setCell
  rw [Array.getElem?_setIfInBounds]
  by_cases hr : r.id = x.id
  · obtain rfl := Ref.ext_id hr
    by_cases hs : r.id < h.cells.size <;> simp [hs]
  · have : x ≠ r := fun he => hr (by rw [he])
    simp [hr, this]

variable {r x} in
theorem cell_setCell_of_ne (hx : x ≠ r) : (h.setCell r c).cell x = h.cell x := by
  rw [cell_setCell, if_neg (fun hr => hx hr.1)]

/-- A cell that is changed to what it holds. -/
theorem setCell_self : h.setCell r (h.cell r) = h := by
  have hcells : h.cells.setIfInBounds r.id (h.cell r) = h.cells := by
    unfold cell Array.setIfInBounds
    by_cases hr : r.id < h.cells.size <;> simp [hr]
  unfold setCell
  rw [hcells]

/-! ## Blocks -/

variable {h b} in
theorem block_of_le (hb : h.blocks.size ≤ b.id) : h.block b = #[] := by
  unfold block
  rw [Array.getElem?_eq_none hb]
  rfl

@[simp] theorem block_alloc : (h.alloc c).2.block b = h.block b := rfl

@[simp] theorem block_setCell : (h.setCell r c).block b = h.block b := rfl

theorem block_allocBlock (slots : Array Ref) :
    (h.allocBlock slots).2.block b = if b.id = h.blocks.size then slots else h.block b := by
  unfold block allocBlock
  rw [Array.getElem?_push]
  split <;> rfl

@[simp] theorem block_allocBlock_new (slots : Array Ref) :
    (h.allocBlock slots).2.block (h.allocBlock slots).1 = slots := by
  rw [block_allocBlock]; exact if_pos rfl

variable {h b} in
theorem block_allocBlock_of_lt (slots : Array Ref) (hb : b.id < h.blocks.size) :
    (h.allocBlock slots).2.block b = h.block b := by
  rw [block_allocBlock, if_neg (by omega)]

theorem block_setSlot (i : Nat) :
    (h.setSlot b i r).block b' =
      if b' = b then (h.block b).setIfInBounds i r else h.block b' := by
  unfold block setSlot
  rw [Array.getElem?_modify]
  by_cases hb : b.id = b'.id
  · obtain rfl := BlockRef.ext_id hb
    rw [if_pos rfl, if_pos rfl]
    cases h.blocks[b.id]? with
    | none => simp
    | some slots => rfl
  · have : b' ≠ b := fun he => hb (by rw [he])
    rw [if_neg hb, if_neg this]

end Heap

end Treewalk
