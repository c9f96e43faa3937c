/-
  What evaluation may do to the heap.

  * `Cell.Alike`: two cells have the same variant and the same static part;
  * `Heap.Retains h h'`: from `h` to `h'` cells and blocks were added, every
    cell has stayed alike, every block has kept its length, and a place of a
    block has kept its value unless a bare value there was released
    (`Heap.Vacated`). This is a preorder;
  * `Heap.SameBlocks h h'`: blocks have kept all their values; `Heap.Adds h h'`:
    so have cells;
  * `Mem.Keeps R x`: all that `x` does to the heap is within `R`, which allows for new
    cells and blocks (`Heap.Additive`), or also for changes of cells that stay alike
    (`Heap.Growth`); a release retains the heap (`Mem.Retains`).
-/
import Treewalk.Memory.Zero
import Treewalk.Memory.Operand
import Treewalk.Proofs.Cells
import Treewalk.Proofs.Ends
import Mathlib.Order.Basic
import Mathlib.Order.Nat

namespace Treewalk

/-- The same variant, and the same part of it that is fixed when a value is
    made. -/
inductive Cell.Alike : Cell → Cell → Prop
  | primitive {p q : Primitive} : q.kind = p.kind → q.unsigned = p.unsigned →
      Alike (.primitive p) (.primitive q)
  | array (element : Ty) (b : BlockRef) : Alike (.array element b) (.array element b)
  | pointer {p q : Pointer} : q.target = p.target → Alike (.pointer p) (.pointer q)
  | slot (ty : Ty) (content content' : Option Ref) : Alike (.slot ty content) (.slot ty content')
  | compound (ty : Ty) (fields : List (String × Ref)) :
      Alike (.compound ty fields) (.compound ty fields)

theorem Cell.Alike.refl (c : Cell) : c.Alike c := by
  cases c with
  | primitive p => exact .primitive rfl rfl
  | array element b => exact .array element b
  | pointer p => exact .pointer rfl
  | slot ty content => exact .slot ty content content
  | compound ty fields => exact .compound ty fields

theorem Cell.Alike.trans {c c' c'' : Cell} (h : c.Alike c') (h' : c'.Alike c'') :
    c.Alike c'' := by
  cases h with
  | primitive hk hu =>
    cases h' with
    | primitive hk' hu' => exact .primitive (hk'.trans hk) (hu'.trans hu)
  | array => exact h'
  | pointer ht =>
    cases h' with
    | pointer ht' => exact .pointer (ht'.trans ht)
  | slot ty content content' =>
    cases h' with
    | slot _ _ content'' => exact .slot ty content content''
  | compound => exact h'

/-- Is the cell a slot? -/
def Cell.IsSlot : Cell → Prop
  | .slot .. => True
  | _ => False

theorem Cell.not_isSlot_of {c : Cell} (hc : ∀ ty content, c ≠ .slot ty content) : ¬ c.IsSlot := by
  intro hslot
  cases c with
  | slot ty content => exact hc ty content rfl
  | _ => exact hslot

theorem Cell.Alike.isSlot_iff {c c' : Cell} (h : c.Alike c') : c'.IsSlot ↔ c.IsSlot := by
  cases h <;> exact Iff.rfl

namespace Heap

variable {h h' : Heap}

/-- Where `r` stood bare in a block, `r'` is a new slot; in place of a
    compound, one of its type. -/
structure Vacated (h h' : Heap) (r r' : Ref) : Prop where
  bare : ¬ (h.cell r).IsSlot
  fresh : h.cells.size ≤ r'.id
  slot : ∃ ty content, h'.cell r' = .slot ty content ∧
    ∀ ty' fields, h.cell r = .compound ty' fields → ty = ty'

/-- Cells and blocks were added; what was there has kept its static part. -/
structure Retains (h h' : Heap) : Prop where
  cells_le : h.cells.size ≤ h'.cells.size
  blocks_le : h.blocks.size ≤ h'.blocks.size
  cell : ∀ r, r.id < h.cells.size → (h.cell r).Alike (h'.cell r)
  size : ∀ b, b.id < h.blocks.size → (h'.block b).size = (h.block b).size
  place : ∀ b (i : Nat) r r', b.id < h.blocks.size → (h.block b)[i]? = some r →
    (h'.block b)[i]? = some r' → r' = r ∨ h.Vacated h' r r'

namespace Retains

theorem refl (h : Heap) : h.Retains h where
  cells_le := Nat.le_refl _
  blocks_le := Nat.le_refl _
  cell := fun r _ => .refl (h.cell r)
  size := fun _ _ => rfl
  place := fun b i r r' _ hr hr' => by rw [hr] at hr'; exact .inl (Option.some.inj hr').symm

/-- A bare value was bare before: what is not there yet is no slot. -/
theorem not_isSlot (hh : h.Retains h') {r : Ref} (hr : ¬ (h'.cell r).IsSlot) :
    ¬ (h.cell r).IsSlot := by
  by_cases hlt : r.id < h.cells.size
  · rwa [(hh.cell r hlt).isSlot_iff] at hr
  · rw [cell_of_le (Nat.le_of_not_lt hlt)]
    exact id

theorem cell_compound (hh : h.Retains h') {r : Ref} {ty : Ty} {fields : List (String × Ref)}
    (hr : h.cell r = .compound ty fields) : h'.cell r = .compound ty fields := by
  have ha := hh.cell r (lt_of_cell_ne (by rw [hr]; simp [default]))
  rw [hr] at ha
  generalize h'.cell r = c at ha
  cases ha with
  | compound => rfl

theorem cell_slot (hh : h.Retains h') {r : Ref} {ty : Ty} {content : Option Ref}
    (hr : h.cell r = .slot ty content) : ∃ content', h'.cell r = .slot ty content' := by
  have ha := hh.cell r (lt_of_cell_ne (by rw [hr]; simp [default]))
  rw [hr] at ha
  generalize h'.cell r = c at ha
  cases ha with
  | slot _ _ content' => exact ⟨content', rfl⟩

theorem trans {h'' : Heap} (hh : h.Retains h') (hh' : h'.Retains h'') : h.Retains h'' where
  cells_le := hh.cells_le.trans hh'.cells_le
  blocks_le := hh.blocks_le.trans hh'.blocks_le
  cell := fun r hr => (hh.cell r hr).trans (hh'.cell r (hr.trans_le hh.cells_le))
  size := fun b hb => (hh'.size b (hb.trans_le hh.blocks_le)).trans (hh.size b hb)
  place := by
    intro b i r r'' hb hr hr''
    obtain ⟨r', hr'⟩ : ∃ r', (h'.block b)[i]? = some r' := by
      obtain ⟨hi, -⟩ := Array.getElem?_eq_some_iff.1 hr
      rw [← hh.size b hb] at hi
      exact ⟨_, Array.getElem?_eq_getElem hi⟩
    rcases hh.place b i r r' hb hr hr' with rfl | hv
    · rcases hh'.place b i r' r'' (hb.trans_le hh.blocks_le) hr' hr'' with rfl | hv'
      · exact .inl rfl
      · obtain ⟨ty, content, hs, ht⟩ := hv'.slot
        exact .inr ⟨hh.not_isSlot hv'.bare, hh.cells_le.trans hv'.fresh, ty, content, hs,
          fun ty' fields hc => ht ty' fields (hh.cell_compound hc)⟩
    · obtain ⟨ty, content, hs, ht⟩ := hv.slot
      rcases hh'.place b i r' r'' (hb.trans_le hh.blocks_le) hr' hr'' with rfl | hv'
      · obtain ⟨content', hs'⟩ := hh'.cell_slot hs
        exact .inr ⟨hv.bare, hv.fresh, ty, content', hs', ht⟩
      · exact absurd (by rw [hs]; trivial) hv'.bare

/-! ## Elementary changes -/

/-- A heap whose blocks are the same. -/
theorem of_cells (hle : h.cells.size ≤ h'.cells.size) (hb : h'.blocks = h.blocks)
    (hc : ∀ r, r.id < h.cells.size → (h.cell r).Alike (h'.cell r)) : h.Retains h' where
  cells_le := hle
  blocks_le := by rw [hb]
  cell := hc
  size := fun b _ => by unfold block; rw [hb]
  place := fun b i r r' _ hr hr' => by
    unfold block at hr hr'; rw [hb, hr] at hr'; exact .inl (Option.some.inj hr').symm

theorem alloc (h : Heap) (c : Cell) : h.Retains (h.alloc c).2 :=
  of_cells (by simp) rfl fun r hr => by rw [cell_alloc_of_lt c hr]; exact .refl _

theorem setCell {r : Ref} {c : Cell} (hc : (h.cell r).Alike c) : h.Retains (h.setCell r c) :=
  of_cells (by simp) rfl fun x _ => by
    rw [cell_setCell]
    split
    · rename_i hx; rw [hx.1]; exact hc
    · exact .refl _

theorem allocBlock (h : Heap) (slots : Array Ref) : h.Retains (h.allocBlock slots).2 where
  cells_le := by simp
  blocks_le := by simp
  cell := fun r _ => .refl _
  size := fun b hb => by rw [block_allocBlock_of_lt slots hb]
  place := fun b i r r' hb hr hr' => by
    rw [block_allocBlock_of_lt slots hb, hr] at hr'
    exact .inl (Option.some.inj hr').symm

/-- A bare value of a block is replaced by a new slot. -/
theorem setSlot {b : BlockRef} {i : Nat} {r : Ref} (hr : (h.block b)[i]? = some r)
    (hs : ¬ (h.cell r).IsSlot) :
    h.Retains ((h.alloc (.slot (h.tyOf r) none)).2.setSlot b i ⟨h.cells.size⟩) where
  cells_le := by simp
  blocks_le := by simp
  cell := fun x hx => by rw [cell_setSlot, cell_alloc_of_lt _ hx]; exact .refl _
  size := fun b' _ => by rw [block_setSlot]; split <;> simp_all
  place := by
    intro b' j x x' _ hx hx'
    rw [block_setSlot, block_alloc] at hx'
    split at hx'
    · rename_i hb
      subst hb
      rw [Array.getElem?_setIfInBounds] at hx'
      split at hx'
      · rename_i hij
        subst hij
        rw [hr] at hx
        obtain rfl := Option.some.inj hx
        split at hx'
        · obtain rfl := Option.some.inj hx'
          refine .inr ⟨hs, Nat.le_refl _, h.tyOf r, none, ?_, fun ty fields hc => ?_⟩
          · rw [cell_setSlot, cell_alloc, if_pos rfl]
          · unfold tyOf flatten cellTy; simp only [hc]
        · cases hx'
      · rw [hx] at hx'; exact .inl (Option.some.inj hx').symm
    · rw [block_alloc, hx] at hx'; exact .inl (Option.some.inj hx').symm

end Retains

/-- Every block that was there is as it was. -/
structure SameBlocks (h h' : Heap) : Prop where
  blocks_le : h.blocks.size ≤ h'.blocks.size
  block : ∀ b, b.id < h.blocks.size → h'.block b = h.block b

/-- Cells and blocks were added, and what was there is as it was. -/
structure Adds (h h' : Heap) : Prop extends SameBlocks h h' where
  layout : h'.layout = h.layout
  cells_le : h.cells.size ≤ h'.cells.size
  cell : ∀ r, r.id < h.cells.size → h'.cell r = h.cell r

/-- A preorder that allows for new cells and blocks. -/
class Additive (R : Heap → Heap → Prop) : Prop extends Std.Refl R, IsTrans Heap R where
  alloc : ∀ h c, R h (h.alloc c).2
  allocBlock : ∀ h slots, R h (h.allocBlock slots).2

/-- A preorder that also allows for changes of cells that leave their static part
    alone. -/
class Growth (R : Heap → Heap → Prop) : Prop extends Additive R where
  setCell : ∀ {h r c}, (h.cell r).Alike c → R h (h.setCell r c)

instance : Growth Retains where
  refl := .refl
  trans := fun _ _ _ => .trans
  alloc := .alloc
  allocBlock := .allocBlock
  setCell := .setCell

instance : Growth SameBlocks where
  refl := fun _ => ⟨Nat.le_refl _, fun _ _ => rfl⟩
  trans := fun _ _ _ h h' => ⟨h.blocks_le.trans h'.blocks_le, fun b hb =>
    (h'.block b (hb.trans_le h.blocks_le)).trans (h.block b hb)⟩
  alloc := fun _ _ => ⟨Nat.le_refl _, fun _ _ => rfl⟩
  allocBlock := fun h slots => ⟨by simp, fun _ hb => block_allocBlock_of_lt slots hb⟩
  setCell := fun _ => ⟨Nat.le_refl _, fun _ _ => rfl⟩

instance : Additive Adds where
  refl := fun h => ⟨Std.Refl.refl h, rfl, Nat.le_refl _, fun _ _ => rfl⟩
  trans := fun _ _ _ h h' => ⟨IsTrans.trans _ _ _ h.toSameBlocks h'.toSameBlocks,
    h'.layout.trans h.layout, h.cells_le.trans h'.cells_le, fun r hr =>
      (h'.cell r (hr.trans_le h.cells_le)).trans (h.cell r hr)⟩
  alloc := fun h c => ⟨Additive.alloc h c, rfl, by simp, fun _ hr => cell_alloc_of_lt c hr⟩
  allocBlock := fun h slots => ⟨Additive.allocBlock h slots, rfl, Nat.le_refl _, fun _ _ => rfl⟩

end Heap

/-! ## Operations on the heap -/

/-- Did the evaluation halt because an operand was missing? -/
def Halt.Underflow : Halt → Prop
  | .fault f => f.cause = .stackUnderflow
  | .exhausted => False

/-- A halt as it is raised: the fault has no place yet, and no operand was missing. -/
def Halt.Raised : Halt → Prop
  | .fault f => f.cause ≠ .stackUnderflow ∧ f.location = none
  | .exhausted => True

@[simp] theorem Halt.raised_fault {c : Cause} :
    (Halt.fault { cause := c }).Raised ↔ c ≠ .stackUnderflow :=
  and_iff_left rfl

@[simp] theorem Halt.raised_exhausted : Halt.exhausted.Raised :=
  trivial

theorem Halt.Raised.not_underflow {halt : Halt} (h : halt.Raised) : ¬ halt.Underflow := by
  cases halt with
  | fault f => exact h.1
  | exhausted => exact id

/-- All that the operation does to the heap is within the relation. No operation
    on the heap looks for operands. -/
abbrev Mem.Keeps (R : Heap → Heap → Prop) {α : Type} (x : Mem α) : Prop :=
  Within R Halt.Raised x

/-- All that the operation does to the heap retains it. -/
abbrev Mem.Retains {α : Type} (x : Mem α) : Prop :=
  Mem.Keeps Heap.Retains x

variable {R : Heap → Heap → Prop}

open Mem

section Additive

variable [Heap.Additive R]

namespace Mem

variable {α β : Type}

theorem keeps_read (f : Heap → α) : Mem.Keeps R (read f) :=
  fun h => Std.Refl.refl h

theorem keeps_alloc (c : Cell) : Mem.Keeps R (alloc c) :=
  fun h => Heap.Additive.alloc h c

theorem keeps_allocBlock (slots : Array Ref) : Mem.Keeps R (allocBlock slots) :=
  fun h => Heap.Additive.allocBlock h slots

omit [Heap.Additive R] in
theorem keeps_change {f : Heap → Heap} (hf : ∀ h : Heap, R h (f h)) : Mem.Keeps R (change f) :=
  fun h => hf h

theorem keeps_answer {x : Except Cause α} (hx : x ≠ .error .stackUnderflow) :
    Mem.Keeps R (answer x) := by
  cases x with
  | ok a => exact .pure a
  | error c => exact .throw (Halt.raised_fault.2 fun hc => hx (by rw [hc]))

omit [Heap.Additive R] in
/-- What is read off the heap is known of the heap that the rest starts from. -/
theorem keeps_read_bind {f : Heap → α} {g : α → Mem β}
    (hg : ∀ h, Ends (g (f h)) h (fun _ h' => R h h') fun halt h' => R h h' ∧ halt.Raised) :
    Mem.Keeps R (read f >>= g) :=
  fun h => hg h

/-- A question to the heap whose answer may be a fault. -/
theorem keeps_answer_bind {f : Heap → Except Cause α} {g : α → Mem β}
    (hf : ∀ h, f h ≠ .error .stackUnderflow) (hg : ∀ a, Mem.Keeps R (g a)) :
    Mem.Keeps R (read f >>= fun x => answer x >>= g) :=
  keeps_read_bind fun h => Within.bind (keeps_answer (hf h)) hg h

end Mem

theorem keeps_absent (ty : Ty) : Mem.Keeps R (absent ty) :=
  keeps_alloc _

theorem keeps_nullPointer (target : Ty) : Mem.Keeps R (nullPointer target) :=
  .bind (keeps_allocBlock _) fun _ => keeps_alloc _

theorem keeps_toSlot (r : Ref) : Mem.Keeps R (toSlot r) := by
  refine .bind (keeps_read _) fun c => ?_
  split
  · exact .pure r
  · exact .bind (keeps_read _) fun ty => keeps_alloc _

theorem keeps_slotFor (r : Ref) : Mem.Keeps R (slotFor r) := by
  refine .bind (keeps_read _) fun c => ?_
  split
  · exact .pure r
  · exact keeps_toSlot r

theorem keeps_arrayOfSlots (element : Ty) (slots : List Ref) :
    Mem.Keeps R (arrayOfSlots element slots) :=
  .bind (keeps_allocBlock _) fun _ => keeps_alloc _

theorem keeps_arrayOf (element : Ty) (values : List Ref) : Mem.Keeps R (arrayOf element values) :=
  .bind (.mapM fun r _ => keeps_slotFor r) fun slots => keeps_arrayOfSlots element slots

theorem keeps_toPointer (r : Ref) : Mem.Keeps R (toPointer r) :=
  .bind (keeps_read _) fun _ => .bind (keeps_slotFor r) fun _ =>
    .bind (keeps_allocBlock _) fun _ => keeps_alloc _

/-! ## Copies and casts -/

theorem keeps_copyWithin (fuel : Nat) (r : Ref) : Mem.Keeps R (copyWithin fuel r) := by
  induction fuel generalizing r with
  | zero => exact .pure r
  | succ fuel ih =>
    refine .bind (keeps_read _) fun c => ?_
    split
    · refine .bind (keeps_read _) fun slots => .bind (.mapM fun s _ => ih s) fun copies => ?_
      exact keeps_arrayOfSlots _ copies
    · exact .bind (ih _) fun _ => keeps_alloc _
    · refine .bind (.mapM fun f _ => ?_) fun copies => keeps_alloc _
      exact .bind (ih f.2) fun _ => .pure _
    · exact keeps_alloc c

theorem keeps_copy (r : Ref) : Mem.Keeps R (copy r) :=
  .bind (keeps_read _) fun _ => keeps_copyWithin _ r

theorem keeps_copyForBinding (r : Ref) : Mem.Keeps R (copyForBinding r) := by
  refine .bind (keeps_read _) fun r => .bind (keeps_read _) fun c => ?_
  split
  · exact keeps_alloc _
  · exact keeps_copy r

theorem Heap.casted_ne (h : Heap) (c : Cell) (target : Ty) :
    h.casted c target ≠ .error .stackUnderflow := by
  unfold Heap.casted
  grind

theorem keeps_castTo (r : Ref) (target : Ty) : Mem.Keeps R (castTo r target) := by
  refine keeps_answer_bind (fun h => h.casted_ne _ target) fun x => ?_
  split
  · exact keeps_alloc _
  · exact keeps_nullPointer _

end Additive

/-! ## Assignment -/

section Growth

variable [Heap.Growth R]

theorem keeps_setPlace (r : Ref) (b : BlockRef) (offset : Int64) :
    Mem.Keeps R (setPlace r b offset) :=
  keeps_change fun h => by
    cases hc : h.cell r with
    | pointer p => exact Heap.Growth.setCell (hc ▸ .pointer rfl)
    | _ => exact Std.Refl.refl h

theorem keeps_setContent (r : Ref) (content : Option Ref) : Mem.Keeps R (setContent r content) :=
  keeps_change fun h => by
    cases hc : h.cell r with
    | slot ty old => exact Heap.Growth.setCell (hc ▸ .slot ty old content)
    | _ => exact Std.Refl.refl h

theorem keeps_fill (r : Ref) (declared : Ty) (source : Ref) :
    Mem.Keeps R (fill r declared source) := by
  refine .bind (keeps_read _) fun b => ?_
  dsimp only
  split
  · exact .pure _
  · refine .bind (keeps_copyForBinding source) fun fresh => ?_
    split
    · exact .bind (.pure _) fun _ => keeps_setContent _ _
    · exact .bind (keeps_castTo _ _) fun _ => keeps_setContent _ _
    · exact .bind (keeps_castTo _ _) fun _ => keeps_setContent _ _
    · exact .bind (.pure _) fun _ => keeps_setContent _ _

theorem Heap.update_ne (h : Heap) (target source : Cell) :
    h.update target source ≠ .error .stackUnderflow := by
  unfold Heap.update
  grind

/-- A number is stored into a number, as one of the same kind. -/
theorem Heap.alike_of_update {h : Heap} {target source : Cell} {p : Primitive}
    (hu : h.update target source = .ok (.primitive p)) : target.Alike (.primitive p) := by
  unfold Heap.update at hu
  dsimp only at hu
  split at hu
  · obtain rfl : _ = p := by simpa using hu
    exact .primitive rfl rfl
  · obtain rfl : _ = p := by simpa using hu
    exact .primitive rfl rfl
  · split at hu
    · obtain rfl : _ = p := by simpa using hu
      exact .primitive rfl rfl
    · cases hu
  all_goals grind

theorem keeps_setPrimitive {h : Heap} {r : Ref} {p : Primitive}
    (hp : (h.cell r).Alike (.primitive p)) :
    Ends (setPrimitive r p) h (fun _ h' => R h h') fun halt h' => R h h' ∧ halt.Raised :=
  Heap.Growth.setCell hp

theorem keeps_assignWithin (fuel : Nat) (target source : Ref) :
    Mem.Keeps R (assignWithin fuel target source) := by
  induction fuel generalizing target source with
  | zero => exact .pure _
  | succ fuel ih =>
    refine .bind (keeps_read _) fun source => ?_
    dsimp only
    split
    · exact .pure _
    refine keeps_read_bind fun h => ?_
    split
    · exact ih _ _ h
    · exact keeps_fill _ _ _ h
    · change Ends (answer (h.update (h.cell target) (h.cell source)) >>= _) h _ _
      cases hu : h.update (h.cell target) (h.cell source) with
      | error c => exact ⟨Std.Refl.refl h, Halt.raised_fault.2 fun hc => h.update_ne _ _ (by rw [hu, hc])⟩
      | ok u =>
        cases u with
        | nothing => exact Std.Refl.refl h
        | primitive p => exact keeps_setPrimitive (h.alike_of_update hu)
        | place b offset => exact keeps_setPlace target b offset h
        | null => exact Within.bind (keeps_allocBlock _) (fun b => keeps_setPlace target b 0) h
        | pairs pairs =>
          refine Within.forM (fun f _ => .bind (keeps_read _) fun b => ?_) h
          split
          · exact keeps_setContent _ _
          · exact ih _ _

theorem keeps_assign (target source : Ref) : Mem.Keeps R (assign target source) :=
  .bind (keeps_read _) fun _ => keeps_assignWithin _ target source

/-! ## Releasing and stepping -/

theorem Heap.slotIn_ne (h : Heap) (b : BlockRef) (i : Int64) :
    h.slotIn b i ≠ .error .stackUnderflow := by
  unfold Heap.slotIn
  split <;> simp

theorem Heap.slotOf_ne (h : Heap) (p : Pointer) : h.slotOf p ≠ .error .stackUnderflow := by
  unfold Heap.slotOf
  split
  · simp
  · exact h.slotIn_ne _ _

theorem Heap.getElem?_of_slotOf {h : Heap} {p : Pointer} {r : Ref} (hr : h.slotOf p = .ok r) :
    (h.block p.block)[p.offset.toInt.toNat]? = some r := by
  unfold Heap.slotOf Heap.slotIn slotAt? at hr
  grind

theorem retains_release (p : Pointer) : Mem.Retains (release p) := by
  refine .bind (keeps_read _) fun b => ?_
  split
  · exact .pure _
  refine keeps_read_bind fun h => ?_
  cases hs : h.slotOf p with
  | error c => exact ⟨.refl h, Halt.raised_fault.2 fun hc => h.slotOf_ne p (by rw [hs, hc])⟩
  | ok r =>
    change Ends (match h.cell r with
      | .slot .. => setContent r none
      | _ => do
        let empty ← absent (← read (·.tyOf r))
        change (·.setSlot p.block p.offset.toInt.toNat empty)) h _ _
    split
    · exact keeps_setContent r none h
    · rename_i hc
      exact Heap.Retains.setSlot (Heap.getElem?_of_slotOf hs)
        (Cell.not_isSlot_of fun ty content => hc ty content)

theorem keeps_step (r : Ref) (delta : Int64) : Mem.Keeps R (step r delta) := by
  refine keeps_read_bind fun h => ?_
  cases hc : h.cell r with
  | slot ty content =>
    cases content with
    | none => exact Within.bind (keeps_alloc _) (fun source => keeps_assign r source) h
    | some x => exact ⟨Std.Refl.refl h, by simp⟩
  | primitive p =>
    refine Heap.Growth.setCell (hc ▸ .primitive ?_ ?_)
    all_goals unfold Primitive.stepped Primitive.withPayload Primitive.of; split <;> rfl
  | pointer p => exact Heap.Growth.setCell (hc ▸ .pointer rfl)
  | array | compound => exact ⟨Std.Refl.refl h, by simp⟩

end Growth

/-! ## New values -/

section Additive

variable [Heap.Additive R]

theorem keeps_replicateM {α : Type} {make : Mem α} (hm : Mem.Keeps R make) (n : Nat) :
    Mem.Keeps R (replicateM n make) := by
  induction n with
  | zero => exact .pure _
  | succ n ih => exact .bind hm fun _ => .bind ih fun _ => .pure _

theorem keeps_demandValue (ty : Ty) (o : Option Ref) : Mem.Keeps R (demandValue ty o) := by
  cases o with
  | some r => exact .pure r
  | none => exact .throw (by simp)

theorem keeps_zeroWith {compound : Form → String → Mem Ref}
    (hc : ∀ form name, Mem.Keeps R (compound form name)) (ty : Ty) :
    Mem.Keeps R (zeroWith compound ty) := by
  fun_induction zeroWith compound ty with
  | case1 => exact .pure _
  | case2 => exact .map _ (keeps_alloc _)
  | case3 => exact .map _ (keeps_nullPointer _)
  | case4 element n ih =>
    refine .bind (keeps_replicateM ?_ n) fun values => .map _ (keeps_arrayOf element values)
    exact .bind ih fun o => keeps_demandValue element o
  | case5 => exact .throw (by simp)
  | case6 form name => exact .map _ (hc form name)
  | case7 inner ih => exact ih

theorem keeps_zeroCompound (program : Program) (fuel : Nat) (form : Form) (name : String) :
    Mem.Keeps R (zeroCompound program fuel form name) := by
  induction fuel generalizing form name with
  | zero => exact .throw (by simp)
  | succ fuel ih =>
    have hfields : Mem.Keeps R (do
        let fields ← (program.allFields name).mapM fun f => do
          return (f.name, ← demandValue f.ty (← zeroWith (zeroCompound program fuel) f.ty))
        alloc (.compound (.compound form name) fields)) := by
      refine .bind (.mapM fun f _ => ?_) fun fields => keeps_alloc _
      exact .bind (keeps_zeroWith ih f.ty) fun o => .bind (keeps_demandValue f.ty o) fun _ =>
        .pure _
    unfold zeroCompound
    split
    · exact .bind (.throw (by simp)) fun _ => hfields
    · exact hfields

theorem keeps_createValue (program : Program) (ty : Ty) :
    Mem.Keeps R (createValue program ty) :=
  .bind (keeps_zeroWith (keeps_zeroCompound program _) ty) fun o => keeps_demandValue ty o

theorem keeps_createArray (program : Program) (element : Ty) (sizes : List Nat) :
    Mem.Keeps R (createArray program element sizes) := by
  fun_induction createArray program element sizes with
  | case1 element => exact keeps_createValue program element
  | case2 element size element' _ _ next _ ih =>
    exact .bind (keeps_replicateM ih size) fun values => keeps_arrayOf _ values
  | case3 element size =>
    exact .bind (keeps_replicateM (keeps_createValue program element) size) fun values =>
      keeps_arrayOf _ values

theorem keeps_createString (text : String) : Mem.Keeps R (createString text) := by
  refine .bind (.mapM fun c _ => ?_) fun chars => ?_
  · exact .bind (keeps_alloc _) fun r => keeps_slotFor r
  · exact .bind (keeps_absent _) fun _ => .bind (keeps_allocBlock _) fun _ => keeps_alloc _

/-! ## Operands -/

theorem Heap.truthOf_ne (h : Heap) (r : Ref) : h.truthOf r ≠ .error .stackUnderflow := by
  unfold Heap.truthOf
  split <;> simp

theorem Heap.operand_ne (h : Heap) (r : Ref) : h.operand r ≠ .error .stackUnderflow := by
  unfold Heap.operand
  split <;> simp

theorem bind_ne {α β : Type} {x : Except Cause α} {f : α → Except Cause β}
    (hx : x ≠ .error .stackUnderflow) (hf : ∀ a, f a ≠ .error .stackUnderflow) :
    x >>= f ≠ .error .stackUnderflow := by
  cases x with
  | ok a => exact hf a
  | error c => exact fun hc => hx (by injection hc with hc; rw [hc])

theorem floatingArithmetic_ne (op : BinaryOp) (l r : Float) (kind : Kind) :
    floatingArithmetic op l r kind ≠ .error .stackUnderflow := by
  cases op <;> simp [floatingArithmetic]

theorem integralArithmetic_ne (op : BinaryOp) (unsigned : Bool) (l r : Int64) :
    integralArithmetic op unsigned l r ≠ .error .stackUnderflow := by
  unfold integralArithmetic
  grind

theorem arithmetic_ne (op : BinaryOp) (l r : Primitive) :
    arithmetic op l r ≠ .error .stackUnderflow := by
  have hp : ∀ p : Primitive, (pure p : Except Cause Primitive) ≠ .error .stackUnderflow :=
    fun _ h => by cases h
  unfold arithmetic
  dsimp only
  split
  · refine bind_ne (floatingArithmetic_ne _ _ _ _) fun p => ?_
    split <;> exact hp _
  · refine bind_ne (integralArithmetic_ne _ _ _ _) fun n => ?_
    split
    all_goals
      refine bind_ne (hp _) fun p => ?_
      split <;> exact hp _

theorem nullComparison_ne (h : Heap) (op : BinaryOp) (p : Pointer) :
    nullComparison h op p ≠ .error .stackUnderflow := by
  unfold nullComparison
  grind

theorem pointerPair_ne (h : Heap) (op : BinaryOp) (p q : Pointer) :
    pointerPair h op p q ≠ .error .stackUnderflow := by
  have hn := nullComparison_ne h op
  unfold pointerPair
  grind

theorem pointerAndNumber_ne (h : Heap) (op : BinaryOp) (p : Pointer) (n : Primitive)
    (numberFirst : Bool) : pointerAndNumber h op p n numberFirst ≠ .error .stackUnderflow := by
  have hn := nullComparison_ne h op p
  unfold pointerAndNumber
  grind

theorem numberPair_ne (op : BinaryOp) (l r : Primitive) :
    numberPair op l r ≠ .error .stackUnderflow := by
  unfold numberPair
  have ha := arithmetic_ne op l r
  cases hc : arithmetic op l r with
  | ok p => simp [Except.map]
  | error c => exact fun he => ha (by injection he with he; rw [hc, he])

theorem operate_ne (h : Heap) (op : BinaryOp) (l r : Operand) :
    operate h op l r ≠ .error .stackUnderflow := by
  unfold operate
  split
  · simp
  · simp
  · split
    · exact pointerPair_ne _ _ _ _
    · exact pointerAndNumber_ne _ _ _ _ _
    · exact pointerAndNumber_ne _ _ _ _ _
    · exact nullComparison_ne _ _ _
    · exact nullComparison_ne _ _ _
    all_goals exact numberPair_ne _ _ _

theorem keeps_truthOf (r : Ref) : Mem.Keeps R (truthOf r) :=
  keeps_read_bind fun h => keeps_answer (h.truthOf_ne r) h

theorem keeps_operandOf (r : Ref) : Mem.Keeps R (operandOf r) :=
  keeps_read_bind fun h => keeps_answer (h.operand_ne r) h

theorem keeps_operateOn (op : BinaryOp) (l r : Operand) : Mem.Keeps R (operateOn op l r) := by
  refine keeps_answer_bind (fun h => operate_ne h op l r) fun y => ?_
  cases y with
  | number n => exact keeps_alloc _
  | pointer p => exact keeps_alloc _

theorem keeps_binaryOperation (op : BinaryOp) (l r : Ref) :
    Mem.Keeps R (binaryOperation op l r) :=
  .bind (keeps_operandOf l) fun l => .bind (keeps_operandOf r) fun r => keeps_operateOn op l r

theorem keeps_conform (r : Ref) (declared : Ty) : Mem.Keeps R (conform r declared) := by
  refine .bind (keeps_copyForBinding r) fun bound => .bind (keeps_read _) fun c => ?_
  split
  · exact .pure bound
  · exact keeps_castTo bound declared
  · exact keeps_castTo bound declared
  · exact keeps_castTo bound declared
  · exact keeps_castTo bound declared
  · exact .pure bound

theorem keeps_conformToNode (r : Ref) (ty : Ty) : Mem.Keeps R (conformToNode r ty) := by
  refine .bind (keeps_read _) fun c => ?_
  split
  · exact .pure r
  · split
    · exact .pure r
    · exact keeps_alloc _
  · exact .pure r

end Additive

end Treewalk
