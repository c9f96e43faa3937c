/-
  Heaps whose values have other ids.

  What is evaluated again finds more values than the first time, so that all values
  it makes have other ids.

  * `Relocation`: which id becomes which, their order being kept; `Heap.Relocated ρ h h'`:
    the heap `h'` is `h` with its ids moved by `ρ`, and with more values between them
    that nothing refers to. Whatever is read off a heap is read off the other, moved,
    and so it stays when both are changed alike. Which of two blocks comes first is up to
    the host, and the same in both heaps only if the relocation is ordered;
  * `Relocation.widen`: ids from some on are moved further;
  * `Heap.Sound.relocated`: a sound and anchored heap that only grows is relocated.
-/
import Mathlib.Order.Monotone.Basic
import Treewalk.Eval.Builtin
import Treewalk.Eval.Call
import Treewalk.Eval.Statement
import Treewalk.Proofs.Anchored
import Treewalk.Proofs.Comparison
import Treewalk.Proofs.Sound

namespace Treewalk

/-! ## Ids moved -/

/-- Which id becomes which. -/
structure Relocation where
  cellId : Nat → Nat
  blockId : Nat → Nat
  cells : StrictMono cellId
  blocks : StrictMono blockId
  /-- are the addresses of blocks in the same order, too? -/
  ordered : Prop

/-- Later blocks are put at higher addresses. -/
def Layout.InOrder (l : Layout) : Prop :=
  StrictMono l.address

theorem Layout.inOrder_consecutive : Layout.consecutive.InOrder :=
  strictMono_id

/-- Does the operator ask which of two pointers comes first? -/
def BinaryOp.orders : BinaryOp → Bool
  | lt | le | gt | ge => true
  | _ => false

namespace Relocation

variable (ρ : Relocation)

def ref (r : Ref) : Ref :=
  ⟨ρ.cellId r.id⟩

def block (b : BlockRef) : BlockRef :=
  ⟨ρ.blockId b.id⟩

def pointer (p : Pointer) : Pointer :=
  { p with block := ρ.block p.block }

def cell : Cell → Cell
  | .primitive n => .primitive n
  | .array element b => .array element (ρ.block b)
  | .pointer p => .pointer (ρ.pointer p)
  | .slot ty content => .slot ty (content.map ρ.ref)
  | .compound ty fields => .compound ty (fields.map fun f => (f.1, ρ.ref f.2))

def operand : Operand → Operand
  | .pointer p => .pointer (ρ.pointer p)
  | .number n => .number n
  | .absent => .absent

def yield : Yield → Yield
  | .number n => .number n
  | .pointer p => .pointer (ρ.pointer p)

def casted : Casted → Casted
  | .cell c => .cell (ρ.cell c)
  | .null target => .null target

def update : Update → Update
  | .nothing => .nothing
  | .primitive n => .primitive n
  | .place b offset => .place (ρ.block b) offset
  | .null => .null
  | .pairs pairs => .pairs (pairs.map (Prod.map ρ.ref ρ.ref))

/-- Nothing is moved. -/
def none : Relocation :=
  ⟨id, id, strictMono_id, strictMono_id, True⟩

theorem none_ref (r : Ref) : none.ref r = r :=
  rfl

theorem none_block (b : BlockRef) : none.block b = b :=
  rfl

theorem none_cell (c : Cell) : none.cell c = c := by
  cases c with
  | slot ty content => exact congrArg (Cell.slot ty) Option.map_id_apply
  | compound ty fields => exact congrArg (Cell.compound ty) (List.map_id fields)
  | primitive | array | pointer => rfl

variable {ρ} {r x : Ref} {b c : BlockRef}

theorem ref_inj : ρ.ref r = ρ.ref x ↔ r = x := by
  constructor
  · intro h
    exact Ref.ext_id (ρ.cells.injective (congrArg Ref.id h))
  · rintro rfl
    rfl

theorem block_inj : ρ.block b = ρ.block c ↔ b = c := by
  constructor
  · intro h
    exact BlockRef.ext_id (ρ.blocks.injective (congrArg BlockRef.id h))
  · rintro rfl
    rfl

/-! ## Gaps -/

theorem strictMono_add_from {f : Nat → Nat} (hf : StrictMono f) (first k : Nat) :
    StrictMono fun i => if i < first then f i else f i + k := by
  intro i j hij
  have hlt := hf hij
  dsimp only
  split <;> split <;> omega

/-- Ids from `firstCell` and `firstBlock` on are moved further, by `cells` and `blocks`.
    Where blocks are, their addresses may be in another order. -/
def widen (ρ : Relocation) (firstCell firstBlock cells blocks : Nat) : Relocation where
  cellId := fun i => if i < firstCell then ρ.cellId i else ρ.cellId i + cells
  blockId := fun i => if i < firstBlock then ρ.blockId i else ρ.blockId i + blocks
  cells := strictMono_add_from ρ.cells firstCell cells
  blocks := strictMono_add_from ρ.blocks firstBlock blocks
  ordered := ρ.ordered ∧ blocks = 0

/-- The same, known to keep the order of addresses. -/
def inOrder (ρ : Relocation) : Relocation :=
  { ρ with ordered := True }

variable {i j k l : Nat}

theorem widen_ref_of_lt (hr : r.id < i) : (ρ.widen i j k l).ref r = ρ.ref r :=
  Ref.ext_id (if_pos hr)

theorem widen_block_of_lt (hb : b.id < j) : (ρ.widen i j k l).block b = ρ.block b :=
  BlockRef.ext_id (if_pos hb)

theorem widen_ref_id_of_le (hr : i ≤ r.id) : ((ρ.widen i j k l).ref r).id = ρ.cellId r.id + k :=
  if_neg (Nat.not_lt.2 hr)

theorem widen_block_id_of_le (hb : j ≤ b.id) : ((ρ.widen i j k l).block b).id = ρ.blockId b.id + l :=
  if_neg (Nat.not_lt.2 hb)

theorem widen_block (ρ : Relocation) (i j k : Nat) (b : BlockRef) : (ρ.widen i j k 0).block b = ρ.block b :=
  BlockRef.ext_id (ite_self _)

theorem ref_of_lt (hr : r.id < i) : (none.widen i j k l).ref r = r :=
  widen_ref_of_lt hr

theorem block_of_lt (hb : b.id < j) : (none.widen i j k l).block b = b :=
  widen_block_of_lt hb

theorem block_id_of_le (hb : j ≤ b.id) : ((none.widen i j k l).block b).id = b.id + l :=
  widen_block_id_of_le hb

end Relocation

theorem slotAt?_map (slots : Array Ref) (f : Ref → Ref) (i : Int64) :
    slotAt? (slots.map f) i = (slotAt? slots i).map f := by
  unfold slotAt?
  split
  · rfl
  · exact Array.getElem?_map

theorem Dict.find?_map {α β : Type} (g : α → β) (k : String) (l : List (String × α)) :
    Dict.find? k (l.map fun f => (f.1, g f.2)) = (Dict.find? k l).map g := by
  induction l with
  | nil => rfl
  | cons f l ih =>
    simp only [List.map_cons, Dict.find?]
    split
    · rfl
    · exact ih

/-! ## Heaps -/

/-- The second heap is the first with its ids moved: what stood at an id stands where it
    was moved to, and ids that are not used yet are moved up together. -/
structure Heap.Relocated (ρ : Relocation) (h h' : Heap) : Prop where
  layout : h'.layout = h.layout
  order : ρ.ordered → ∀ i j, h.layout.address (ρ.blockId i) < h.layout.address (ρ.blockId j) ↔
    h.layout.address i < h.layout.address j
  newCell : ∀ k, ρ.cellId (h.cells.size + k) = h'.cells.size + k
  newBlock : ∀ k, ρ.blockId (h.blocks.size + k) = h'.blocks.size + k
  cell : ∀ r, h'.cell (ρ.ref r) = ρ.cell (h.cell r)
  block : ∀ b, h'.block (ρ.block b) = (h.block b).map ρ.ref

namespace Heap.Relocated

variable {ρ : Relocation} {h h' : Heap} (hh : h.Relocated ρ h')
include hh

theorem ref_new : ρ.ref ⟨h.cells.size⟩ = ⟨h'.cells.size⟩ :=
  Ref.ext_id (hh.newCell 0)

theorem block_new : ρ.block ⟨h.blocks.size⟩ = ⟨h'.blocks.size⟩ :=
  BlockRef.ext_id (hh.newBlock 0)

theorem ref_id_eq (r : Ref) : (ρ.ref r).id = h'.cells.size ↔ r.id = h.cells.size := by
  rw [← Nat.add_zero h'.cells.size, ← hh.newCell 0]
  exact ρ.cells.injective.eq_iff

theorem ref_id_lt (r : Ref) : (ρ.ref r).id < h'.cells.size ↔ r.id < h.cells.size := by
  rw [← Nat.add_zero h'.cells.size, ← hh.newCell 0]
  exact ρ.cells.lt_iff_lt

theorem block_id_eq (b : BlockRef) : (ρ.block b).id = h'.blocks.size ↔ b.id = h.blocks.size := by
  rw [← Nat.add_zero h'.blocks.size, ← hh.newBlock 0]
  exact ρ.blocks.injective.eq_iff

theorem block_id_lt (b : BlockRef) : (ρ.block b).id < h'.blocks.size ↔ b.id < h.blocks.size := by
  rw [← Nat.add_zero h'.blocks.size, ← hh.newBlock 0]
  exact ρ.blocks.lt_iff_lt

theorem cells_le : h.cells.size ≤ h'.cells.size := by
  rw [← Nat.add_zero h'.cells.size, ← hh.newCell 0]
  exact ρ.cells.le_apply

/-! ## Changes -/

theorem alloc (c : Cell) : (h.alloc c).2.Relocated ρ (h'.alloc (ρ.cell c)).2 where
  layout := hh.layout
  order := hh.order
  newCell := fun k => by
    rw [cells_size_alloc, cells_size_alloc, Nat.add_assoc, Nat.add_assoc]
    exact hh.newCell (1 + k)
  newBlock := hh.newBlock
  cell := fun r => by
    simp only [cell_alloc, hh.ref_id_eq]
    split
    · rfl
    · exact hh.cell r
  block := hh.block

theorem allocBlock (slots : Array Ref) :
    (h.allocBlock slots).2.Relocated ρ (h'.allocBlock (slots.map ρ.ref)).2 where
  layout := hh.layout
  order := hh.order
  newCell := hh.newCell
  newBlock := fun k => by
    rw [blocks_size_allocBlock, blocks_size_allocBlock, Nat.add_assoc, Nat.add_assoc]
    exact hh.newBlock (1 + k)
  cell := hh.cell
  block := fun b => by
    simp only [block_allocBlock, hh.block_id_eq]
    split
    · rfl
    · exact hh.block b

theorem setCell (r : Ref) (c : Cell) : (h.setCell r c).Relocated ρ (h'.setCell (ρ.ref r) (ρ.cell c)) where
  layout := hh.layout
  order := hh.order
  newCell := fun k => by
    rw [cells_size_setCell, cells_size_setCell]
    exact hh.newCell k
  newBlock := hh.newBlock
  cell := fun x => by
    simp only [cell_setCell, Relocation.ref_inj, hh.ref_id_lt]
    split
    · rfl
    · exact hh.cell x
  block := hh.block

theorem setSlot (b : BlockRef) (i : Nat) (r : Ref) :
    (h.setSlot b i r).Relocated ρ (h'.setSlot (ρ.block b) i (ρ.ref r)) where
  layout := hh.layout
  order := hh.order
  newCell := hh.newCell
  newBlock := fun k => by
    rw [blocks_size_setSlot, blocks_size_setSlot]
    exact hh.newBlock k
  cell := hh.cell
  block := fun b' => by
    simp only [block_setSlot, Relocation.block_inj]
    split
    · rw [hh.block, Array.map_setIfInBounds]
    · exact hh.block b'

/-! ## Reading -/

theorem flatten (r : Ref) : h'.flatten (ρ.ref r) = ρ.ref (h.flatten r) := by
  unfold Heap.flatten
  rw [hh.cell]
  cases h.cell r with
  | slot ty content => cases content <;> rfl
  | primitive | array | pointer | compound => rfl

theorem isAbsent (r : Ref) : h'.isAbsent (ρ.ref r) = h.isAbsent r := by
  unfold Heap.isAbsent
  rw [hh.cell]
  cases h.cell r with
  | slot ty content => cases content <;> rfl
  | primitive | array | pointer | compound => rfl

theorem variant (r : Ref) : (h'.cell (ρ.ref r)).variant = (h.cell r).variant := by
  rw [hh.cell]
  cases h.cell r <;> rfl

theorem blockSize (b : BlockRef) : h'.blockSize (ρ.block b) = h.blockSize b := by
  unfold Heap.blockSize
  rw [hh.block, Array.size_map]

theorem slotIn (b : BlockRef) (i : Int64) : h'.slotIn (ρ.block b) i = (h.slotIn b i).map ρ.ref := by
  unfold Heap.slotIn
  rw [hh.block, slotAt?_map, hh.blockSize]
  cases slotAt? (h.block b) i <;> rfl

theorem hasNoStorage (p : Pointer) : h'.hasNoStorage (ρ.pointer p) = h.hasNoStorage p :=
  congrArg (· == 0) (hh.blockSize p.block)

theorem isNull (p : Pointer) : h'.isNull (ρ.pointer p) = h.isNull p := by
  unfold Heap.isNull
  rw [hh.hasNoStorage]
  simp only [Relocation.pointer, hh.block, slotAt?_map]
  cases slotAt? (h.block p.block) p.offset with
  | none => rfl
  | some r => exact congrArg (h.hasNoStorage p || ·) (hh.isAbsent r)

theorem slotOf (p : Pointer) : h'.slotOf (ρ.pointer p) = (h.slotOf p).map ρ.ref := by
  unfold Heap.slotOf
  rw [hh.hasNoStorage]
  split
  · rfl
  · exact hh.slotIn p.block p.offset

theorem sameTarget (p q : Pointer) : h'.sameTarget (ρ.pointer p) (ρ.pointer q) = h.sameTarget p q := by
  have hblock : (ρ.block p.block == ρ.block q.block) = (p.block == q.block) := by
    rw [Bool.eq_iff_iff, beq_iff_eq, beq_iff_eq, Relocation.block_inj]
  unfold Heap.sameTarget
  rw [hh.hasNoStorage, hh.hasNoStorage]
  cases h.hasNoStorage p <;> cases h.hasNoStorage q
  · exact congrArg (· && p.offset == q.offset) hblock
  all_goals rfl

/-- An ordered relocation keeps the order of addresses. -/
theorem compare_address (hρ : ρ.ordered) (i j : Nat) :
    compare (h'.layout.address (ρ.blockId i) + 1) (h'.layout.address (ρ.blockId j) + 1) =
      compare (h.layout.address i + 1) (h.layout.address j + 1) := by
  have heq : h.layout.address (ρ.blockId i) = h.layout.address (ρ.blockId j) ↔
      h.layout.address i = h.layout.address j :=
    ⟨fun ha => congrArg _ (ρ.blocks.injective (h.layout.address_inj ha)),
      fun ha => congrArg (fun i => h.layout.address (ρ.blockId i)) (h.layout.address_inj ha)⟩
  simp only [hh.layout, compare, compareOfLessAndEq, Nat.add_lt_add_iff_right, Nat.add_right_cancel_iff,
    hh.order hρ, heq]

theorem compares (hρ : ρ.ordered) (p q : Pointer) : h'.order (ρ.pointer p) (ρ.pointer q) = h.order p q := by
  unfold Heap.order Heap.addressOf
  rw [hh.hasNoStorage, hh.hasNoStorage]
  cases h.hasNoStorage p <;> cases h.hasNoStorage q
  · exact congrArg (·.then (compare p.offset q.offset)) (hh.compare_address hρ p.block.id q.block.id)
  · rfl
  · rfl
  · rfl

theorem cellTy (c : Cell) : h'.cellTy (ρ.cell c) = h.cellTy c := by
  cases c with
  | array element b => exact congrArg (fun n => Ty.array element (some n)) (hh.blockSize b)
  | primitive | pointer | slot | compound => rfl

theorem tyOf (r : Ref) : h'.tyOf (ρ.ref r) = h.tyOf r := by
  unfold Heap.tyOf
  rw [hh.flatten, hh.cell, hh.cellTy]

theorem primitive? (r : Ref) : h'.primitive? (ρ.ref r) = h.primitive? r := by
  unfold Heap.primitive?
  rw [hh.flatten, hh.cell]
  cases h.cell (h.flatten r) <;> rfl

theorem pointer? (r : Ref) : h'.pointer? (ρ.ref r) = (h.pointer? r).map ρ.pointer := by
  unfold Heap.pointer?
  rw [hh.flatten, hh.cell]
  cases h.cell (h.flatten r) <;> rfl

theorem field? (r : Ref) (name : String) : h'.field? (ρ.ref r) name = (h.field? r name).map ρ.ref := by
  unfold Heap.field?
  rw [hh.flatten, hh.cell]
  cases h.cell (h.flatten r) with
  | compound ty fields => exact Dict.find?_map ρ.ref name fields
  | primitive | array | pointer | slot => rfl

theorem truthOf (r : Ref) : h'.truthOf (ρ.ref r) = h.truthOf r := by
  unfold Heap.truthOf
  rw [hh.flatten, hh.cell]
  cases h.cell (h.flatten r) with
  | pointer p => exact congrArg (fun b => Except.ok (!b)) (hh.isNull p)
  | primitive | array | slot | compound => rfl

theorem operand (r : Ref) : h'.operand (ρ.ref r) = (h.operand r).map ρ.operand := by
  unfold Heap.operand
  rw [hh.flatten, hh.cell]
  cases h.cell (h.flatten r) <;> rfl

theorem promoted (r : Ref) : h'.promoted (ρ.ref r) = h.promoted r := by
  unfold Heap.promoted
  rw [hh.primitive?, hh.isAbsent, hh.variant]

theorem signed (op : UnaryOp) (r : Ref) : Eval.signed op h' (ρ.ref r) = Eval.signed op h r := by
  unfold Eval.signed
  rw [hh.truthOf, hh.promoted]

theorem indexOf (r : Ref) : h'.indexOf (ρ.ref r) = h.indexOf r := by
  unfold Heap.indexOf
  rw [hh.primitive?, hh.isAbsent, hh.variant]

theorem element (r : Ref) (i : Int64) : h'.element (ρ.ref r) i = (h.element r i).map ρ.ref := by
  unfold Heap.element
  rw [hh.cell]
  cases h.cell r with
  | array ty b => exact hh.slotIn b i
  | pointer p => exact hh.slotOf (p.moved i)
  | primitive | slot | compound => rfl

theorem referent (r : Ref) : h'.referent (ρ.ref r) = (h.referent r).map ρ.ref := by
  unfold Heap.referent
  rw [hh.cell]
  cases h.cell r with
  | array ty b => exact hh.slotIn b 0
  | pointer p => exact hh.slotOf p
  | primitive n =>
    simp only [Relocation.cell]
    split <;> rfl
  | slot | compound => rfl

theorem elementAddress (r : Ref) (i : Int64) :
    h'.elementAddress (ρ.ref r) i = (h.elementAddress r i).map ρ.pointer := by
  unfold Heap.elementAddress
  rw [hh.pointer?, hh.variant]
  cases h.pointer? r with
  | none => rfl
  | some base =>
    have hsize : h'.blockSize ((ρ.pointer base).moved i).block = h.blockSize (base.moved i).block :=
      hh.blockSize base.block
    dsimp only [Option.map]
    rw [hsize, apply_ite (Except.map ρ.pointer)]
    rfl

theorem fieldOwner (r : Ref) (name : String) :
    h'.fieldOwner (ρ.ref r) name = (h.fieldOwner r name).map ρ.ref := by
  unfold Heap.fieldOwner
  rw [hh.cell]
  cases h.cell r with
  | pointer p =>
    simp only [Relocation.cell, hh.isNull, hh.slotOf]
    split
    · rfl
    · cases h.slotOf p with
      | ok s => exact congrArg Except.ok (hh.flatten s)
      | error => rfl
  | primitive | array | slot | compound => rfl

theorem fieldOf (r : Ref) (name : String) : h'.fieldOf (ρ.ref r) name = (h.fieldOf r name).map ρ.ref := by
  unfold Heap.fieldOf
  rw [hh.fieldOwner]
  cases h.fieldOwner r name with
  | error => rfl
  | ok object =>
    simp only [Except.map, bind, Except.bind, hh.field?, hh.tyOf]
    cases h.field? object name <;> rfl

theorem casted (c : Cell) (ty : Ty) : h'.casted (ρ.cell c) ty = (h.casted c ty).map ρ.casted := by
  unfold Heap.casted
  rw [hh.cellTy]
  cases c with
  | primitive n =>
    cases ty.unqualified with
    | primitive k u => cases k <;> rfl
    | pointer t =>
      simp only [Relocation.cell]
      split <;> rfl
    | array | compound | const => rfl
  | pointer p =>
    cases ty.unqualified with
    | primitive k u =>
      cases k with
      | void => rfl
      | char | short | int | long | float | double =>
        simp only [Relocation.cell, hh.isNull]
        rw [apply_ite (Except.map _)]
        rfl
    | pointer | array | compound | const => rfl
  | slot ty' content =>
    cases ty.unqualified with
    | primitive k u => cases k <;> rfl
    | pointer | array | compound | const => rfl
  | array | compound =>
    cases ty.unqualified with
    | primitive k u => cases k <;> rfl
    | pointer | array | compound | const => rfl

/-! ## Operators -/

theorem truth (o : Operand) : (ρ.operand o).truth h' = o.truth h := by
  cases o with
  | pointer p => exact congrArg not (hh.isNull p)
  | number | absent => rfl

theorem nullComparison (op : BinaryOp) (p : Pointer) :
    Treewalk.nullComparison h' op (ρ.pointer p) = (Treewalk.nullComparison h op p).map ρ.yield := by
  unfold Treewalk.nullComparison
  rw [hh.isNull]
  split
  · rfl
  · rfl
  · rw [apply_ite (Except.map ρ.yield)]
    rfl

theorem pointerPair {op : BinaryOp} (hop : op.orders → ρ.ordered) (p q : Pointer) :
    Treewalk.pointerPair h' op (ρ.pointer p) (ρ.pointer q) = (Treewalk.pointerPair h op p q).map ρ.yield := by
  unfold Treewalk.pointerPair
  cases op with
  | eq | ne =>
    simp only [hh.hasNoStorage, hh.sameTarget, hh.nullComparison, apply_ite (Except.map ρ.yield)]
    rfl
  | lt | le | gt | ge =>
    simp only [hh.compares (hop rfl), apply_ite (Except.map ρ.yield)]
    rfl
  | _ => rfl

theorem pointerAndNumber (op : BinaryOp) (p : Pointer) (n : Primitive) (first : Bool) :
    Treewalk.pointerAndNumber h' op (ρ.pointer p) n first =
      (Treewalk.pointerAndNumber h op p n first).map ρ.yield := by
  unfold Treewalk.pointerAndNumber
  rw [hh.nullComparison]
  simp only [apply_ite (Except.map ρ.yield)]
  split
  · rfl
  · split
    · rfl
    · split <;> rfl

omit hh in
theorem yield_number (x : Except Cause Primitive) : (x.map .number).map ρ.yield = x.map .number := by
  cases x <;> rfl

theorem operate {op : BinaryOp} (hord : op.orders → ρ.ordered) (l r : Operand) :
    Treewalk.operate h' op (ρ.operand l) (ρ.operand r) = (Treewalk.operate h op l r).map ρ.yield := by
  cases hop : op.isLogical with
  | true =>
    cases op with
    | and | or =>
      unfold Treewalk.operate
      rw [hh.truth, hh.truth]
      rfl
    | _ => cases hop
  | false =>
    cases l <;> cases r <;>
      simp only [Relocation.operand, operate_pointers _ hop, operate_pointer_number _ hop,
        operate_number_pointer _ hop, operate_pointer_absent _ hop, operate_absent_pointer _ hop,
        operate_number_absent _ hop, operate_absent_number _ hop, operate_absent _ hop,
        Mem.operate_numbers _ hop, hh.pointerPair hord, hh.pointerAndNumber, hh.nullComparison, numberPair, yield_number]

/-! ## Calls, storing and printing -/

theorem remaining (p : Pointer) : h'.remaining (ρ.pointer p) = (h.remaining p).map ρ.ref := by
  unfold Heap.remaining
  simp only [Relocation.pointer, hh.block, Array.toList_map, List.map_drop, apply_ite (List.map ρ.ref)]
  rfl

omit hh in
theorem fieldPairs?_map (fs gs : List (String × Ref)) :
    fieldPairs? (fs.map fun f => (f.1, ρ.ref f.2)) (gs.map fun f => (f.1, ρ.ref f.2)) =
      (fieldPairs? fs gs).map (List.map (Prod.map ρ.ref ρ.ref)) := by
  unfold fieldPairs?
  induction fs with
  | nil => rfl
  | cons f fs ih =>
    rw [List.map_cons, List.mapM_cons, List.mapM_cons, ih, Dict.find?_map]
    cases Dict.find? f.1 gs with
    | none => rfl
    | some x => cases List.mapM (fun f => (Dict.find? f.1 gs).map (f.2, ·)) fs <;> rfl

omit hh in
theorem zip_map (as bs : List Ref) :
    (as.map ρ.ref).zip (bs.map ρ.ref) = (as.zip bs).map (Prod.map ρ.ref ρ.ref) :=
  List.zip_map ..

theorem update (c d : Cell) : h'.update (ρ.cell c) (ρ.cell d) = (h.update c d).map ρ.update := by
  unfold Heap.update
  rw [hh.cellTy, hh.cellTy]
  cases c with
  | primitive t =>
    cases d with
    | pointer p =>
      simp only [Relocation.cell, hh.isNull, apply_ite (Except.map ρ.update)]
      rfl
    | primitive | slot | array | compound => rfl
  | pointer t =>
    cases d with
    | primitive s =>
      simp only [Relocation.cell, apply_ite (Except.map ρ.update)]
      rfl
    | pointer | slot | array | compound => rfl
  | array ty b =>
    cases d with
    | array ty' c =>
      simp only [Relocation.cell, Relocation.block_inj, hh.block, Array.toList_map, zip_map,
        apply_ite (Except.map ρ.update)]
      rfl
    | pointer p =>
      simp only [Relocation.cell, hh.block, hh.remaining, Array.toList_map, zip_map]
      rfl
    | primitive | slot | compound => rfl
  | compound ty fs =>
    cases d with
    | compound ty' gs =>
      simp only [Relocation.cell, fieldPairs?_map]
      cases fieldPairs? fs gs <;> rfl
    | primitive | slot | array | pointer => rfl
  | slot => cases d <;> rfl

theorem initialSlots? (r : Ref) :
    Eval.initialSlots? h' (ρ.ref r) = (Eval.initialSlots? h r).map (List.map ρ.ref) := by
  unfold Eval.initialSlots?
  rw [hh.flatten, hh.cell]
  cases h.cell (h.flatten r) with
  | array ty b => exact congrArg some ((congrArg Array.toList (hh.block b)).trans Array.toList_map)
  | pointer p => exact congrArg some (hh.remaining p)
  | primitive | slot | compound => rfl

theorem objectOf (r : Ref) : Eval.objectOf h' (ρ.ref r) = (Eval.objectOf h r).map ρ.ref := by
  unfold Eval.objectOf
  rw [hh.cell]
  cases h.cell r with
  | pointer p =>
    simp only [Relocation.cell, hh.isNull, hh.slotOf]
    split
    · rfl
    · cases h.slotOf p with
      | ok s => exact congrArg Except.ok (hh.flatten s)
      | error => rfl
  | primitive | array | slot | compound => rfl

theorem classOf (r : Ref) : Eval.classOf h' (ρ.ref r) = Eval.classOf h r := by
  unfold Eval.classOf
  rw [hh.cell]
  cases h.cell r with
  | compound ty => cases ty <;> rfl
  | primitive | array | pointer | slot => rfl

theorem released (r : Ref) : Eval.released h' (ρ.ref r) = (Eval.released h r).map (Option.map ρ.pointer) := by
  unfold Eval.released
  rw [hh.cell]
  cases h.cell r with
  | primitive n =>
    simp only [Relocation.cell, apply_ite (Except.map (Option.map ρ.pointer))]
    rfl
  | array | pointer | slot | compound => rfl

theorem renderSlots (done : Array UInt8) (slots : List Ref) :
    h'.renderSlots done (slots.map ρ.ref) = h.renderSlots done slots := by
  fun_induction Heap.renderSlots h done slots with
  | case1 => rfl
  | case2 done r rest hr =>
    rw [List.map_cons, Heap.renderSlots.eq_def]
    simp only [hh.primitive?, hr]
  | case3 done r p hr hp =>
    simp only [List.map_cons, List.map_nil, Heap.renderSlots, hh.primitive?, hr, if_pos hp]
  | case4 done r p hr hp r' rest hr' =>
    simp only [List.map_cons, Heap.renderSlots, hh.primitive?, hr, if_pos hp, hr']
  | case5 done r p hr hp r' rest q hr' ih =>
    simp only [List.map_cons, Heap.renderSlots, hh.primitive?, hr, if_pos hp, hr', ih]
  | case6 done r rest p hr hp ih =>
    rw [List.map_cons, Heap.renderSlots.eq_def]
    simp only [hh.primitive?, hr, if_neg hp, ih]

theorem render (p : Pointer) : h'.render (ρ.pointer p) = h.render p := by
  unfold Heap.render
  rw [hh.slotOf, hh.remaining, hh.renderSlots]
  have hsize : h'.blockSize (ρ.pointer p).block = h.blockSize p.block := hh.blockSize p.block
  rw [hsize]
  cases h.slotOf p <;> rfl

end Heap.Relocated

/-! ## Heaps that grow -/

namespace Heap

variable {h h' h'' : Heap}

theorem Relocated.refl (h : Heap) : h.Relocated .none h where
  layout := rfl
  order := fun _ _ _ => Iff.rfl
  newCell := fun _ => rfl
  newBlock := fun _ => rfl
  cell := fun r => (Relocation.none_cell (h.cell r)).symm
  block := fun b => (Array.map_id (h.block b)).symm

/-- If nothing is moved the heaps are the same. -/
theorem Relocated.eq (hh : h.Relocated .none h') : h' = h := by
  have hcells : h'.cells = h.cells := by
    refine Array.ext (hh.newCell 0).symm fun i hi hi' => ?_
    have hcell := (hh.cell ⟨i⟩).trans (Relocation.none_cell _)
    unfold Heap.cell at hcell
    simpa [Relocation.none_ref, hi, hi'] using hcell
  have hblocks : h'.blocks = h.blocks := by
    refine Array.ext (hh.newBlock 0).symm fun i hi hi' => ?_
    have hblock := (hh.block ⟨i⟩).trans (Array.map_id _)
    unfold Heap.block at hblock
    simpa [Relocation.none_block, hi, hi'] using hblock
  have hlayout := hh.layout
  cases h
  cases h'
  cases hcells
  cases hblocks
  cases hlayout
  rfl

/-- Where blocks are laid out as they are made, every relocation is ordered. -/
theorem Relocated.inOrder {ρ : Relocation} (hh : h.Relocated ρ h') (hl : h.layout.InOrder) :
    h.Relocated ρ.inOrder h' :=
  { hh with
    order := fun _ _ _ => (hl.lt_iff_lt.trans ρ.blocks.lt_iff_lt).trans hl.lt_iff_lt.symm }

theorem Relocated.of_inOrder {ρ : Relocation} (hh : h.Relocated ρ.inOrder h') : h.Relocated ρ h' :=
  { hh with
    order := fun _ => hh.order trivial }

/-- The gap between what was there and what is made when there is more. -/
def gap (h h' : Heap) : Relocation :=
  Relocation.none.widen h.cells.size h.blocks.size (h'.cells.size - h.cells.size)
    (h'.blocks.size - h.blocks.size)

/-- If what a cell refers to is moved alike, so is the cell. -/
theorem Sound.cell_congr (hs : h.Sound) {ρ σ : Relocation} {r : Ref}
    (href : ∀ x, x.id < h.cells.size → σ.ref x = ρ.ref x)
    (harray : ∀ element b, h.cell r = .array element b → σ.block b = ρ.block b)
    (hpointer : ∀ p, h.cell r = .pointer p → σ.block p.block = ρ.block p.block) :
    σ.cell (h.cell r) = ρ.cell (h.cell r) := by
  have hpart (x : Ref) (hx : x ∈ h.parts r) : σ.ref x = ρ.ref x := href x (hs.part_lt r x hx)
  cases hc : h.cell r with
  | primitive => rfl
  | array element b => exact congrArg (Cell.array element) (harray element b hc)
  | pointer p => exact congrArg (fun b => Cell.pointer { p with block := b }) (hpointer p hc)
  | slot ty content =>
    cases content with
    | none => rfl
    | some x =>
      have hx : x ∈ h.parts r := by
        rw [parts_of_cell hc]
        exact List.mem_singleton_self x
      exact congrArg (fun x => Cell.slot ty (some x)) (hpart x hx)
  | compound ty fields =>
    refine congrArg (Cell.compound ty) (List.map_congr_left fun f hf => ?_)
    have hf : f.2 ∈ h.parts r := by
      rw [parts_of_cell hc]
      exact List.mem_map_of_mem hf
    rw [hpart f.2 hf]

/-- When the second heap grows, what the first makes from then on is moved further. What the
    cells of the first refer to is not. -/
theorem Relocated.widen_of_cell {ρ : Relocation} (hh : h.Relocated ρ h') (hs : h.Sound) (hadds : h'.Adds h'')
    (hcell : ∀ r, (ρ.widen h.cells.size h.blocks.size (h''.cells.size - h'.cells.size)
      (h''.blocks.size - h'.blocks.size)).cell (h.cell r) = ρ.cell (h.cell r)) :
    h.Relocated (ρ.widen h.cells.size h.blocks.size (h''.cells.size - h'.cells.size)
      (h''.blocks.size - h'.blocks.size)) h'' where
  layout := hadds.layout.trans hh.layout
  order := fun hordered i j => by
    have hblock (i : Nat) : (ρ.widen h.cells.size h.blocks.size (h''.cells.size - h'.cells.size)
        (h''.blocks.size - h'.blocks.size)).blockId i = ρ.blockId i := by
      rw [hordered.2]
      exact ite_self _
    rw [hblock, hblock]
    exact hh.order hordered.1 i j
  newCell := fun k => by
    have hle := hadds.cells_le
    change (if h.cells.size + k < h.cells.size then _ else ρ.cellId (h.cells.size + k) + _) = _
    rw [if_neg (by omega), hh.newCell]
    omega
  newBlock := fun k => by
    have hle := hadds.blocks_le
    change (if h.blocks.size + k < h.blocks.size then _ else ρ.blockId (h.blocks.size + k) + _) = _
    rw [if_neg (by omega), hh.newBlock]
    omega
  cell := fun r => by
    rw [hcell]
    rcases Nat.lt_or_ge r.id h.cells.size with hr | hr
    · rw [Relocation.widen_ref_of_lt hr, hadds.cell _ ((hh.ref_id_lt r).2 hr), hh.cell]
    · obtain ⟨k, hk⟩ := Nat.exists_eq_add_of_le hr
      rw [cell_of_le hr]
      refine cell_of_le ?_
      rw [Relocation.widen_ref_id_of_le hr, hk, hh.newCell]
      omega
  block := fun b => by
    rcases Nat.lt_or_ge b.id h.blocks.size with hb | hb
    · rw [Relocation.widen_block_of_lt hb, hadds.block _ ((hh.block_id_lt b).2 hb), hh.block]
      exact Array.map_congr_left fun x hx => (Relocation.widen_ref_of_lt (hs.entry_lt hx)).symm
    · obtain ⟨k, hk⟩ := Nat.exists_eq_add_of_le hb
      rw [block_of_le hb, Array.map_empty]
      refine block_of_le ?_
      rw [Relocation.widen_block_id_of_le hb, hk, hh.newBlock]
      omega

/-- In an anchored heap nothing refers to blocks that are not there yet. -/
theorem Relocated.widen {ρ : Relocation} (hh : h.Relocated ρ h') (hs : h.Sound) (ha : h.Anchored)
    (hadds : h'.Adds h'') :
    h.Relocated (ρ.widen h.cells.size h.blocks.size (h''.cells.size - h'.cells.size)
      (h''.blocks.size - h'.blocks.size)) h'' :=
  hh.widen_of_cell hs hadds fun _ => hs.cell_congr (fun _ hx => Relocation.widen_ref_of_lt hx)
    (fun _ _ hc => Relocation.widen_block_of_lt (ha.array hc))
    fun _ hc => Relocation.widen_block_of_lt (ha.pointer hc)

/-- If only cells were added, all blocks are where they were. -/
theorem Relocated.widen_of_blocks {ρ : Relocation} (hh : h.Relocated ρ h') (hs : h.Sound) (hadds : h'.Adds h'')
    (hblocks : h''.blocks.size = h'.blocks.size) :
    h.Relocated (ρ.widen h.cells.size h.blocks.size (h''.cells.size - h'.cells.size)
      (h''.blocks.size - h'.blocks.size)) h'' := by
  refine hh.widen_of_cell hs hadds fun _ => hs.cell_congr (fun _ hx => Relocation.widen_ref_of_lt hx) ?_ ?_
  all_goals
    intros
    rw [hblocks, Nat.sub_self, Relocation.widen_block]

/-- A heap that has grown is the heap before with a gap. -/
theorem Sound.relocated (hs : h.Sound) (ha : h.Anchored) (hadds : h.Adds h') : h.Relocated (h.gap h') h' :=
  (Relocated.refl h).widen hs ha hadds

theorem Sound.relocated_of_blocks (hs : h.Sound) (hadds : h.Adds h') (hblocks : h'.blocks.size = h.blocks.size) :
    h.Relocated (h.gap h') h' :=
  (Relocated.refl h).widen_of_blocks hs hadds hblocks

theorem gap_block (hblocks : h'.blocks.size = h.blocks.size) (b : BlockRef) : (h.gap h').block b = b := by
  rw [gap, hblocks, Nat.sub_self, Relocation.widen_block]
  rfl

end Heap

end Treewalk
