/-
  The blocks of arrays and pointers are there.

  * `Cell.Anchored n c`: if the cell is an array or a pointer, its block is one of the
    first `n`; `Heap.Anchored h`: all cells of the heap are so, for the blocks it has;
  * `Mem.Anchors n x V`: from an anchored heap with at least `n` blocks, the operation
    leaves an anchored heap with no fewer blocks however it ends, and gives a result
    that is valid, in the sense of `V`, for the number of blocks there then are;
  * one lemma for each operation: what they put into cells are new blocks, and blocks
    of cells that they have read.
-/
import Treewalk.Proofs.Safe

namespace Treewalk

/-- The block that a cell leads into, if it does lead into one. -/
def Cell.block? : Cell → Option BlockRef
  | .array _ b => some b
  | .pointer p => some p.block
  | _ => none

/-- The block of the cell is one of the first `n`. -/
def Cell.Anchored (n : Nat) (c : Cell) : Prop :=
  ∀ b ∈ c.block?, b.id < n

namespace Cell.Anchored

variable {n n' : Nat} {p : Pointer}

theorem of_none {c : Cell} (hc : c.block? = none) : c.Anchored n := by
  intro b hb
  rw [hc] at hb
  cases hb

theorem mono {c : Cell} (hc : c.Anchored n) (hn : n ≤ n') : c.Anchored n' :=
  fun b hb => Nat.lt_of_lt_of_le (hc b hb) hn

theorem array {element : Ty} {b : BlockRef} (hb : b.id < n) : (Cell.array element b).Anchored n :=
  fun _ hx => Option.some.inj hx ▸ hb

theorem pointer (hp : p.block.id < n) : (Cell.pointer p).Anchored n :=
  fun _ hx => Option.some.inj hx ▸ hp

end Cell.Anchored

namespace Heap

/-- The blocks of all arrays and pointers are there. -/
def Anchored (h : Heap) : Prop :=
  ∀ r, (h.cell r).Anchored h.blocks.size

namespace Anchored

variable {h : Heap} {r : Ref} {c : Cell}

theorem empty {layout : Layout} : Anchored { layout } := by
  intro r
  rw [cell_of_le (Nat.zero_le _)]
  exact .of_none rfl

theorem array (ha : h.Anchored) {element : Ty} {b : BlockRef} (hr : h.cell r = .array element b) :
    b.id < h.blocks.size :=
  ha r b (by rw [hr]; rfl)

theorem pointer (ha : h.Anchored) {p : Pointer} (hr : h.cell r = .pointer p) : p.block.id < h.blocks.size :=
  ha r p.block (by rw [hr]; rfl)

/-! ## Elementary changes -/

theorem alloc (ha : h.Anchored) (hc : c.Anchored h.blocks.size) : (h.alloc c).2.Anchored := by
  intro x
  rw [cell_alloc]
  split
  · exact hc
  · exact ha x

theorem allocBlock (ha : h.Anchored) (slots : Array Ref) : (h.allocBlock slots).2.Anchored :=
  fun x => (ha x).mono (by rw [blocks_size_allocBlock]; exact Nat.le_succ _)

theorem setCell (ha : h.Anchored) (hc : c.Anchored h.blocks.size) : (h.setCell r c).Anchored := by
  intro x
  rw [cell_setCell]
  split
  · exact hc
  · exact ha x

theorem setSlot (ha : h.Anchored) (b : BlockRef) (i : Nat) (x : Ref) : (h.setSlot b i x).Anchored := by
  intro y
  rw [cell_setSlot, blocks_size_setSlot]
  exact ha y

/-! ## What is read -/

theorem pointer? (ha : h.Anchored) {p : Pointer} (hp : h.pointer? r = some p) : p.block.id < h.blocks.size := by
  unfold Heap.pointer? at hp
  split at hp
  · rename_i hc
    cases hp
    exact ha.pointer hc
  · rename_i hc
    cases hp
    exact ha.array hc
  · cases hp

end Anchored

end Heap

/-! ## Operations on the heap -/

/-- The heap stays anchored, and the result is valid for its blocks. -/
abbrev Mem.Anchors {α : Type} (n : Nat) (x : Mem α) (V : Nat → α → Prop) : Prop :=
  Treewalk.Safe Heap.Anchored (·.blocks.size) n x V

open Mem

variable {α : Type} {n : Nat} {r : Ref}

theorem anchors_pure (a : α) : Mem.Anchors n (pure a) Anything :=
  .pure fun _ _ => trivial

theorem anchors_read (f : Heap → α) : Mem.Anchors n (read f) Anything :=
  safe_read fun _ _ _ => trivial

/-- What is read off a cell keeps being anchored. -/
theorem anchors_cell (r : Ref) : Mem.Anchors n (read (·.cell r)) fun n c => c.Anchored n :=
  safe_read fun _ ha _ => ha r

theorem anchors_alloc {c : Cell} (hc : c.Anchored n) : Mem.Anchors n (alloc c) Anything :=
  fun _ ha hn => ⟨ha.alloc (hc.mono hn), Nat.le_refl _, trivial⟩

theorem anchors_allocBlock (slots : Array Ref) : Mem.Anchors n (allocBlock slots) fun n b => b.id < n :=
  fun h ha _ => ⟨ha.allocBlock slots, by simp, by simp⟩

theorem anchors_change {f : Heap → Heap} (hf : ∀ h : Heap, h.Anchored → n ≤ h.blocks.size → (f h).Anchored)
    (hb : ∀ h : Heap, (f h).blocks.size = h.blocks.size) : Mem.Anchors n (change f) Anything :=
  fun h ha hn => ⟨hf h ha hn, Nat.le_of_eq (hb h).symm, trivial⟩

theorem anchors_absent (ty : Ty) : Mem.Anchors n (absent ty) Anything :=
  anchors_alloc (.of_none rfl)

theorem anchors_nullPointer (target : Ty) : Mem.Anchors n (nullPointer target) Anything :=
  .bind (anchors_allocBlock _) fun _ _ _ hb => anchors_alloc (.pointer hb)

theorem anchors_toSlot (r : Ref) : Mem.Anchors n (toSlot r) Anything := by
  refine .bind (anchors_read _) fun _ _ c _ => ?_
  split
  · exact anchors_pure _
  · exact .bind (anchors_read _) fun _ _ ty _ => anchors_alloc (.of_none rfl)

theorem anchors_slotFor (r : Ref) : Mem.Anchors n (slotFor r) Anything := by
  refine .bind (anchors_read _) fun _ _ c _ => ?_
  split
  · exact anchors_pure _
  · exact anchors_toSlot r

theorem anchors_arrayOfSlots (element : Ty) (slots : List Ref) :
    Mem.Anchors n (arrayOfSlots element slots) Anything :=
  .bind (anchors_allocBlock _) fun _ _ _ hb => anchors_alloc (.array hb)

theorem anchors_arrayOf (element : Ty) (values : List Ref) : Mem.Anchors n (arrayOf element values) Anything :=
  .bind (.mapM fun r _ => anchors_slotFor r) fun _ _ slots _ => anchors_arrayOfSlots element slots

theorem anchors_toPointer (r : Ref) : Mem.Anchors n (toPointer r) Anything :=
  .bind (anchors_read _) fun _ _ _ _ => .bind (anchors_slotFor r) fun _ _ _ _ =>
    .bind (anchors_allocBlock _) fun _ _ _ hb => anchors_alloc (.pointer hb)

/-! ## Copies and casts -/

theorem anchors_copyWithin (fuel : Nat) (r : Ref) : Mem.Anchors n (copyWithin fuel r) Anything := by
  induction fuel generalizing n r with
  | zero => exact anchors_pure _
  | succ fuel ih =>
    refine .bind (anchors_cell r) fun _ _ c hc => ?_
    split
    · refine .bind (anchors_read _) fun _ _ slots _ => .bind (.mapM fun s _ => ih s) fun _ _ copies _ => ?_
      exact anchors_arrayOfSlots _ copies
    · exact .bind (ih _) fun _ _ _ _ => anchors_alloc (.of_none rfl)
    · refine .bind (.mapM fun f _ => ?_) fun _ _ copies _ => anchors_alloc (.of_none rfl)
      exact .bind (ih f.2) fun _ _ _ _ => anchors_pure _
    · exact anchors_alloc hc

theorem anchors_copy (r : Ref) : Mem.Anchors n (copy r) Anything :=
  .bind (anchors_read _) fun _ _ _ _ => anchors_copyWithin _ r

theorem anchors_copyForBinding (r : Ref) : Mem.Anchors n (copyForBinding r) Anything := by
  refine .bind (anchors_read _) fun _ _ r _ => .bind (anchors_cell r) fun _ _ c hc => ?_
  split
  · exact anchors_alloc (.pointer (hc _ rfl))
  · exact anchors_copy r

/-- A cast makes a pointer out of a pointer or an array. -/
theorem Heap.anchored_of_casted {h : Heap} {c c' : Cell} {target : Ty} (hc : c.Anchored n)
    (hx : h.casted c target = .ok (.cell c')) : c'.Anchored n := by
  unfold Heap.casted at hx
  dsimp only at hx
  split at hx
  · cases hx
  · cases hx
    exact .of_none rfl
  · split at hx <;> cases hx
  · cases hx
    exact .pointer (hc _ rfl)
  · split at hx
    · cases hx
      exact .of_none rfl
    · cases hx
  · cases hx
    exact .pointer (hc _ rfl)
  · cases hx
    exact .of_none rfl
  · cases hx
  · cases hx

theorem anchors_castTo (r : Ref) (target : Ty) : Mem.Anchors n (castTo r target) Anything := by
  refine safe_answer_bind (V := fun n x => ∀ c, x = .cell c → c.Anchored n) ?_ ?_
  · rintro h ha - x hx c rfl
    exact Heap.anchored_of_casted (ha _) hx
  · intro _ _ x hx
    cases x with
    | cell c => exact anchors_alloc (hx c rfl)
    | null t => exact anchors_nullPointer t

/-! ## Assignment -/

theorem anchors_setPlace {b : BlockRef} (hb : b.id < n) (r : Ref) (offset : Int64) :
    Mem.Anchors n (setPlace r b offset) Anything := by
  refine anchors_change (fun h ha hn => ?_) fun h => ?_
  · split
    · exact ha.setCell (.pointer (Nat.lt_of_lt_of_le hb hn))
    · exact ha
  · split <;> rfl

theorem anchors_setContent (r : Ref) (content : Option Ref) : Mem.Anchors n (setContent r content) Anything := by
  refine anchors_change (fun h ha hn => ?_) fun h => ?_
  · split
    · exact ha.setCell (.of_none rfl)
    · exact ha
  · split <;> rfl

theorem anchors_fill (r : Ref) (declared : Ty) (source : Ref) :
    Mem.Anchors n (fill r declared source) Anything := by
  refine .bind (anchors_read _) fun _ _ b _ => ?_
  dsimp only
  split
  · exact anchors_pure _
  · refine .bind (anchors_copyForBinding source) fun _ _ fresh _ => ?_
    split
    · exact .bind (anchors_pure _) fun _ _ _ _ => anchors_setContent _ _
    · exact .bind (anchors_castTo _ _) fun _ _ _ _ => anchors_setContent _ _
    · exact .bind (anchors_castTo _ _) fun _ _ _ _ => anchors_setContent _ _
    · exact .bind (anchors_pure _) fun _ _ _ _ => anchors_setContent _ _

/-- A pointer is moved into the block of a pointer or an array. -/
theorem Heap.block_lt_of_update {h : Heap} {target source : Cell} {b : BlockRef} {offset : Int64}
    (hs : source.Anchored n) (hu : h.update target source = .ok (.place b offset)) : b.id < n := by
  unfold Heap.update at hu
  dsimp only at hu
  split at hu
  case h_4 =>
    cases hu
    exact hs _ rfl
  case h_5 =>
    cases hu
    exact hs _ rfl
  all_goals grind

theorem anchors_assignWithin (fuel : Nat) (target source : Ref) :
    Mem.Anchors n (assignWithin fuel target source) Anything := by
  induction fuel generalizing n target source with
  | zero => exact anchors_pure _
  | succ fuel ih =>
    refine .bind (anchors_read _) fun _ _ source _ => ?_
    dsimp only
    split
    · exact anchors_pure _
    refine .bind (anchors_read _) fun _ _ c _ => ?_
    split
    · exact ih _ _
    · exact anchors_fill _ _ _
    · refine safe_answer_bind (V := fun n u => ∀ b offset, u = .place b offset → b.id < n) ?_ ?_
      · rintro h ha - u hu b offset rfl
        exact Heap.block_lt_of_update (ha _) hu
      · intro _ _ u hu
        cases u with
        | nothing => exact anchors_pure _
        | primitive p => exact anchors_change (fun _ ha _ => ha.setCell (.of_none rfl)) fun _ => rfl
        | place b offset => exact anchors_setPlace (hu b offset rfl) target offset
        | null => exact .bind (anchors_allocBlock _) fun _ _ b hb => anchors_setPlace hb target 0
        | pairs pairs =>
          refine .forM fun f _ => .bind (anchors_read _) fun _ _ b _ => ?_
          split
          · exact anchors_setContent _ _
          · exact ih _ _

theorem anchors_assign (target source : Ref) : Mem.Anchors n (assign target source) Anything :=
  .bind (anchors_read _) fun _ _ _ _ => anchors_assignWithin _ target source

theorem anchors_release (p : Pointer) : Mem.Anchors n (release p) Anything := by
  refine .bind (anchors_read _) fun _ _ b _ => ?_
  split
  · exact anchors_pure _
  refine safe_answer_bind (V := Anything) (fun _ _ _ _ _ => trivial) fun _ _ slot _ => ?_
  refine .bind (anchors_read _) fun _ _ c _ => ?_
  split
  · exact anchors_setContent slot none
  · refine .bind (anchors_read _) fun _ _ ty _ => .bind (anchors_absent ty) fun _ _ empty _ => ?_
    exact anchors_change (fun _ ha _ => ha.setSlot _ _ _) fun h => h.blocks_size_setSlot _ _ _

theorem anchors_step (r : Ref) (delta : Int64) : Mem.Anchors n (step r delta) Anything := by
  refine .bind (anchors_cell r) fun _ _ c hc => ?_
  split
  · exact .bind (anchors_alloc (.of_none rfl)) fun _ _ source _ => anchors_assign r source
  · exact anchors_change (fun _ ha _ => ha.setCell (.of_none rfl)) fun _ => rfl
  · exact anchors_change (fun _ ha hn => ha.setCell (.pointer (Nat.lt_of_lt_of_le (hc _ rfl) hn))) fun _ => rfl
  · exact .throw _

/-! ## New values -/

theorem anchors_replicateM {make : Mem α} (hm : ∀ n, Mem.Anchors n make Anything) (k : Nat) :
    Mem.Anchors n (replicateM k make) Anything := by
  induction k generalizing n with
  | zero => exact anchors_pure _
  | succ k ih => exact .bind (hm n) fun _ _ _ _ => .bind ih fun _ _ _ _ => anchors_pure _

theorem anchors_demandValue (ty : Ty) (o : Option Ref) : Mem.Anchors n (demandValue ty o) Anything := by
  cases o with
  | some r => exact anchors_pure _
  | none => exact .throw _

theorem anchors_zeroWith {compound : Form → String → Mem Ref}
    (hc : ∀ n form name, Mem.Anchors n (compound form name) Anything) (ty : Ty) :
    Mem.Anchors n (zeroWith compound ty) Anything := by
  fun_induction zeroWith compound ty generalizing n with
  | case1 => exact anchors_pure _
  | case2 => exact .map _ (anchors_alloc (.of_none rfl)) fun _ _ _ => trivial
  | case3 => exact .map _ (anchors_nullPointer _) fun _ _ _ => trivial
  | case4 element k ih =>
    have helement (n : Nat) : Mem.Anchors n (do demandValue element (← zeroWith compound element)) Anything :=
      .bind ih fun _ _ o _ => anchors_demandValue element o
    exact .bind (anchors_replicateM helement k) fun _ _ values _ =>
      .map _ (anchors_arrayOf element values) fun _ _ _ => trivial
  | case5 => exact .throw _
  | case6 form name => exact .map _ (hc n form name) fun _ _ _ => trivial
  | case7 inner ih => exact ih

theorem anchors_zeroCompound (program : Program) (fuel : Nat) (form : Form) (name : String) :
    Mem.Anchors n (zeroCompound program fuel form name) Anything := by
  induction fuel generalizing n form name with
  | zero => exact .throw _
  | succ fuel ih =>
    have hfields (n : Nat) : Mem.Anchors n (do
        let fields ← (program.allFields name).mapM fun f => do
          return (f.name, ← demandValue f.ty (← zeroWith (zeroCompound program fuel) f.ty))
        alloc (.compound (.compound form name) fields)) Anything := by
      refine .bind (.mapM fun f _ => ?_) fun _ _ fields _ => anchors_alloc (.of_none rfl)
      refine .bind (anchors_zeroWith (fun _ => ih) f.ty) fun _ _ o _ => ?_
      exact .bind (anchors_demandValue f.ty o) fun _ _ _ _ => anchors_pure _
    unfold zeroCompound
    split
    · exact .bind (V := Anything) (.throw _) fun _ _ _ _ => hfields _
    · exact hfields n

theorem anchors_createValue (program : Program) (ty : Ty) : Mem.Anchors n (createValue program ty) Anything :=
  .bind (anchors_zeroWith (fun _ => anchors_zeroCompound program _) ty) fun _ _ o _ => anchors_demandValue ty o

theorem anchors_createArray (program : Program) (element : Ty) (sizes : List Nat) :
    Mem.Anchors n (createArray program element sizes) Anything := by
  fun_induction createArray program element sizes generalizing n with
  | case1 element => exact anchors_createValue program element
  | case2 element size element' _ _ next _ ih =>
    exact .bind (anchors_replicateM (fun _ => ih) size) fun _ _ values _ => anchors_arrayOf _ values
  | case3 element size =>
    exact .bind (anchors_replicateM (fun _ => anchors_createValue program element) size) fun _ _ values _ =>
      anchors_arrayOf _ values

theorem anchors_createString (text : String) : Mem.Anchors n (createString text) Anything := by
  refine .bind (.mapM fun c _ => ?_) fun _ _ chars _ => ?_
  · exact .bind (anchors_alloc (.of_none rfl)) fun _ _ r _ => anchors_slotFor r
  · refine .bind (anchors_absent _) fun _ _ _ _ => .bind (anchors_allocBlock _) fun _ _ _ hb => ?_
    exact anchors_alloc (.pointer hb)

theorem anchors_literal (ty : Ty) (l : Literal) : Mem.Anchors n (Eval.literal ty l) Anything := by
  unfold Eval.literal
  dsimp only
  split
  · exact anchors_alloc (.of_none rfl)
  · exact anchors_alloc (.of_none rfl)
  · split
    · exact anchors_nullPointer _
    · exact anchors_alloc (.of_none rfl)
  · exact anchors_alloc (.of_none rfl)

/-! ## Operands -/

/-- The block of the operand, if it is a pointer, is one of the first `n`. -/
def Operand.Anchored (n : Nat) (o : Operand) : Prop :=
  ∀ p, o = .pointer p → p.block.id < n

theorem Operand.Anchored.mono {n n' : Nat} {o : Operand} (ho : o.Anchored n) (hn : n ≤ n') : o.Anchored n' :=
  fun p hp => Nat.lt_of_lt_of_le (ho p hp) hn

theorem anchors_operandOf (r : Ref) : Mem.Anchors n (operandOf r) fun n o => o.Anchored n := by
  refine safe_read_bind fun h ha _ => ends_answer.2 ?_
  cases ho : h.operand r with
  | error c => exact ⟨ha, Nat.le_refl _⟩
  | ok o =>
    refine ⟨ha, Nat.le_refl _, fun p hp => ?_⟩
    subst hp
    unfold Heap.operand at ho
    split at ho
    · cases ho
    · rename_i hc
      cases ho
      exact ha.pointer hc
    · rename_i hc
      cases ho
      exact ha.array hc
    · cases ho
    · cases ho

/-- A comparison with null gives a number. -/
theorem nullComparison_ne_pointer {h : Heap} {op : BinaryOp} {p q : Pointer} :
    nullComparison h op p ≠ .ok (.pointer q) := by
  unfold nullComparison Yield.truth
  split <;> grind

theorem pointerPair_ne_pointer {h : Heap} {op : BinaryOp} {p p' q : Pointer} :
    pointerPair h op p p' ≠ .ok (.pointer q) := by
  unfold pointerPair Yield.truth
  split <;> grind [nullComparison_ne_pointer]

theorem numberPair_ne_pointer {op : BinaryOp} {l r : Primitive} {q : Pointer} :
    numberPair op l r ≠ .ok (.pointer q) := by
  unfold numberPair
  cases arithmetic op l r <;> simp [Except.map]

/-- A pointer is moved in its block. -/
theorem block_eq_of_pointerAndNumber {h : Heap} {op : BinaryOp} {p q : Pointer} {k : Primitive} {numberFirst : Bool}
    (hq : pointerAndNumber h op p k numberFirst = .ok (.pointer q)) : q.block = p.block := by
  unfold pointerAndNumber at hq
  split at hq
  · split at hq
    · exact absurd hq nullComparison_ne_pointer
    · cases hq
  · split at hq
    · cases hq
    · split at hq
      · cases hq
        rfl
      · cases hq
        rfl
      · cases hq

theorem block_lt_of_operate {h : Heap} {op : BinaryOp} {l r : Operand} {p : Pointer} (hl : l.Anchored n)
    (hr : r.Anchored n) (hy : operate h op l r = .ok (.pointer p)) : p.block.id < n := by
  unfold operate at hy
  split at hy
  · cases hy
  · cases hy
  · split at hy
    · exact absurd hy pointerPair_ne_pointer
    · rw [block_eq_of_pointerAndNumber hy]
      exact hl _ rfl
    · rw [block_eq_of_pointerAndNumber hy]
      exact hr _ rfl
    · exact absurd hy nullComparison_ne_pointer
    · exact absurd hy nullComparison_ne_pointer
    all_goals exact absurd hy numberPair_ne_pointer

theorem anchors_operateOn (op : BinaryOp) {l r : Operand} (hl : l.Anchored n) (hr : r.Anchored n) :
    Mem.Anchors n (operateOn op l r) Anything := by
  refine safe_answer_bind (V := fun n y => ∀ p, y = .pointer p → p.block.id < n) ?_ ?_
  · rintro h ha hn y hy p rfl
    exact block_lt_of_operate (hl.mono hn) (hr.mono hn) hy
  · intro _ _ y hy
    cases y with
    | number p => exact anchors_alloc (.of_none rfl)
    | pointer p => exact anchors_alloc (.pointer (hy p rfl))

theorem anchors_binaryOperation (op : BinaryOp) (l r : Ref) : Mem.Anchors n (binaryOperation op l r) Anything :=
  .bind (anchors_operandOf l) fun _ _ _ hl => .bind (anchors_operandOf r) fun _ hn _ hr =>
    anchors_operateOn op (hl.mono hn) hr

theorem anchors_conform (r : Ref) (declared : Ty) : Mem.Anchors n (conform r declared) Anything := by
  refine .bind (anchors_copyForBinding r) fun _ _ bound _ => .bind (anchors_read _) fun _ _ c _ => ?_
  split
  · exact anchors_pure _
  · exact anchors_castTo bound declared
  · exact anchors_castTo bound declared
  · exact anchors_castTo bound declared
  · exact anchors_castTo bound declared
  · exact anchors_pure _

theorem anchors_conformToNode (r : Ref) (ty : Ty) : Mem.Anchors n (conformToNode r ty) Anything := by
  refine .bind (anchors_read _) fun _ _ c _ => ?_
  split
  · exact anchors_pure _
  · split
    · exact anchors_pure _
    · exact anchors_alloc (.of_none rfl)
  · exact anchors_pure _

/-! ## Initial values, receivers and elements -/

theorem anchors_initialValue (e : Engine) (ty : Ty) (initial : Ref) :
    Mem.Anchors n (Eval.initialValue e ty initial) Anything := by
  unfold Eval.initialValue
  split
  · refine .bind (anchors_read _) fun _ _ o _ => ?_
    split
    · exact .bind (.mapM fun s _ => anchors_copy s) fun _ _ copies _ => anchors_arrayOfSlots _ copies
    · exact .throw _
  · refine .bind (anchors_createValue e.program ty) fun _ _ r _ => ?_
    exact .bind (anchors_assign r initial) fun _ _ _ _ => anchors_pure _

theorem anchors_receiverOf (owner : Ref) : Mem.Anchors n (Eval.receiverOf owner) Anything := by
  have hrest (n : Nat) (receiver object : Ref) :
      Mem.Anchors n (do return (receiver, ← answer (← read (Eval.classOf · object)))) Anything :=
    safe_answer_bind (V := Anything) (fun _ _ _ _ _ => trivial) fun _ _ _ _ => anchors_pure _
  refine .bind (anchors_read _) fun _ _ owner _ => ?_
  refine safe_answer_bind (V := Anything) (fun _ _ _ _ _ => trivial) fun _ _ object _ => ?_
  refine .bind (anchors_read _) fun _ _ c _ => ?_
  dsimp only
  split
  · exact .bind (anchors_toPointer owner) fun _ _ receiver _ => hrest _ receiver object
  · exact hrest _ owner object

/-- The address of an element is in the block of its container. -/
theorem anchors_elementAddress (container : Ref) (i : Int64) :
    Mem.Anchors n (do alloc (.pointer (← answer (← read (·.elementAddress container i))))) Anything := by
  refine safe_answer_bind (V := fun n p => p.block.id < n) ?_ fun _ _ p hp => anchors_alloc (.pointer hp)
  intro h ha _ p hp
  unfold Heap.elementAddress at hp
  split at hp
  · cases hp
  · rename_i base hbase
    dsimp only at hp
    split at hp
    · cases hp
    · cases hp
      have hblock : base.block.id < h.blocks.size := ha.pointer? hbase
      exact hblock

end Treewalk
