/-
  Value trees.

  * `ValueTree`: what a value looks like, without the places of its cells. A
    pointer is a leaf: it looks the same only if it points to the same place;
  * `Heap.tree h r`: the tree of the value `r`. In a grounded heap it is given by
    the trees of the parts (`Grounded.tree_eq`), whatever the bound on levels;
  * `Heap.Intact h r h'`: from `h` to `h'` nothing that `r` is made of has changed,
    and so its tree has not (`Intact.tree_eq`);
  * `Heap.Apart h a b`: the two values have no cell in common.
-/
import Treewalk.Proofs.Sound

namespace Treewalk

/-- What a value looks like. -/
inductive ValueTree where
  | primitive (value : Primitive)
  | array (element : Ty) (slots : List ValueTree)
  | pointer (value : Pointer)
  | slot (ty : Ty) (content : Option ValueTree)
  | compound (ty : Ty) (fields : List (String × ValueTree))

instance : Inhabited ValueTree := ⟨.slot .void none⟩

section Reaches

variable {P P' : Ref → List Ref} {a z : Ref} (hP : ∀ b, Reaches P a b → P' b = P b)
include hP

/-! Only the parts of what is reached count. -/

theorem Reaches.congr (hz : Reaches P' a z) : Reaches P a z := by
  induction hz with
  | refl => exact .refl
  | tail _ hz ih => exact .tail ih (hP _ ih ▸ hz)

theorem Reaches.transfer (hz : Reaches P a z) : Reaches P' a z := by
  induction hz with
  | refl => exact .refl
  | tail hy hz ih => exact .tail ih (hP _ hy ▸ hz)

end Reaches

namespace Heap

variable {h h' h₁ h₂ : Heap} {r x y : Ref} {c : Cell}

/-! ## The tree of a value -/

/-- The tree of a cell, given the trees of what it contains. -/
def treeOf (h : Heap) (part : Ref → ValueTree) : Cell → ValueTree
  | .primitive p => .primitive p
  | .array element b => .array element ((h.block b).toList.map part)
  | .pointer p => .pointer p
  | .slot ty content => .slot ty (content.map part)
  | .compound ty fields => .compound ty (fields.map fun f => (f.1, part f.2))

/-- The tree of a value, at most `n` levels deep. -/
def treeWithin (h : Heap) : Nat → Ref → ValueTree
  | 0, _ => default
  | n + 1, r => h.treeOf (h.treeWithin n) (h.cell r)

/-- The tree of a value. -/
def tree (h : Heap) (r : Ref) : ValueTree :=
  h.treeWithin h.levels r

theorem treeOf_congr {f g : Ref → ValueTree}
    (hb : ∀ ty b, c = .array ty b → h'.block b = h.block b) (hf : ∀ x ∈ h.contents c, g x = f x) :
    h'.treeOf g c = h.treeOf f c := by
  cases c with
  | primitive | pointer => rfl
  | array ty b =>
    have hmap : (h.block b).toList.map g = (h.block b).toList.map f := List.map_congr_left hf
    simp only [treeOf, hb ty b rfl, hmap]
  | slot ty content =>
    cases content with
    | none => rfl
    | some x => simp [treeOf, hf x (List.mem_singleton_self x)]
  | compound ty fields =>
    have hmap : (fields.map fun f => (f.1, g f.2)) = fields.map fun e => (e.1, f e.2) :=
      List.map_congr_left fun e he => by rw [hf e.2 (List.mem_map_of_mem he)]
    simp only [treeOf, hmap]

theorem treeWithin_congr {n k k' : Nat} (hr : Shallow h.parts n r) (hk : n ≤ k) (hk' : n ≤ k') :
    h.treeWithin k r = h.treeWithin k' r := by
  induction n generalizing r k k' with
  | zero => exact hr.elim
  | succ n ih =>
    obtain ⟨k, rfl, hle⟩ := exists_of_succ_le hk
    obtain ⟨k', rfl, hle'⟩ := exists_of_succ_le hk'
    refine treeOf_congr (fun _ _ _ => rfl) fun x hx => ?_
    exact ih (hr x hx) hle hle'

/-- The tree of a value, given by the trees of its parts. -/
theorem Grounded.tree_eq (hg : h.Grounded) (r : Ref) : h.tree r = h.treeOf h.tree (h.cell r) := by
  refine treeOf_congr (fun _ _ _ => rfl) fun x hx => ?_
  exact treeWithin_congr (hg.shallow r x hx) (Nat.le_refl _) (Nat.le_succ _)

theorem Grounded.tree_of_cell (hg : h.Grounded) (hr : h.cell r = c) : h.tree r = h.treeOf h.tree c := by
  rw [hg.tree_eq, hr]

section Cells

variable {ty : Ty}

/-! The cell of a value, given its tree. -/

theorem Grounded.cell_of_primitive {p : Primitive} (hg : h.Grounded) (hr : h.tree r = .primitive p) :
    h.cell r = .primitive p := by
  rw [hg.tree_eq] at hr
  cases hc : h.cell r with
  | primitive q =>
    rw [hc] at hr
    exact congrArg Cell.primitive (ValueTree.primitive.inj hr)
  | array | pointer | slot | compound => rw [hc] at hr; cases hr

theorem Grounded.cell_of_pointer {p : Pointer} (hg : h.Grounded) (hr : h.tree r = .pointer p) :
    h.cell r = .pointer p := by
  rw [hg.tree_eq] at hr
  cases hc : h.cell r with
  | pointer q =>
    rw [hc] at hr
    exact congrArg Cell.pointer (ValueTree.pointer.inj hr)
  | primitive | array | slot | compound => rw [hc] at hr; cases hr

theorem Grounded.cell_of_array {slots : List ValueTree} (hg : h.Grounded)
    (hr : h.tree r = .array ty slots) :
    ∃ b, h.cell r = .array ty b ∧ (h.block b).toList.map h.tree = slots := by
  rw [hg.tree_eq] at hr
  cases hc : h.cell r with
  | array ty' b =>
    rw [hc] at hr
    obtain ⟨rfl, hslots⟩ := ValueTree.array.inj hr
    exact ⟨b, rfl, hslots⟩
  | primitive | pointer | slot | compound => rw [hc] at hr; cases hr

theorem Grounded.cell_of_absent (hg : h.Grounded) (hr : h.tree r = .slot ty none) :
    h.cell r = .slot ty none := by
  rw [hg.tree_eq] at hr
  cases hc : h.cell r with
  | slot ty' content =>
    rw [hc] at hr
    cases content with
    | none => cases hr; rfl
    | some x => cases hr
  | primitive | array | pointer | compound => rw [hc] at hr; cases hr

theorem Grounded.cell_of_present {t : ValueTree} (hg : h.Grounded) (hr : h.tree r = .slot ty (some t)) :
    ∃ x, h.cell r = .slot ty (some x) ∧ h.tree x = t := by
  rw [hg.tree_eq] at hr
  cases hc : h.cell r with
  | slot ty' content =>
    rw [hc] at hr
    cases content with
    | none => cases hr
    | some x => cases hr; exact ⟨x, rfl, rfl⟩
  | primitive | array | pointer | compound => rw [hc] at hr; cases hr

theorem Grounded.cell_of_compound {fields : List (String × ValueTree)} (hg : h.Grounded)
    (hr : h.tree r = .compound ty fields) : ∃ refs, h.cell r = .compound ty refs ∧
      (refs.map fun f => (f.1, h.tree f.2)) = fields := by
  rw [hg.tree_eq] at hr
  cases hc : h.cell r with
  | compound ty' refs =>
    rw [hc] at hr
    obtain ⟨rfl, hfields⟩ := ValueTree.compound.inj hr
    exact ⟨refs, rfl, hfields⟩
  | primitive | array | pointer | slot => rw [hc] at hr; cases hr

end Cells

/-! ## What stays as it was -/

theorem mem_parts_of_array {ty : Ty} {b : BlockRef} (hr : h.cell r = .array ty b) (hx : x ∈ h.block b) :
    x ∈ h.parts r := by
  unfold parts
  rw [hr]
  exact Array.mem_toList_iff.2 hx

theorem mem_parts_of_slot {ty : Ty} (hr : h.cell r = .slot ty (some x)) : x ∈ h.parts r := by
  unfold parts
  rw [hr]
  exact List.mem_singleton_self x

theorem mem_parts_of_compound {ty : Ty} {fields : List (String × Ref)} {f : String × Ref}
    (hr : h.cell r = .compound ty fields) (hf : f ∈ fields) : f.2 ∈ h.parts r := by
  unfold parts
  rw [hr]
  exact List.mem_map_of_mem hf

/-- A slot leads to what it stands for. -/
theorem reaches_flatten (h : Heap) (r : Ref) : Reaches h.parts r (h.flatten r) := by
  unfold flatten
  split
  · rename_i hr
    exact .single (mem_parts_of_slot hr)
  · exact .refl

theorem flatten_of_not_isSlot (hr : ¬ h.isSlot r) : h.flatten r = r := by
  unfold flatten
  split
  · rename_i hc
    exact absurd (hc ▸ trivial : (h.cell r).IsSlot) hr
  · rfl

theorem not_isAbsent_of_not_isSlot (hr : ¬ h.isSlot r) : ¬ h.isAbsent r := by
  unfold isAbsent
  split
  · rename_i hc
    exact absurd (hc ▸ trivial : (h.cell r).IsSlot) hr
  · simp

/-- Nothing that the value is made of has changed. -/
structure Intact (h : Heap) (r : Ref) (h' : Heap) : Prop where
  cell : ∀ y, Reaches h.parts r y → h'.cell y = h.cell y
  block : ∀ y ty b, Reaches h.parts r y → h.cell y = .array ty b → h'.block b = h.block b

namespace Intact

theorem refl (h : Heap) (r : Ref) : h.Intact r h :=
  ⟨fun _ _ => rfl, fun _ _ _ _ _ => rfl⟩

theorem of_reaches (hi : h.Intact r h') (hx : Reaches h.parts r x) : h.Intact x h' :=
  ⟨fun y hy => hi.cell y (hx.trans hy), fun y ty b hy => hi.block y ty b (hx.trans hy)⟩

theorem parts_eq (hi : h.Intact r h') (hy : Reaches h.parts r y) : h'.parts y = h.parts y := by
  unfold parts
  rw [hi.cell y hy]
  exact contents_congr fun ty b hb => hi.block y ty b hy hb

theorem reaches_iff (hi : h.Intact r h') : Reaches h'.parts r y ↔ Reaches h.parts r y :=
  ⟨.congr fun _ hb => hi.parts_eq hb, .transfer fun _ hb => hi.parts_eq hb⟩

theorem trans (hi : h.Intact r h₁) (hi' : h₁.Intact r h₂) : h.Intact r h₂ where
  cell := fun y hy => (hi'.cell y (hi.reaches_iff.2 hy)).trans (hi.cell y hy)
  block := fun y ty b hy hb =>
    (hi'.block y ty b (hi.reaches_iff.2 hy) ((hi.cell y hy).trans hb)).trans (hi.block y ty b hy hb)

theorem tree_eq (hi : h.Intact r h') (hg : h.Grounded) (hg' : h'.Grounded) : h'.tree r = h.tree r := by
  induction r using hg.wf.induction with
  | _ r ih =>
    rw [hg'.tree_eq, hg.tree_eq, hi.cell r .refl]
    refine treeOf_congr (fun ty b hb => hi.block r ty b .refl hb) fun x hx => ?_
    exact ih x hx (hi.of_reaches (.single hx))

theorem shallow {n : Nat} (hi : h.Intact r h') (hn : Shallow h.parts n r) : Shallow h'.parts n r :=
  hn.congr fun _ hb => hi.parts_eq hb

end Intact

/-- What is added leaves every value as it was. -/
theorem Adds.intact (ha : h.Adds h') (hg : h.Grounded) (hr : r.id < h.cells.size) : h.Intact r h' where
  cell := fun y hy => ha.cell y (hg.lt_of_reaches hr hy)
  block := fun y ty b _ hb => ha.block b (hg.storage_lt y ty b hb)

/-! ## Values without a common cell -/

/-- The two values have no cell in common. -/
def Apart (h : Heap) (a b : Ref) : Prop :=
  ∀ y, Reaches h.parts a y → ¬ Reaches h.parts b y

theorem Apart.symm {a b : Ref} (ha : h.Apart a b) : h.Apart b a :=
  fun y hb ha' => ha y ha' hb

theorem Apart.of_reaches {a b : Ref} (ha : h.Apart a b) (hx : Reaches h.parts a x)
    (hy : Reaches h.parts b y) : h.Apart x y :=
  fun z hz hz' => ha z (hx.trans hz) (hy.trans hz')

theorem Apart.of_intact {a b : Ref} (ha : h.Apart a b) (hia : h.Intact a h') (hib : h.Intact b h') :
    h'.Apart a b :=
  fun y hy hy' => ha y (hia.reaches_iff.1 hy) (hib.reaches_iff.1 hy')

end Heap

end Treewalk
