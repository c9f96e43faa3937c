/-
  Writes in a grounded heap.

  * `Heap.AdoptsNone h h'`: nothing has come to contain a value that was there, so
    that what is new leads only to what is new (`AdoptsNone.le_of_reaches`);
  * `Heap.Rewrites h A h'`: of what was there only cells in `A` have changed, and
    whatever they contain now they contained before, or it is new;
  * `Heap.Copied h tree x h'`: nothing that was there has changed, and `x` is new
    and looks like `tree`. This is what copies make (`ends_copyWithin`);
  * `rewrites_assignWithin`: storing into a value rewrites what it reaches.

  Unlike in a sound heap, two values may contain the same part here.
-/
import Treewalk.Proofs.Assigned

namespace Treewalk

namespace Heap

variable {h h' h₁ h₂ : Heap} {A B : Ref → Prop} {a r t x y : Ref} {c : Cell} {tree : ValueTree}

/-! ## What is contained in what -/

/-- Nothing has come to contain a value that was there. -/
def AdoptsNone (h h' : Heap) : Prop :=
  ∀ a x, x ∈ h'.parts a → x.id < h.cells.size → x ∈ h.parts a

namespace AdoptsNone

theorem reaches (hn : h.AdoptsNone h') (hy : y.id < h.cells.size) (hr : Reaches h'.parts a y) :
    Reaches h.parts a y := by
  induction hr with
  | refl => exact .refl
  | tail _ hz ih =>
    have hz := hn _ _ hz hy
    exact .tail (ih (lt_of_mem_parts hz)) hz

/-- What is new leads only to what is new. -/
theorem le_of_reaches (hn : h.AdoptsNone h') (ha : h.cells.size ≤ a.id) (hr : Reaches h'.parts a y) :
    h.cells.size ≤ y.id := by
  by_contra hy
  rcases (hn.reaches (Nat.lt_of_not_le hy) hr).cases_head with rfl | ⟨z, hz, -⟩
  · exact hy ha
  · exact absurd (lt_of_mem_parts hz) (Nat.not_lt_of_le ha)

end AdoptsNone

/-- Of what was there only cells in `A` have changed, and what a cell contains it
    contained before, or it is new. -/
structure Rewrites (h : Heap) (A : Ref → Prop) (h' : Heap) : Prop extends Edits h A h' where
  grounded : h'.Grounded
  part : h.AdoptsNone h'
  storage : ∀ a ty b, h'.cell a = .array ty b → b.id < h.blocks.size → h.cell a = .array ty b

namespace Rewrites

theorem refl (hg : h.Grounded) : h.Rewrites A h where
  toEdits := (Adjoins.refl h).edits
  grounded := hg
  part := fun _ _ hx _ => hx
  storage := fun _ _ _ ha _ => ha

theorem trans (hw : h.Rewrites A h₁) (hw' : h₁.Rewrites B h₂)
    (hB : ∀ r, r.id < h.cells.size → B r → A r) : h.Rewrites A h₂ where
  toEdits := hw.toEdits.trans hw'.toEdits hB
  grounded := hw'.grounded
  part := fun a x hx hlt => hw.part a x (hw'.part a x hx (hlt.trans_le hw.cells_le)) hlt
  storage := fun a ty b ha hlt =>
    hw.storage a ty b (hw'.storage a ty b ha (hlt.trans_le hw.blocks_le)) hlt

theorem mono (hw : h.Rewrites A h') (hB : ∀ r, A r → B r) : h.Rewrites B h' where
  toEdits := ⟨hw.layout, hw.cells_le, hw.blocks_le, fun r hr hr' => hw.cell r hr fun ha => hr' (hB r ha), hw.block⟩
  grounded := hw.grounded
  part := hw.part
  storage := hw.storage

/-- Where nothing has been changed, cells and blocks were just added. -/
theorem adds (hw : h.Rewrites (fun _ => False) h') : h.Adds h' :=
  ⟨⟨hw.blocks_le, hw.block⟩, hw.layout, hw.cells_le, fun r hr => hw.cell r hr id⟩

/-- A value that no rewritten cell is part of stays as it was. -/
theorem intact (hw : h.Rewrites A h') (hg : h.Grounded) (hr : r.id < h.cells.size)
    (hA : ∀ y, Reaches h.parts r y → ¬ A y) : h.Intact r h' where
  cell := fun y hy => hw.cell y (hg.lt_of_reaches hr hy) (hA y hy)
  block := fun y ty b _ hb => hw.block b (hg.storage_lt y ty b hb)

theorem alloc (hw : h.Rewrites A h₁) (hnew : ∀ x ∈ h₁.contents c, h.cells.size ≤ x.id)
    (hlt : ∀ x ∈ h₁.contents c, x.id < h₁.cells.size)
    (hb : ∀ ty b, c = .array ty b → h.blocks.size ≤ b.id ∧ b.id < h₁.blocks.size) :
    h.Rewrites A (h₁.alloc c).2 where
  toEdits := hw.toEdits.alloc c
  grounded := hw.grounded.alloc hlt fun ty b he => (hb ty b he).2
  part := fun a x hx hold => by
    rw [parts_alloc] at hx
    split at hx
    · exact absurd hold (Nat.not_lt_of_le (hnew x hx))
    · exact hw.part a x hx hold
  storage := fun a ty b ha hold => by
    rw [cell_alloc] at ha
    split at ha
    · exact absurd hold (Nat.not_lt_of_le (hb ty b ha).1)
    · exact hw.storage a ty b ha hold

theorem allocBlock (hw : h.Rewrites A h₁) (slots : Array Ref) :
    h.Rewrites A (h₁.allocBlock slots).2 where
  toEdits := hw.toEdits.allocBlock slots
  grounded := hw.grounded.allocBlock slots
  part := by
    unfold AdoptsNone
    rw [hw.grounded.parts_allocBlock]
    exact hw.part
  storage := hw.storage

/-- A cell may change to one that contains only what is new and does not lead back
    to it. -/
theorem setCell (hw : h.Rewrites A h₁) (hA : A r) (hnew : ∀ x ∈ h₁.contents c, h.cells.size ≤ x.id)
    (hlt : ∀ x ∈ h₁.contents c, x.id < h₁.cells.size)
    (hr : ∀ x ∈ h₁.contents c, ¬ Reaches h₁.parts x r) (hb : ∀ ty b, c ≠ .array ty b) :
    h.Rewrites A (h₁.setCell r c) where
  toEdits := hw.toEdits.setCell hA
  grounded := hw.grounded.setCell hlt (fun ty b he => absurd he (hb ty b)) hr
  part := fun a x hx hold => by
    rw [parts_setCell] at hx
    split at hx
    · exact absurd hold (Nat.not_lt_of_le (hnew x hx))
    · exact hw.part a x hx hold
  storage := fun a ty b ha hold => by
    rw [cell_setCell] at ha
    split at ha
    · exact absurd ha (hb ty b)
    · exact hw.storage a ty b ha hold

/-- A cell may change to one that contains nothing. -/
theorem setCell_of_contents (hw : h.Rewrites A h₁) (hA : A r) (hc : h₁.contents c = [])
    (hb : ∀ ty b, c ≠ .array ty b) : h.Rewrites A (h₁.setCell r c) := by
  refine hw.setCell hA ?_ ?_ ?_ hb
  all_goals rw [hc]; simp

end Rewrites

/-! ## Copies -/

/-- Nothing that was there has changed, and the value is new. -/
structure Minted (h : Heap) (x : Ref) (h' : Heap) : Prop
    extends Rewrites h (fun _ => False) h' where
  new : h.cells.size ≤ x.id
  lt : x.id < h'.cells.size

/-- Nothing that was there has changed, and the value is new and looks like the
    tree. -/
structure Copied (h : Heap) (tree : ValueTree) (x : Ref) (h' : Heap) : Prop
    extends Minted h x h' where
  tree_eq : h'.tree x = tree

/-- What was made last is new from the start. -/
theorem Rewrites.minted (hw : h.Rewrites (fun _ => False) h₁) (hm : h₁.Minted x h₂) : h.Minted x h₂ :=
  ⟨hw.trans hm.toRewrites fun _ _ => id, hw.cells_le.trans hm.new, hm.lt⟩

/-- A new cell around new values looks like the tree that their trees make. -/
theorem Rewrites.copied (hw : h.Rewrites (fun _ => False) h₁)
    (hnew : ∀ x ∈ h₁.contents c, h.cells.size ≤ x.id)
    (hlt : ∀ x ∈ h₁.contents c, x.id < h₁.cells.size)
    (hb : ∀ ty b, c = .array ty b → h.blocks.size ≤ b.id ∧ b.id < h₁.blocks.size) :
    h.Copied (h₁.treeOf h₁.tree c) ⟨h₁.cells.size⟩ (h₁.alloc c).2 where
  toRewrites := hw.alloc hnew hlt hb
  new := hw.cells_le
  lt := by rw [cells_size_alloc]; exact Nat.lt_succ_self _
  tree_eq := by
    have hg := (hw.alloc hnew hlt hb).grounded
    refine (hg.tree_of_cell (h₁.cell_alloc_new c)).trans ?_
    refine treeOf_congr (fun _ _ _ => rfl) fun x hx => ?_
    have hadds : h₁.Adds (h₁.alloc c).2 := Additive.alloc h₁ c
    exact (hadds.intact hw.grounded (hlt x hx)).tree_eq hw.grounded hg

/-- A new cell that contains nothing. -/
theorem Rewrites.copied_of_contents (hw : h.Rewrites (fun _ => False) h₁) (hc : h₁.contents c = [])
    (hb : ∀ ty b, c ≠ .array ty b) : h.Copied (h₁.treeOf h₁.tree c) ⟨h₁.cells.size⟩ (h₁.alloc c).2 := by
  refine hw.copied ?_ ?_ fun ty b he => absurd he (hb ty b)
  all_goals rw [hc]; simp

end Heap

open Mem

variable {α β : Type} {h h₁ : Heap} {r t x : Ref} {n k : Nat}

theorem map_eq_of_forall₂ {γ : Type} {f : α → γ} {g : β → γ} {l : List α} {l' : List β}
    (hl : List.Forall₂ (fun a b => g b = f a) l l') : l'.map g = l.map f := by
  induction hl with
  | nil => rfl
  | cons hab _ ih => rw [List.map_cons, List.map_cons, hab, ih]

/-- An array of new values looks like the row of their trees. -/
theorem ends_arrayOfSlots_copied {slots : List Ref} (element : Ty)
    (hw : h.Rewrites (fun _ => False) h₁)
    (hslots : ∀ x ∈ slots, h.cells.size ≤ x.id ∧ x.id < h₁.cells.size) {E : Halt → Heap → Prop} :
    Ends (arrayOfSlots element slots) h₁ (h.Copied (.array element (slots.map h₁.tree))) E := by
  have hw₂ := hw.allocBlock slots.toArray
  have hblock : ((h₁.allocBlock slots.toArray).2.block ⟨h₁.blocks.size⟩).toList = slots :=
    congrArg Array.toList (h₁.block_allocBlock_new slots.toArray)
  have hmem : ∀ x ∈ (h₁.allocBlock slots.toArray).2.contents (.array element ⟨h₁.blocks.size⟩),
      x ∈ slots := fun x hx => hblock ▸ hx
  have hcopied := hw₂.copied (fun x hx => (hslots x (hmem x hx)).1)
    (fun x hx => (hslots x (hmem x hx)).2) fun ty b he => by
      cases he
      simp [hw.blocks_le]
  have hadds : h₁.Adds (h₁.allocBlock slots.toArray).2 := Heap.Additive.allocBlock h₁ _
  have htrees : slots.map (h₁.allocBlock slots.toArray).2.tree = slots.map h₁.tree :=
    List.map_congr_left fun x hx =>
      (hadds.intact hw.grounded (hslots x hx).2).tree_eq hw.grounded hw₂.grounded
  refine ends_bind.2 (ends_allocBlock.2 (ends_alloc.2 ?_))
  rw [show Heap.treeOf _ _ _ = .array element _ from rfl, hblock, htrees] at hcopied
  exact hcopied

/-- Values are made one after another: what held of each when it was made holds when all
    have been, if it lasts while others are added. -/
theorem ends_mapM_lasting {l : List α} {g : α → Mem β} (ref : β → Ref) (K : Heap → α → β → Prop)
    (hK : ∀ a b h₂ h₃, h₂.Grounded → h₃.Grounded → h₂.Adds h₃ → (ref b).id < h₂.cells.size →
      K h₂ a b → K h₃ a b)
    {E : Halt → Heap → Prop} (hw : h.Rewrites (fun _ => False) h₁)
    (hl : ∀ a ∈ l, ∀ h₂, h₁.Adds h₂ → h.Rewrites (fun _ => False) h₂ →
      Ends (g a) h₂ (fun b h₃ => h₂.Adds h₃ ∧ h.Minted (ref b) h₃ ∧ K h₃ a b) E) :
    Ends (l.mapM g) h₁
      (fun bs h' => h₁.Adds h' ∧ h.Rewrites (fun _ => False) h' ∧
        (∀ x ∈ bs.map ref, h.cells.size ≤ x.id ∧ x.id < h'.cells.size) ∧ List.Forall₂ (K h') l bs)
      E := by
  induction l generalizing h₁ with
  | nil => exact ⟨Std.Refl.refl h₁, hw, nofun, .nil⟩
  | cons a l ih =>
    rw [List.mapM_cons, ends_bind]
    refine (hl a (by simp) h₁ (Std.Refl.refl h₁) hw).mono ?_ fun _ _ hE => hE
    rintro b h₂ ⟨hadds, hm, hb⟩
    rw [ends_bind]
    refine (ih hm.toRewrites fun a' ha' h₃ hadds' => ?_).mono ?_ fun _ _ hE => hE
    · exact hl a' (by simp [ha']) h₃ (IsTrans.trans _ _ _ hadds hadds')
    rintro bs h₃ ⟨hadds', hw', hlt, hbs⟩
    refine ⟨IsTrans.trans _ _ _ hadds hadds', hw', fun x hx => ?_,
      .cons (hK a b h₂ h₃ hm.grounded hw'.grounded hadds' hm.lt hb) hbs⟩
    rcases List.mem_cons.1 hx with rfl | hx
    · exact ⟨hm.new, hm.lt.trans_le hadds'.cells_le⟩
    · exact hlt x hx

/-- Values are made one after another: each still looks the way it was made when all
    have been. -/
theorem ends_mapM_minted {l : List α} {g : α → Mem β} (ref : β → Ref) (K : α → β → ValueTree → Prop)
    {E : Halt → Heap → Prop} (hw : h.Rewrites (fun _ => False) h₁)
    (hl : ∀ a ∈ l, ∀ h₂, h₁.Adds h₂ → h.Rewrites (fun _ => False) h₂ →
      Ends (g a) h₂ (fun b h₃ => h₂.Adds h₃ ∧ h.Minted (ref b) h₃ ∧ K a b (h₃.tree (ref b))) E) :
    Ends (l.mapM g) h₁
      (fun bs h' => h₁.Adds h' ∧ h.Rewrites (fun _ => False) h' ∧
        (∀ x ∈ bs.map ref, h.cells.size ≤ x.id ∧ x.id < h'.cells.size) ∧
        List.Forall₂ (fun a b => K a b (h'.tree (ref b))) l bs)
      E := by
  refine ends_mapM_lasting ref (fun h a b => K a b (h.tree (ref b))) ?_ hw hl
  intro a b h₂ h₃ hg₂ hg₃ hadds hlt hK
  rwa [(hadds.intact hg₂ hlt).tree_eq hg₂ hg₃]

/-- A copy that follows enough levels looks like the value. -/
theorem ends_copyWithin (hg : h.Grounded) (hr : Shallow h.parts n r) (hk : n ≤ k) :
    Ends (copyWithin k r) h (h.Copied (h.tree r)) fun _ _ => False := by
  induction n generalizing h r k with
  | zero => exact hr.elim
  | succ n ih =>
    obtain ⟨k, rfl, hle⟩ := exists_of_succ_le hk
    -- a part is copied while the parts before it already have been
    have hpart : ∀ x ∈ h.parts r, ∀ h₁ : Heap, h.Rewrites (fun _ => False) h₁ →
        Ends (copyWithin k x) h₁
          (fun y h₂ => h₁.Adds h₂ ∧ h.Minted y h₂ ∧ h₂.tree y = h.tree x) fun _ _ => False := by
      intro x hx h₁ hw
      have hi := hw.adds.intact hg (hg.part_lt r x hx)
      refine (ih hw.grounded (hi.shallow (hr x hx)) hle).mono (fun y h₂ hm => ?_) fun _ _ hE => hE
      exact ⟨hm.toRewrites.adds, hw.minted hm.toMinted, hm.tree_eq.trans (hi.tree_eq hg hw.grounded)⟩
    rw [hg.tree_eq]
    refine ends_bind.2 (ends_read.2 ?_)
    cases hc : h.cell r with
    | primitive | pointer => exact (Heap.Rewrites.refl hg).copied_of_contents rfl (by simp)
    | array element b =>
      have hslots := ends_mapM_minted (l := (h.block b).toList) id (fun x _ tree => tree = h.tree x)
        (.refl hg) fun x hx h₁ _ hw =>
          hpart x (Heap.mem_parts_of_array hc (Array.mem_toList_iff.1 hx)) h₁ hw
      refine ends_bind.2 (ends_read.2 (ends_bind.2 (hslots.mono ?_ fun _ _ hE => hE)))
      rintro slots h₁ ⟨-, hw, hlt, htrees⟩
      have hmap : slots.map h₁.tree = (h.block b).toList.map h.tree := map_eq_of_forall₂ htrees
      show Ends _ _ (h.Copied (.array element ((h.block b).toList.map h.tree))) _
      rw [← hmap]
      exact ends_arrayOfSlots_copied element hw (by simpa using hlt)
    | slot ty content =>
      cases content with
      | none => exact (Heap.Rewrites.refl hg).copied_of_contents rfl (by simp)
      | some x =>
        refine ends_bind.2 ((hpart x (Heap.mem_parts_of_slot hc) h (.refl hg)).mono ?_ fun _ _ hE => hE)
        rintro y h₁ ⟨-, hm, htree⟩
        have hcopied := hm.toRewrites.copied (c := .slot ty (some y)) (by simpa [Heap.contents] using hm.new)
          (by simpa [Heap.contents] using hm.lt) (by simp)
        show h.Copied (.slot ty (some (h.tree x))) _ _
        rw [← htree]
        exact hcopied
    | compound ty fields =>
      have hfields := ends_mapM_minted (l := fields) (g := fun f => return (f.1, ← copyWithin k f.2))
        Prod.snd (fun f g tree => g.1 = f.1 ∧ tree = h.tree f.2) (.refl hg) fun f hf h₁ _ hw => by
          refine ends_bind.2 ((hpart f.2 (Heap.mem_parts_of_compound hc hf) h₁ hw).mono ?_ fun _ _ hE => hE)
          rintro x h₂ ⟨hadds, hm, htree⟩
          exact ⟨hadds, hm, rfl, htree⟩
      refine ends_bind.2 (hfields.mono ?_ fun _ _ hE => hE)
      rintro copies h₁ ⟨-, hw, hlt, htrees⟩
      have hmap : (copies.map fun f => (f.1, h₁.tree f.2)) = fields.map fun f => (f.1, h.tree f.2) :=
        map_eq_of_forall₂ (htrees.imp fun _ _ ht => by rw [ht.1, ht.2])
      have hcopied := hw.copied (c := .compound ty copies) (fun x hx => (hlt x hx).1)
        (fun x hx => (hlt x hx).2) (by simp)
      show h.Copied (.compound ty (fields.map fun f => (f.1, h.tree f.2))) _ _
      rw [← hmap]
      exact hcopied

/-- The tree of the copy that a parameter gets: an array decays to a pointer to its
    first element. -/
def Heap.boundTree (h : Heap) (r : Ref) : ValueTree :=
  match h.cell (h.flatten r) with
  | .array element b => .pointer ⟨element, b, 0⟩
  | _ => h.tree (h.flatten r)

theorem ends_copy (hg : h.Grounded) (r : Ref) :
    Ends (copy r) h (h.Copied (h.tree r)) fun _ _ => False :=
  ends_bind.2 (ends_read.2 (ends_copyWithin hg (hg.shallow r) (Nat.le_refl _)))

theorem ends_copyForBinding (hg : h.Grounded) (r : Ref) :
    Ends (copyForBinding r) h (h.Copied (h.boundTree r)) fun _ _ => False := by
  refine ends_bind.2 (ends_read.2 (ends_bind.2 (ends_read.2 ?_)))
  unfold Heap.boundTree
  cases h.cell (h.flatten r) with
  | array element b =>
    exact (Heap.Rewrites.refl hg).copied_of_contents (c := .pointer ⟨element, b, 0⟩) rfl (by simp)
  | primitive | pointer | slot | compound => exact ends_copy hg _

/-! ## Casts -/

/-- The value is what the cast makes: the cell, or a pointer into a new empty block. -/
def Heap.Holds (h : Heap) (x : Ref) (h' : Heap) : Casted → Prop
  | .cell c => h'.cell x = c
  | .null t => ∃ b, h.blocks.size ≤ b.id ∧ h'.block b = #[] ∧ h'.cell x = .pointer ⟨t, b, 0⟩

theorem ends_castTo (hg : h.Grounded) (r : Ref) (target : Ty) :
    Ends (castTo r target) h
      (fun x h' => h.Minted x h' ∧
        ∃ k, h.casted (h.cell (h.flatten r)) target = .ok k ∧ h.Holds x h' k)
      fun halt h' => h' = h ∧
        ∃ c, halt = .of c ∧ h.casted (h.cell (h.flatten r)) target = .error c := by
  refine ends_bind.2 (ends_read.2 (ends_bind.2 (ends_answer.2 ?_)))
  cases hk : h.casted (h.cell (h.flatten r)) target with
  | error c => exact ⟨rfl, c, rfl, rfl⟩
  | ok k =>
    have hw := Heap.Rewrites.refl (A := fun _ => False) hg
    cases k with
    | cell c =>
      have hsimple := (Heap.simple_casted hk).1
      have hc := hw.copied_of_contents (hsimple.contents h) fun ty b he => by rw [he] at hsimple; exact hsimple
      exact ⟨hc.toMinted, _, rfl, h.cell_alloc_new c⟩
    | null t =>
      refine ends_bind.2 (ends_allocBlock.2 (ends_alloc.2 ?_))
      have hc := (hw.allocBlock #[]).copied_of_contents (c := .pointer ⟨t, ⟨h.blocks.size⟩, 0⟩) rfl
        (by simp)
      refine ⟨hc.toMinted, _, rfl, _, Nat.le_refl _, ?_, Heap.cell_alloc_new _ _⟩
      exact h.block_allocBlock_new #[]

/-! ## Assignment -/

/-- However the computation ends, it has rewritten only cells in `A`. -/
def Mem.RewritesOnly {α : Type} (A : Ref → Prop) (x : Mem α) (h : Heap) : Prop :=
  Ends x h (fun _ => h.Rewrites A) fun _ => h.Rewrites A

variable {A : Ref → Prop}

theorem rewrites_setPlace (hw : h.Rewrites A h₁) (ht : A t) (b : BlockRef) (offset : Int64)
    {E : Halt → Heap → Prop} : Ends (setPlace t b offset) h₁ (fun _ => h.Rewrites A) E := by
  refine ends_change.2 ?_
  split
  · exact hw.setCell_of_contents ht rfl (by simp)
  · exact hw

theorem rewrites_empty (hw : h.Rewrites A h₁) (ht : A t) {E : Halt → Heap → Prop} :
    Ends (setContent t none) h₁ (fun _ => h.Rewrites A) E := by
  refine ends_change.2 ?_
  split
  · exact hw.setCell_of_contents ht rfl (by simp)
  · exact hw

/-- A new value is put into a slot that was there. -/
theorem rewrites_content (hm : h.Minted x h₁) (hlt : t.id < h.cells.size) (ht : A t)
    {E : Halt → Heap → Prop} : Ends (setContent t (some x)) h₁ (fun _ => h.Rewrites A) E := by
  refine ends_change.2 ?_
  split
  · rename_i ty content hc
    have hmem : ∀ y ∈ h₁.contents (.slot ty (some x)), y = x := fun y => List.mem_singleton.1
    refine (hm.toRewrites.mono fun _ => False.elim).setCell ht (fun y hy => ?_) (fun y hy => ?_)
      (fun y hy hreach => ?_) (by simp)
    · exact hmem y hy ▸ hm.new
    · exact hmem y hy ▸ hm.lt
    · rw [hmem y hy] at hreach
      exact absurd hlt (Nat.not_lt_of_le (hm.part.le_of_reaches hm.new hreach))
  · exact hm.toRewrites.mono fun _ => False.elim

theorem rewrites_fill (hg : h.Grounded) (hlt : t.id < h.cells.size) (ht : A t) (declared : Ty)
    (source : Ref) : RewritesOnly A (fill t declared source) h := by
  refine ends_bind.2 (ends_read.2 ?_)
  dsimp only
  split
  · exact .refl hg
  have hcast : ∀ fresh h₁, h.Minted fresh h₁ →
      Ends (castTo fresh declared >>= fun fresh => setContent t (some fresh)) h₁
        (fun _ => h.Rewrites A) fun _ => h.Rewrites A := by
    intro fresh h₁ hm
    refine ends_bind.2 ((ends_castTo hm.grounded fresh declared).mono ?_ ?_)
    · rintro x h₂ ⟨hm₂, -⟩
      exact rewrites_content (hm.toRewrites.minted hm₂) hlt ht
    · rintro _ _ ⟨rfl, -⟩
      exact hm.toRewrites.mono fun _ => False.elim
  refine ends_bind.2 ((ends_copyForBinding hg source).mono ?_ fun _ _ => False.elim)
  intro fresh h₁ hm
  split
  · exact rewrites_content hm.toMinted hlt ht
  · exact hcast fresh h₁ hm.toMinted
  · exact hcast fresh h₁ hm.toMinted
  · exact rewrites_content hm.toMinted hlt ht

/-- Storing into the parts of a value one after another rewrites what it reaches. -/
theorem rewrites_forM {l : List (Ref × Ref)} {g : Ref × Ref → Mem PUnit}
    (hl : ∀ p ∈ l, Reaches h.parts t p.1) (hlt : t.id < h.cells.size)
    (hg : ∀ p ∈ l, ∀ h₂ : Heap, h₂.Grounded → p.1.id < h₂.cells.size →
      RewritesOnly (Reaches h₂.parts p.1) (g p) h₂)
    (hh : h.Grounded) (hw : h.Rewrites (Reaches h.parts t) h₁) :
    Ends (l.forM g) h₁ (fun _ => h.Rewrites (Reaches h.parts t)) fun _ =>
      h.Rewrites (Reaches h.parts t) := by
  induction l generalizing h₁ with
  | nil => exact hw
  | cons p l ih =>
    have hp := hl p (by simp)
    have hp₁ : p.1.id < h₁.cells.size := (hh.lt_of_reaches hlt hp).trans_le hw.cells_le
    have htrans : ∀ h₂, h₁.Rewrites (Reaches h₁.parts p.1) h₂ → h.Rewrites (Reaches h.parts t) h₂ :=
      fun h₂ hw₂ => hw.trans hw₂ fun r hr hreach => hp.trans (hw.part.reaches hr hreach)
    refine ends_bind.2 (Ends.mono (hg p (by simp) h₁ hw.grounded hp₁) ?_ fun _ => htrans)
    intro _ h₂ hw₂
    exact ih (fun q hq => hl q (by simp [hq])) (fun q hq => hg q (by simp [hq])) (htrans h₂ hw₂)

theorem rewrites_assignWithin (fuel : Nat) (hg : h.Grounded) (hlt : t.id < h.cells.size)
    (source : Ref) : RewritesOnly (Reaches h.parts t) (assignWithin fuel t source) h := by
  induction fuel generalizing h t source with
  | zero => exact .refl hg
  | succ fuel ih =>
    refine ends_bind.2 (ends_read.2 ?_)
    dsimp only
    split
    · exact .refl hg
    refine ends_bind.2 (ends_read.2 ?_)
    split
    · rename_i ty content hc
      have hpart := Heap.mem_parts_of_slot hc
      have hmono : ∀ h', h.Rewrites (Reaches h.parts content) h' → h.Rewrites (Reaches h.parts t) h' :=
        fun h' hw => hw.mono fun r hr => .head hpart hr
      exact Ends.mono (ih hg (hg.part_lt t content hpart) _) (fun _ => hmono) fun _ => hmono
    · exact rewrites_fill hg hlt .refl _ _
    · refine ends_bind.2 (ends_read.2 (ends_bind.2 (ends_answer.2 ?_)))
      have hw := Heap.Rewrites.refl (A := Reaches h.parts t) hg
      cases hu : h.update (h.cell t) (h.cell (h.flatten source)) with
      | error c => exact hw
      | ok u =>
        cases u with
        | nothing => exact hw
        | primitive p => exact hw.setCell_of_contents .refl rfl (by simp)
        | place b offset => exact rewrites_setPlace hw .refl b offset
        | null => exact ends_bind.2 (ends_allocBlock.2 (rewrites_setPlace (hw.allocBlock #[]) .refl _ 0))
        | pairs pairs =>
          have hfirst := (Heap.prefix_of_update hu).1.subset
          refine rewrites_forM (fun p hp => .single (hfirst (List.mem_map_of_mem hp))) hlt ?_ hg hw
          intro p _ h₂ hg₂ hlt₂
          refine ends_bind.2 (ends_read.2 ?_)
          split
          · exact rewrites_empty (.refl hg₂) .refl
          · exact ih hg₂ hlt₂ p.2

theorem rewrites_assign (hg : h.Grounded) (hlt : t.id < h.cells.size) (source : Ref) :
    RewritesOnly (Reaches h.parts t) (assign t source) h :=
  ends_bind.2 (ends_read.2 (rewrites_assignWithin _ hg hlt source))

end Treewalk
