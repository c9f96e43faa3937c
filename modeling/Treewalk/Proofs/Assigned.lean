/-
  What assignment changes.

  * `Heap.Edits h A h'`: of what was there, only cells in `A` have changed, and no
    block has;
  * `Heap.Assigned h t h'`: the heap is sound, and only what `t` reaches was
    edited;
  * `assigns_assignWithin`: this is what storing into `t` does. What it puts into
    an empty slot is a copy, which nothing contains and which does not lead back
    to the slot; the parts of an array or compound are stored one after another,
    and none of them reaches what another reaches.
-/
import Treewalk.Proofs.Copies
import Treewalk.Proofs.ValueTree

namespace Treewalk

namespace Heap

variable {h h₁ h₂ : Heap} {A B : Ref → Prop} {r t x : Ref} {c : Cell}

/-- Cells and blocks were added; of those that were there, only cells in `A` have
    changed. -/
structure Edits (h : Heap) (A : Ref → Prop) (h' : Heap) : Prop where
  layout : h'.layout = h.layout
  cells_le : h.cells.size ≤ h'.cells.size
  blocks_le : h.blocks.size ≤ h'.blocks.size
  cell : ∀ r, r.id < h.cells.size → ¬ A r → h'.cell r = h.cell r
  block : ∀ b, b.id < h.blocks.size → h'.block b = h.block b

namespace Edits

theorem trans (he : h.Edits A h₁) (he' : h₁.Edits B h₂)
    (hB : ∀ r, r.id < h.cells.size → B r → A r) : h.Edits A h₂ where
  layout := he'.layout.trans he.layout
  cells_le := he.cells_le.trans he'.cells_le
  blocks_le := he.blocks_le.trans he'.blocks_le
  cell := fun r hr hA =>
    (he'.cell r (hr.trans_le he.cells_le) fun hB' => hA (hB r hr hB')).trans (he.cell r hr hA)
  block := fun b hb => (he'.block b (hb.trans_le he.blocks_le)).trans (he.block b hb)

theorem setCell (he : h.Edits A h₁) (hr : A r) : h.Edits A (h₁.setCell r c) where
  layout := he.layout
  cells_le := by rw [cells_size_setCell]; exact he.cells_le
  blocks_le := he.blocks_le
  cell := fun x hx hA => by
    have hxr : x ≠ r := fun hxr => hA (hxr ▸ hr)
    rw [cell_setCell_of_ne _ _ hxr]
    exact he.cell x hx hA
  block := he.block

theorem alloc (he : h.Edits A h₁) (c : Cell) : h.Edits A (h₁.alloc c).2 where
  layout := he.layout
  cells_le := by rw [cells_size_alloc]; exact Nat.le_succ_of_le he.cells_le
  blocks_le := he.blocks_le
  cell := fun r hr hA => (cell_alloc_of_lt c (hr.trans_le he.cells_le)).trans (he.cell r hr hA)
  block := he.block

theorem allocBlock (he : h.Edits A h₁) (slots : Array Ref) :
    h.Edits A (h₁.allocBlock slots).2 where
  layout := he.layout
  cells_le := he.cells_le
  blocks_le := by rw [blocks_size_allocBlock]; exact Nat.le_succ_of_le he.blocks_le
  cell := he.cell
  block := fun b hb =>
    (block_allocBlock_of_lt slots (hb.trans_le he.blocks_le)).trans (he.block b hb)

theorem parts_of_cell_eq (he : h.Edits A h₁) (hs : h.Sound) (hcell : h₁.cell r = h.cell r) :
    h₁.parts r = h.parts r := by
  unfold parts
  rw [hcell]
  exact contents_congr fun ty b hb => he.block b (hs.storage_lt r ty b hb)

theorem parts_eq (he : h.Edits A h₁) (hs : h.Sound) (hr : r.id < h.cells.size) (hA : ¬ A r) :
    h₁.parts r = h.parts r :=
  he.parts_of_cell_eq hs (he.cell r hr hA)

end Edits

theorem Adjoins.edits (ha : h.Adjoins h₁) : h.Edits A h₁ where
  layout := ha.layout
  cells_le := ha.cells_le
  blocks_le := ha.blocks_le
  cell := fun r hr _ => ha.cell r hr
  block := ha.block

/-- The heap is sound, and only what the target reaches was edited. -/
structure Assigned (h : Heap) (t : Ref) (h' : Heap) : Prop where
  sound : h'.Sound
  edits : h.Edits (Reaches h.parts t) h'

namespace Assigned

theorem refl (hs : h.Sound) : h.Assigned t h :=
  ⟨hs, (Adjoins.refl h).edits⟩

/-- What is stored into a part is stored into the whole. -/
theorem of_part (ha : h.Assigned x h₁) (hx : x ∈ h.parts t) : h.Assigned t h₁ :=
  ⟨ha.sound, (Adjoins.refl h).edits.trans ha.edits fun _ _ hr => .head hx hr⟩

/-- A cell may be changed to one alike that contains nothing. -/
theorem setCell (hs : h₁.Sound) (ha : h.Adjoins h₁) (halike : (h₁.cell t).Alike c)
    (hc : c.Simple) : h.Assigned t (h₁.setCell t c) := by
  have hadmits := hc.admits h₁
  refine ⟨hs.setCell halike hadmits.number hadmits.nested hadmits.part_lt hadmits.nodup ?_,
    ha.edits.setCell .refl⟩
  rw [hc.contents h₁]
  exact nofun

end Assigned

/-! ## Part by part -/

/-- The parts of `t` before `rest` have been stored into; what is reached from
    those in `rest` has not changed yet. -/
structure Pending (h : Heap) (t : Ref) (rest : List Ref) (h' : Heap) : Prop
    extends Assigned h t h' where
  mem : ∀ x ∈ rest, x ∈ h.parts t
  nodup : rest.Nodup
  untouched : ∀ x ∈ rest, ∀ y, Reaches h.parts x y → h'.cell y = h.cell y

theorem Pending.start (hs : h.Sound) {l : List Ref} (hl : l <+: h.parts t) : h.Pending t l h where
  toAssigned := .refl hs
  mem := fun _ hx => hl.subset hx
  nodup := hl.sublist.nodup (hs.forest.nodup t)
  untouched := fun _ _ _ _ => rfl

theorem Pending.parts_eq {rest : List Ref} {y : Ref} (hp : h.Pending t rest h₁) (hs : h.Sound)
    (hx : x ∈ rest) (hy : Reaches h.parts x y) : h₁.parts y = h.parts y :=
  hp.edits.parts_of_cell_eq hs (hp.untouched x hx y hy)

/-- Storing into one part leaves alone what the others reach. -/
theorem Pending.step {rest : List Ref} (hp : h.Pending t (x :: rest) h₁) (hs : h.Sound)
    (ht : ¬ h.isSlot t) (ha : h₁.Assigned x h₂) : h.Pending t rest h₂ := by
  have hx : x ∈ x :: rest := List.mem_cons_self
  have hback : ∀ z, Reaches h₁.parts x z → Reaches h.parts x z := fun z hz =>
    Reaches.congr (fun _ hb => hp.parts_eq hs hx hb) hz
  constructor
  case toAssigned =>
    exact ⟨ha.sound, hp.edits.trans ha.edits fun r _ hr => .head (hp.mem x hx) (hback r hr)⟩
  case mem => exact fun y hy => hp.mem y (List.mem_cons_of_mem x hy)
  case nodup => exact (List.nodup_cons.1 hp.nodup).2
  case untouched =>
    intro y hy z hz
    have hy' : y ∈ x :: rest := List.mem_cons_of_mem x hy
    have hyx : y ≠ x := fun he => (List.nodup_cons.1 hp.nodup).1 (he ▸ hy)
    have hlt : z.id < h.cells.size := hs.lt_of_reaches (hs.part_lt t y (hp.mem y hy')) hz
    have hz' : ¬ Reaches h₁.parts x z := fun hxz =>
      hs.forest.disjoint_parts ht (hp.mem y hy') (hp.mem x hx) hyx hz (hback z hxz)
    rw [ha.edits.cell z (hlt.trans_le hp.edits.cells_le) hz']
    exact hp.untouched y hy' z hz

/-! ## What an update asks for -/

theorem isPrefix_map_fst_zip (l l' : List Ref) : (l.zip l').map Prod.fst <+: l := by
  induction l generalizing l' with
  | nil => exact List.prefix_rfl
  | cons a l ih =>
    cases l' with
    | nil => exact List.nil_prefix
    | cons b l' => exact List.cons_prefix_cons.2 ⟨rfl, ih l'⟩

theorem map_fst_fieldPairs {fs gs : List (String × Ref)} {pairs : List (Ref × Ref)}
    (hp : fieldPairs? fs gs = some pairs) : pairs.map Prod.fst = fs.map Prod.snd := by
  unfold fieldPairs? at hp
  induction fs generalizing pairs with
  | nil =>
    cases hp
    rfl
  | cons f fs ih =>
    simp only [List.mapM_cons, Option.bind_eq_bind, Option.bind_eq_some_iff, Option.pure_def,
      Option.some.injEq, Option.map_eq_some_iff] at hp
    obtain ⟨-, ⟨g, -, rfl⟩, rest, hrest, rfl⟩ := hp
    rw [List.map_cons, List.map_cons, ih hrest]

/-- The parts of the target are stored into in their order, each at most once. -/
theorem prefix_of_update {pairs : List (Ref × Ref)}
    (hu : h.update (h.cell t) c = .ok (.pairs pairs)) :
    pairs.map Prod.fst <+: h.parts t ∧ ¬ h.isSlot t := by
  unfold parts isSlot
  generalize h.cell t = target at hu ⊢
  unfold update at hu
  dsimp only at hu
  split at hu
  case h_8 =>
    split at hu <;> cases hu
    exact ⟨isPrefix_map_fst_zip .., id⟩
  case h_9 =>
    cases hu
    exact ⟨isPrefix_map_fst_zip .., id⟩
  case h_10 =>
    split at hu <;> cases hu
    rename_i hp
    exact ⟨map_fst_fieldPairs hp ▸ List.prefix_rfl, id⟩
  all_goals grind

/-- A number that is stored is in range. -/
theorem inRange_of_update {target : Cell} {p : Primitive}
    (hu : h.update target c = .ok (.primitive p)) : p.InRange := by
  unfold update at hu
  dsimp only at hu
  split at hu
  case h_1 => cases hu; exact Primitive.inRange_of ..
  case h_2 => cases hu; exact Primitive.inRange_of ..
  case h_3 =>
    split at hu <;> cases hu
    exact Primitive.inRange_of ..
  all_goals grind

end Heap

/-! ## Assignment -/

open Mem

variable {h h₁ : Heap} {r t x : Ref}

/-- However the computation ends, it has stored into `t` and nothing else. -/
def Mem.Assigns {α : Type} (t : Ref) (x : Mem α) (h : Heap) : Prop :=
  Ends x h (fun _ => h.Assigned t) fun _ => h.Assigned t

theorem assigns_setPlace (hs : h₁.Sound) (ha : h.Adjoins h₁) (b : BlockRef) (offset : Int64)
    {E : Halt → Heap → Prop} : Ends (setPlace t b offset) h₁ (fun _ => h.Assigned t) E := by
  refine ends_change.2 ?_
  split
  · rename_i p hc
    exact .setCell hs ha (hc ▸ .pointer rfl) trivial
  · exact ⟨hs, ha.edits⟩

theorem assigns_empty (hs : h.Sound) (t : Ref) : Assigns t (setContent t none) h := by
  refine ends_change.2 ?_
  split
  · rename_i ty content hc
    exact .setCell hs (.refl h) (hc ▸ .slot ty content none) trivial
  · exact .refl hs

/-- What was made since does not lead back to a slot that was there. -/
theorem assigns_content (hm : h.Made (fun r => [r]) (¬ ·.IsSlot) x h₁) (ht : (h.cell t).IsSlot)
    {E : Halt → Heap → Prop} : Ends (setContent t (some x)) h₁ (fun _ => h.Assigned t) E := by
  have hold : t.id < h.cells.size := Heap.lt_of_isSlot ht
  have hx : x ∈ [x] := List.mem_singleton_self x
  refine ends_change.2 ?_
  split
  · rename_i ty content hc
    refine ⟨hm.sound.setCell (hc ▸ .slot ty content (some x)) nofun ?_ hm.fresh.lt hm.fresh.nodup ?_,
      hm.adjoins.edits.setCell .refl⟩
    · rintro _ _ ⟨⟩
      exact hm.kind x hx
    · intro y hy
      refine .inr ⟨hm.fresh.solo y hy, fun hreach => ?_⟩
      exact absurd hold (Nat.not_lt_of_le (hm.adjoins.le_of_reaches (hm.fresh.new y hy) hreach))
  · exact ⟨hm.sound, hm.adjoins.edits⟩

theorem assigns_fill (hs : h.Sound) (ht : (h.cell t).IsSlot) (declared : Ty) (source : Ref) :
    Assigns t (fill t declared source) h := by
  refine ends_bind.2 (ends_read.2 ?_)
  dsimp only
  split
  · exact .refl hs
  · rename_i habsent
    have hcopy : MakesOne (¬ ·.IsSlot) (copyForBinding source) h :=
      (makes_copyForBinding hs source).mono fun c hc hslot => hs.not_isSlot_flatten habsent (hc hslot)
    have hcast : ∀ fresh h₁, h.Made (fun r => [r]) (¬ ·.IsSlot) fresh h₁ →
        Ends (castTo fresh declared >>= fun fresh => setContent t (some fresh)) h₁
          (fun _ => h.Assigned t) fun _ => h.Assigned t := by
      intro fresh h₁ hm
      refine ends_bind.2 (Ends.mono (makes_castTo hm.sound fresh declared) ?_ ?_)
      · intro x h₂ hm₂
        have ha := hm.adjoins.trans hm.sound hm₂.adjoins
        have hnew : ∀ y ∈ [x], h.cells.size ≤ y.id := fun y hy =>
          hm.adjoins.cells_le.trans (hm₂.fresh.new y hy)
        exact assigns_content ⟨hm₂.sound, ha, { hm₂.fresh with new := hnew }, hm₂.kind⟩ ht
      · intro _ h₂ hE
        exact ⟨hE.1, (hm.adjoins.trans hm.sound hE.2).edits⟩
    refine ends_bind.2 (Ends.mono hcopy (fun fresh h₁ hm => ?_) fun _ _ hE => ⟨hE.1, hE.2.edits⟩)
    split
    · exact assigns_content hm ht
    · exact hcast fresh h₁ hm
    · exact hcast fresh h₁ hm
    · exact assigns_content hm ht

/-- Storing into the parts of a value one after another is storing into it. -/
theorem ends_forM_assigns {l : List (Ref × Ref)} {g : Ref × Ref → Mem PUnit} (hs : h.Sound)
    (ht : ¬ h.isSlot t) (hg : ∀ p ∈ l, ∀ h₂ : Heap, h₂.Sound → Assigns p.1 (g p) h₂)
    (hp : h.Pending t (l.map Prod.fst) h₁) :
    Ends (l.forM g) h₁ (fun _ => h.Assigned t) fun _ => h.Assigned t := by
  induction l generalizing h₁ with
  | nil => exact hp.toAssigned
  | cons p l ih =>
    refine ends_bind.2 (Ends.mono (hg p (by simp) h₁ hp.sound) ?_ ?_)
    · intro _ h₂ ha
      exact ih (fun q hq => hg q (by simp [hq])) (hp.step hs ht ha)
    · intro _ h₂ ha
      exact (hp.step hs ht ha).toAssigned

theorem assigns_assignWithin (fuel : Nat) (t source : Ref) (hs : h.Sound) :
    Assigns t (assignWithin fuel t source) h := by
  induction fuel generalizing h t source with
  | zero => exact .refl hs
  | succ fuel ih =>
    refine ends_bind.2 (ends_read.2 ?_)
    dsimp only
    split
    · exact .refl hs
    refine ends_bind.2 (ends_read.2 ?_)
    split
    · rename_i ty content hc
      have hpart : content ∈ h.parts t := by
        unfold Heap.parts
        rw [hc]
        exact List.mem_singleton_self content
      exact Ends.mono (ih _ _ hs) (fun _ _ ha => ha.of_part hpart) fun _ _ ha => ha.of_part hpart
    · rename_i declared hc
      exact assigns_fill hs (hc ▸ trivial) declared _
    · refine ends_bind.2 (ends_read.2 (ends_bind.2 (ends_answer.2 ?_)))
      cases hu : h.update (h.cell t) (h.cell (h.flatten source)) with
      | error c => exact .refl hs
      | ok u =>
        cases u with
        | nothing => exact .refl hs
        | primitive p =>
          exact .setCell hs (.refl h) (h.alike_of_update hu) (Heap.inRange_of_update hu)
        | place b offset => exact assigns_setPlace hs (.refl h) b offset
        | null =>
          have hempty : (h.allocBlock #[]).2.Sound :=
            hs.allocBlock fun x hx => absurd hx (Array.not_mem_empty x)
          refine ends_bind.2 (ends_allocBlock.2 ?_)
          exact assigns_setPlace hempty (.allocBlock (.refl h) hs #[]) _ 0
        | pairs pairs =>
          obtain ⟨hfirst, hslot⟩ := Heap.prefix_of_update hu
          refine ends_forM_assigns hs hslot (fun p _ h₂ hs₂ => ?_) (.start hs hfirst)
          refine ends_bind.2 (ends_read.2 ?_)
          split
          · exact assigns_empty hs₂ p.1
          · exact ih p.1 p.2 hs₂

theorem assigns_assign (hs : h.Sound) (t source : Ref) : Assigns t (assign t source) h :=
  ends_bind.2 (ends_read.2 (assigns_assignWithin _ t source hs))

end Treewalk
