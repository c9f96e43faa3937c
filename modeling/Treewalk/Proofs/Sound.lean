/-
  The invariant of the heap.

  * `Heap.parts h r`: what the value `r` contains: the slots of an array, the
    content of a slot, the fields of a compound. Pointers contain nothing;
  * `Heap.Grounded h`: nothing refers outside the heap, and nothing contains
    itself;
  * `Heap.Sound h`: numbers are in range, no slot holds a slot, blocks hold slots
    and compounds only, nothing refers outside the heap, and containment is a
    forest;
  * every elementary change keeps a sound heap sound, under conditions that say
    what it may put where (`Sound.alloc`, `Sound.allocBlock`, `Sound.setCell`,
    `Sound.setSlot`).
-/
import Treewalk.Proofs.Forest
import Treewalk.Proofs.Ranges
import Treewalk.Proofs.Retains

namespace Treewalk

/-- Is the cell a compound? -/
def Cell.IsCompound : Cell → Prop
  | .compound .. => True
  | _ => False

theorem Cell.Alike.isCompound_iff {c c' : Cell} (h : c.Alike c') :
    c'.IsCompound ↔ c.IsCompound := by
  cases h <;> exact Iff.rfl

namespace Heap

/-! ## Parts -/

/-- What a cell contains. -/
def contents (h : Heap) : Cell → List Ref
  | .array _ b => (h.block b).toList
  | .slot _ (some x) => [x]
  | .compound _ fields => fields.map Prod.snd
  | _ => []

/-- What a value contains. -/
def parts (h : Heap) (r : Ref) : List Ref :=
  h.contents (h.cell r)

/-- Is the value a slot? -/
def isSlot (h : Heap) (r : Ref) : Prop :=
  (h.cell r).IsSlot

variable {h : Heap} {r x : Ref} {c : Cell}

theorem parts_of_cell (hc : h.cell r = c) : h.parts r = h.contents c :=
  congrArg h.contents hc

theorem contents_congr {h' : Heap} (hb : ∀ ty b, c = .array ty b → h'.block b = h.block b) :
    h'.contents c = h.contents c := by
  cases c with
  | array ty b => exact congrArg Array.toList (hb ty b rfl)
  | slot ty content => cases content <;> rfl
  | _ => rfl

theorem parts_alloc :
    (h.alloc c).2.parts x = if x.id = h.cells.size then h.contents c else h.parts x := by
  unfold parts
  rw [cell_alloc]
  split <;> exact contents_congr fun _ _ _ => rfl

theorem parts_setCell :
    (h.setCell r c).parts x = if x = r ∧ r.id < h.cells.size then h.contents c else h.parts x := by
  unfold parts
  rw [cell_setCell]
  split <;> exact contents_congr fun _ _ _ => rfl

/-- A change of one place brings nothing into a block but what is put there. -/
theorem mem_parts_setSlot {b : BlockRef} {i : Nat} {a y : Ref}
    (hy : y ∈ (h.setSlot b i x).parts a) : y ∈ h.parts a ∨ y = x := by
  unfold parts at hy ⊢
  rw [cell_setSlot] at hy
  by_cases ha : ∃ ty, h.cell a = .array ty b
  · obtain ⟨ty, ha⟩ := ha
    rw [ha] at hy ⊢
    change y ∈ ((h.setSlot b i x).block b).toList at hy
    rw [block_setSlot, if_pos rfl, Array.toList_setIfInBounds] at hy
    exact List.mem_or_eq_of_mem_set hy
  · have hsame : (h.setSlot b i x).contents (h.cell a) = h.contents (h.cell a) := by
      refine contents_congr fun ty b' hb' => ?_
      rw [block_setSlot, if_neg]
      rintro rfl
      exact ha ⟨ty, hb'⟩
    exact .inl (hsame ▸ hy)

/-- A cell that is not there contains nothing. -/
theorem parts_of_le (hr : h.cells.size ≤ r.id) : h.parts r = [] := by
  unfold parts
  rw [cell_of_le hr]
  rfl

theorem lt_of_mem_parts (hx : x ∈ h.parts r) : r.id < h.cells.size := by
  by_contra hle
  rw [parts_of_le (Nat.le_of_not_lt hle)] at hx
  cases hx

theorem lt_of_isSlot (hr : (h.cell r).IsSlot) : r.id < h.cells.size :=
  lt_of_cell_ne fun he => by rw [he] at hr; exact hr

theorem lt_of_isCompound (hr : (h.cell r).IsCompound) : r.id < h.cells.size :=
  lt_of_cell_ne fun he => by rw [he] at hr; exact hr

end Heap

/-! ## Grounded heaps -/

/-- Nothing refers outside the heap, and nothing contains itself. -/
structure Heap.Grounded (h : Heap) : Prop where
  part_lt : ∀ r, ∀ x ∈ h.parts r, x.id < h.cells.size
  storage_lt : ∀ r ty b, h.cell r = .array ty b → b.id < h.blocks.size
  wf : WellFounded fun x a => x ∈ h.parts a

namespace Heap.Grounded

variable {h : Heap} {r x : Ref} {c : Cell}

theorem lt_of_reaches (hg : h.Grounded) (hr : r.id < h.cells.size) (hx : Reaches h.parts r x) :
    x.id < h.cells.size := by
  rcases hx.cases_tail with rfl | ⟨c, -, hc⟩
  · exact hr
  · exact hg.part_lt c x hc

/-- Nothing is nested deeper than a copy follows. -/
theorem shallow (hg : h.Grounded) (r : Ref) : Shallow h.parts h.levels r :=
  .of_wf hg.wf hg.part_lt r

theorem alloc (hg : h.Grounded) (hc : ∀ x ∈ h.contents c, x.id < h.cells.size)
    (hb : ∀ ty b, c = .array ty b → b.id < h.blocks.size) : (h.alloc c).2.Grounded where
  part_lt := fun r x hx => by
    rw [cells_size_alloc]
    rw [parts_alloc] at hx
    split at hx
    · exact Nat.lt_succ_of_lt (hc x hx)
    · exact Nat.lt_succ_of_lt (hg.part_lt r x hx)
  storage_lt := fun r ty b hr => by
    rw [cell_alloc] at hr
    split at hr
    · exact hb ty b hr
    · exact hg.storage_lt r ty b hr
  wf := by
    refine wf_update hg.wf (r := ⟨h.cells.size⟩) (fun a ha => ?_) fun x hx hreach => ?_
    · rw [parts_alloc, if_neg fun hid => ha (Ref.ext_id hid)]
    · rw [parts_alloc, if_pos rfl] at hx
      exact absurd (hg.lt_of_reaches (hc x hx) hreach) (Nat.lt_irrefl _)

/-- A new block changes nothing for the values that are there. -/
theorem parts_allocBlock (hg : h.Grounded) (slots : Array Ref) :
    (h.allocBlock slots).2.parts = h.parts := by
  funext a
  refine contents_congr fun ty b hb => ?_
  exact block_allocBlock_of_lt slots (hg.storage_lt a ty b hb)

theorem allocBlock (hg : h.Grounded) (slots : Array Ref) : (h.allocBlock slots).2.Grounded where
  part_lt := by rw [hg.parts_allocBlock]; exact hg.part_lt
  storage_lt := fun r ty b hr => by
    rw [blocks_size_allocBlock]
    exact Nat.lt_succ_of_lt (hg.storage_lt r ty b hr)
  wf := by rw [hg.parts_allocBlock]; exact hg.wf

/-- A cell may change to one whose parts do not lead back to it. -/
theorem setCell (hg : h.Grounded) (hc : ∀ x ∈ h.contents c, x.id < h.cells.size)
    (hb : ∀ ty b, c = .array ty b → b.id < h.blocks.size)
    (hr : ∀ x ∈ h.contents c, ¬ Reaches h.parts x r) : (h.setCell r c).Grounded where
  part_lt := fun a x hx => by
    rw [cells_size_setCell]
    rw [parts_setCell] at hx
    split at hx
    · exact hc x hx
    · exact hg.part_lt a x hx
  storage_lt := fun a ty b ha => by
    rw [cell_setCell] at ha
    split at ha
    · exact hb ty b ha
    · exact hg.storage_lt a ty b ha
  wf := by
    refine wf_update hg.wf (r := r) (fun a ha => ?_) fun x hx => ?_
    · rw [parts_setCell, if_neg fun hx => ha hx.1]
    · rw [parts_setCell] at hx
      split at hx
      · exact hr x hx
      · exact not_reaches_of_wf hg.wf hx

/-- A value that contains nothing may take a place in a block. -/
theorem setSlot (hg : h.Grounded) {b : BlockRef} {i : Nat} (hx : x.id < h.cells.size)
    (hleaf : (h.setSlot b i x).parts x = []) : (h.setSlot b i x).Grounded where
  part_lt := fun a y hy => by
    rcases mem_parts_setSlot hy with hy | rfl
    · exact hg.part_lt a y hy
    · exact hx
  storage_lt := fun a ty b' ha => by
    rw [blocks_size_setSlot]
    exact hg.storage_lt a ty b' ha
  wf := by
    refine wf_of_leaves hg.wf fun a y hy => ?_
    rcases mem_parts_setSlot hy with hy | rfl
    · exact .inl hy
    · exact .inr hleaf

end Heap.Grounded

/-! ## Sound heaps -/

/-- Values are well formed, and containment is a forest. -/
structure Heap.Sound (h : Heap) : Prop where
  number : ∀ r p, h.cell r = .primitive p → p.InRange
  nested : ∀ r ty x, h.cell r = .slot ty (some x) → ¬ (h.cell x).IsSlot
  entry : ∀ b, ∀ x ∈ h.block b, (h.cell x).IsSlot ∨ (h.cell x).IsCompound
  part_lt : ∀ r, ∀ x ∈ h.parts r, x.id < h.cells.size
  storage_lt : ∀ r ty b, h.cell r = .array ty b → b.id < h.blocks.size
  forest : Forest h.parts h.isSlot

/-- The cell may be added to the heap: what it contains is there, and contained
    in nothing else unless the cell is a slot. -/
structure Heap.Admits (h : Heap) (c : Cell) : Prop where
  number : ∀ p, c = .primitive p → p.InRange
  nested : ∀ ty x, c = .slot ty (some x) → ¬ (h.cell x).IsSlot
  storage_lt : ∀ ty b, c = .array ty b → b.id < h.blocks.size
  part_lt : ∀ x ∈ h.contents c, x.id < h.cells.size
  nodup : (h.contents c).Nodup
  solo : c.IsSlot ∨ ∀ x ∈ h.contents c, Solo h.parts x

/-- A cell that contains nothing, a number in range if it is one. -/
theorem Heap.Admits.of_contents {h : Heap} {c : Cell} (hc : h.contents c = [])
    (hn : ∀ p, c = .primitive p → p.InRange) (ha : ∀ ty b, c ≠ .array ty b) : h.Admits c where
  number := hn
  nested := fun ty x he => by rw [he] at hc; cases hc
  storage_lt := fun ty b he => absurd he (ha ty b)
  part_lt := fun x hx => by rw [hc] at hx; cases hx
  nodup := by rw [hc]; exact List.nodup_nil
  solo := .inr fun x hx => by rw [hc] at hx; cases hx

namespace Heap.Sound

variable {h : Heap} {r x : Ref} {c : Cell}

theorem empty {layout : Layout} : Heap.Sound { layout } where
  number := fun r p hp => by
    rw [cell_of_le (Nat.zero_le _)] at hp
    cases hp
    exact Primitive.inRange_of ..
  nested := fun r ty x hr => by
    rw [cell_of_le (Nat.zero_le _)] at hr
    cases hr
  entry := fun b x hx => by
    rw [block_of_le (Nat.zero_le _)] at hx
    exact absurd hx (Array.not_mem_empty x)
  part_lt := fun r x hx => absurd (lt_of_mem_parts hx) (Nat.not_lt_zero _)
  storage_lt := fun r ty b hr => by
    rw [cell_of_le (Nat.zero_le _)] at hr
    cases hr
  forest :=
    { wf := ⟨fun a => ⟨a, fun x hx => absurd (lt_of_mem_parts hx) (Nat.not_lt_zero _)⟩⟩
      nodup := fun a => by rw [parts_of_le (Nat.zero_le _)]; exact List.nodup_nil
      owner := fun hx _ => absurd (lt_of_mem_parts hx) (Nat.not_lt_zero _) }

theorem entry_lt (hh : h.Sound) {b : BlockRef} (hx : x ∈ h.block b) : x.id < h.cells.size :=
  (hh.entry b x hx).elim lt_of_isSlot lt_of_isCompound

theorem grounded (hh : h.Sound) : h.Grounded :=
  ⟨hh.part_lt, hh.storage_lt, hh.forest.wf⟩

theorem lt_of_reaches (hh : h.Sound) (hr : r.id < h.cells.size) (hx : Reaches h.parts r x) :
    x.id < h.cells.size :=
  hh.grounded.lt_of_reaches hr hx

/-- What is not there yet is contained in nothing. -/
theorem not_mem_parts_of_le (hh : h.Sound) (hx : h.cells.size ≤ x.id) (r : Ref) : x ∉ h.parts r :=
  fun hm => absurd (hh.part_lt r x hm) (Nat.not_lt_of_le hx)

/-- The content of a slot is no slot, so looking through slots once is enough. -/
theorem not_isSlot_flatten (hh : h.Sound) (hr : ¬ h.isAbsent r) :
    ¬ (h.cell (h.flatten r)).IsSlot := by
  unfold flatten
  unfold isAbsent at hr
  split
  · rename_i ty x hx
    exact hh.nested r ty x hx
  · rename_i hx
    intro hs
    cases hc : h.cell r with
    | slot ty content =>
      cases content with
      | none => rw [hc] at hr; exact hr rfl
      | some x => exact hx ty x hc
    | _ => rw [hc] at hs; exact hs

theorem flatten_lt (hh : h.Sound) (hr : r.id < h.cells.size) : (h.flatten r).id < h.cells.size := by
  unfold flatten
  split
  · rename_i ty x hx
    refine hh.part_lt r x ?_
    unfold parts
    rw [hx]
    exact List.mem_singleton_self x
  · exact hr

/-! ## Elementary changes -/

theorem alloc (hh : h.Sound) (hc : h.Admits c) : (h.alloc c).2.Sound := by
  have hparts : ∀ a : Ref, a ≠ ⟨h.cells.size⟩ → (h.alloc c).2.parts a = h.parts a := fun a ha => by
    rw [parts_alloc, if_neg fun hid => ha (Ref.ext_id hid)]
  have hnew : (h.alloc c).2.parts ⟨h.cells.size⟩ = h.contents c := by
    rw [parts_alloc, if_pos rfl]
  have hcell : ∀ a : Ref, a.id < h.cells.size → (h.alloc c).2.cell a = h.cell a := fun a ha =>
    cell_alloc_of_lt c ha
  constructor
  case number =>
    intro r p hp
    rw [cell_alloc] at hp
    split at hp
    · exact hc.number p hp
    · exact hh.number r p hp
  case nested =>
    intro r ty x hr
    rw [cell_alloc] at hr
    have hx : x.id < h.cells.size ∧ ¬ (h.cell x).IsSlot := by
      split at hr
      · subst hr
        exact ⟨hc.part_lt x (List.mem_singleton_self x), hc.nested ty x rfl⟩
      · refine ⟨hh.part_lt r x ?_, hh.nested r ty x hr⟩
        unfold parts
        rw [hr]
        exact List.mem_singleton_self x
    rw [hcell x hx.1]
    exact hx.2
  case entry =>
    intro b x hx
    rw [hcell x (hh.entry_lt hx)]
    exact hh.entry b x hx
  case part_lt => exact (hh.grounded.alloc hc.part_lt hc.storage_lt).part_lt
  case storage_lt => exact (hh.grounded.alloc hc.part_lt hc.storage_lt).storage_lt
  case forest =>
    refine hh.forest.update (r := ⟨h.cells.size⟩) hparts (fun a ha => ?_) (fun hs => ?_) ?_ ?_ ?_
    · unfold isSlot
      rw [cell_alloc, if_neg fun hid => ha (Ref.ext_id hid)]
    · exact absurd (lt_of_isSlot hs) (Nat.lt_irrefl _)
    · rw [hnew]
      exact hc.nodup
    · intro x hx hreach
      rw [hnew] at hx
      exact absurd (hh.lt_of_reaches (hc.part_lt x hx) hreach) (Nat.lt_irrefl _)
    · intro x hx
      rw [hnew] at hx
      rcases hc.solo with hs | hs
      · refine .inr (.inr ⟨?_, hh.not_mem_parts_of_le (Nat.le_refl _), ?_⟩)
        · unfold isSlot
          rw [cell_alloc, if_pos rfl]
          exact hs
        · cases c with
          | slot ty content =>
            cases content with
            | none => cases hx
            | some y => exact List.mem_singleton.1 hx ▸ hc.nested ty y rfl
          | _ => exact hs.elim
      · exact .inr (.inl (hs x hx))

theorem parts_allocBlock (hh : h.Sound) (slots : Array Ref) :
    (h.allocBlock slots).2.parts = h.parts :=
  hh.grounded.parts_allocBlock slots

theorem allocBlock (hh : h.Sound) {slots : Array Ref}
    (hs : ∀ x ∈ slots, (h.cell x).IsSlot ∨ (h.cell x).IsCompound) :
    (h.allocBlock slots).2.Sound where
  number := hh.number
  nested := hh.nested
  entry := fun b x hx => by
    rw [block_allocBlock] at hx
    split at hx
    · exact hs x hx
    · exact hh.entry b x hx
  part_lt := (hh.grounded.allocBlock slots).part_lt
  storage_lt := (hh.grounded.allocBlock slots).storage_lt
  forest := by rw [hh.parts_allocBlock]; exact hh.forest

/-- A cell that stays alike may change what it contains: to parts it had, or to
    parts that nothing contains and that do not lead back to it. -/
theorem setCell (hh : h.Sound) (ha : (h.cell r).Alike c) (hn : ∀ p, c = .primitive p → p.InRange)
    (hs : ∀ ty x, c = .slot ty (some x) → ¬ (h.cell x).IsSlot)
    (hlt : ∀ x ∈ h.contents c, x.id < h.cells.size) (hnodup : (h.contents c).Nodup)
    (hnew : ∀ x ∈ h.contents c, x ∈ h.parts r ∨ Solo h.parts x ∧ ¬ Reaches h.parts x r) :
    (h.setCell r c).Sound := by
  have hslot : ∀ a, (h.setCell r c).isSlot a ↔ h.isSlot a := fun a => by
    unfold isSlot
    rw [cell_setCell]
    split
    · rename_i har
      rw [har.1]
      exact ha.isSlot_iff
    · exact Iff.rfl
  have hcompound : ∀ a, ((h.setCell r c).cell a).IsCompound ↔ (h.cell a).IsCompound := fun a => by
    rw [cell_setCell]
    split
    · rename_i har
      rw [har.1]
      exact ha.isCompound_iff
    · exact Iff.rfl
  constructor
  case number =>
    intro a p hp
    rw [cell_setCell] at hp
    split at hp
    · exact hn p hp
    · exact hh.number a p hp
  case nested =>
    intro a ty x hx
    rw [cell_setCell] at hx
    rw [show ((h.setCell r c).cell x).IsSlot ↔ (h.cell x).IsSlot from hslot x]
    split at hx
    · exact hs ty x hx
    · exact hh.nested a ty x hx
  case entry =>
    intro b x hx
    rw [show ((h.setCell r c).cell x).IsSlot ↔ (h.cell x).IsSlot from hslot x, hcompound]
    exact hh.entry b x hx
  case part_lt =>
    intro a x hx
    rw [cells_size_setCell]
    rw [parts_setCell] at hx
    split at hx
    · exact hlt x hx
    · exact hh.part_lt a x hx
  case storage_lt =>
    intro a ty b hb
    rw [cell_setCell] at hb
    split at hb
    · subst hb
      generalize hc : h.cell r = d at ha
      cases ha
      exact hh.storage_lt r ty b hc
    · exact hh.storage_lt a ty b hb
  case forest =>
    refine hh.forest.update (r := r) (fun a har => ?_) (fun a _ => hslot a) (hslot r).2 ?_ ?_ ?_
    · rw [parts_setCell, if_neg fun hx => har hx.1]
    · rw [parts_setCell]
      split
      · exact hnodup
      · exact hh.forest.nodup r
    · intro x hx
      rw [parts_setCell] at hx
      split at hx
      · rcases hnew x hx with h' | h'
        · exact hh.forest.not_reaches h'
        · exact h'.2
      · exact hh.forest.not_reaches hx
    · intro x hx
      rw [parts_setCell] at hx
      split at hx
      · rcases hnew x hx with h' | h'
        · exact .inl h'
        · exact .inr (.inl h'.1)
      · exact .inl hx

/-- At most one array has a block in which something stands. -/
theorem array_unique (hh : h.Sound) {b : BlockRef} (hx : x ∈ h.block b) {a a' : Ref} {ty ty' : Ty}
    (ha : h.cell a = .array ty b) (ha' : h.cell a' = .array ty' b) : a = a' := by
  have hpart : ∀ a ty, h.cell a = .array ty b → x ∈ h.parts a ∧ ¬ h.isSlot a := by
    intro a ty ha
    unfold parts isSlot
    rw [ha]
    exact ⟨Array.mem_toList_iff.2 hx, id⟩
  rcases hh.forest.owner (hpart a ty ha).1 (hpart a' ty' ha').1 with h | h | h
  · exact h
  · exact absurd h.1 (hpart a ty ha).2
  · exact absurd h.1 (hpart a' ty' ha').2

/-- A value that nothing contains may take a place in a block. -/
theorem setSlot (hh : h.Sound) {b : BlockRef} {i : Nat} (hr : (h.block b)[i]? = some r)
    (hx : (h.cell x).IsSlot ∨ (h.cell x).IsCompound) (hsolo : Solo h.parts x)
    (hleaf : h.parts x = []) : (h.setSlot b i x).Sound := by
  have hmem : r ∈ h.block b := Array.mem_of_getElem? hr
  have hplace : ∀ y ∈ (h.block b).toList.set i x, y ∈ (h.block b).toList ∨ y = x := fun y hy =>
    List.mem_or_eq_of_mem_set hy
  have harray : ∀ a ty, h.cell a = .array ty b →
      (h.setSlot b i x).parts a = (h.block b).toList.set i x := by
    intro a ty ha
    unfold parts
    rw [cell_setSlot, ha]
    show ((h.setSlot b i x).block b).toList = _
    rw [block_setSlot, if_pos rfl, Array.toList_setIfInBounds]
  have hother : ∀ a, (∀ ty, h.cell a ≠ .array ty b) → (h.setSlot b i x).parts a = h.parts a := by
    intro a ha
    refine contents_congr fun ty b' hb' => ?_
    rw [block_setSlot, if_neg]
    rintro rfl
    exact ha ty hb'
  have hparts : ∀ a, ∀ y ∈ (h.setSlot b i x).parts a, y ∈ h.parts a ∨ y = x := fun _ _ =>
    mem_parts_setSlot
  have hxlt : x.id < h.cells.size := hx.elim lt_of_isSlot lt_of_isCompound
  constructor
  case number => exact hh.number
  case nested => exact hh.nested
  case entry =>
    intro b' y hy
    rw [block_setSlot] at hy
    split at hy
    · rcases hplace y (by rw [← Array.toList_setIfInBounds]; exact Array.mem_toList_iff.2 hy) with h' | rfl
      · exact hh.entry b y (Array.mem_toList_iff.1 h')
      · exact hx
    · exact hh.entry b' y hy
  case part_lt =>
    intro a y hy
    rcases hparts a y hy with h' | rfl
    · exact hh.part_lt a y h'
    · exact hxlt
  case storage_lt =>
    intro a ty b' hb'
    rw [blocks_size_setSlot]
    exact hh.storage_lt a ty b' hb'
  case forest =>
    by_cases ha : ∃ a ty, h.cell a = .array ty b
    · obtain ⟨a, ty, ha⟩ := ha
      refine hh.forest.update (r := a) (fun a' haa' => ?_) (fun _ _ => Iff.rfl) id ?_ ?_ ?_
      · exact hother a' fun ty' ha' => haa' (hh.array_unique hmem ha' ha)
      · have hp : h.parts a = (h.block b).toList := by unfold parts; rw [ha]; rfl
        rw [harray a ty ha, ← hp]
        exact (hh.forest.nodup a).set (hsolo.1 a)
      · intro y hy hreach
        rcases hparts a y hy with h' | rfl
        · exact hh.forest.not_reaches h' hreach
        · rcases hreach.cases_head with rfl | ⟨z, hz, -⟩
          · rw [ha] at hx
            exact hx.elim id id
          · rw [hleaf] at hz
            cases hz
      · intro y hy
        rcases hparts a y hy with h' | rfl
        · exact .inl h'
        · exact .inr (.inl hsolo)
    · have hsame : (h.setSlot b i x).parts = h.parts :=
        funext fun a => hother a fun ty hty => ha ⟨a, ty, hty⟩
      rw [hsame]
      exact hh.forest

end Heap.Sound

end Treewalk
