/-
  Storing a part of an array into the array itself.

  The slots of the source are slots of the target, and every one is stored before
  it is read again only if the order is right.

  * `Heap.Row h ty slots`: slots of one type, each with a number or pointer of its
    own, or with nothing, as the slots of an array are (`Heap.Sound.row`);
  * `Heap.Shifted h ty slots pairs h'`: the first slot of each pair shows what the
    second did, and nothing else has changed;
  * `assign_overlapping`: an array takes the values from a pointer into it on as if
    these had all been read first.
-/
import Treewalk.Proofs.Stored

namespace Treewalk

open Mem

variable {h h₁ h' : Heap} {r s t x y : Ref} {ty : Ty} {c : Cell} {slots : List Ref}

/-! ## Numbers and pointers of a type -/

/-- A number or pointer of the type. -/
def Cell.Fits (ty : Ty) : Cell → Prop
  | .primitive n => ty.unqualified = .primitive n.kind n.unsigned ∧ n.kind ≠ .void ∧ n.InRange
  | .pointer q => ty.unqualified = .pointer q.target
  | _ => False

namespace Cell.Fits

theorem isScalar (hc : c.Fits ty) : ty.IsScalar := by
  cases c with
  | primitive n => exact Ty.isScalar_iff.2 (.inl ⟨_, _, hc.1, hc.2.1⟩)
  | pointer q => exact Ty.isScalar_iff.2 (.inr ⟨_, hc⟩)
  | array | slot | compound => exact hc.elim

theorem not_isSlot (hc : c.Fits ty) : ¬ c.IsSlot := by
  cases c with
  | slot => exact hc.elim
  | primitive | pointer | array | compound => exact id

theorem casted (hc : c.Fits ty) : h.casted c ty = .ok (.cell c) := by
  cases c with
  | primitive n =>
    obtain ⟨hty, hk, hn⟩ := hc
    rw [Heap.casted_number hty hk]
    dsimp only
    rw [Primitive.fits_of_inRange hn]
  | pointer q => exact Heap.casted_pointer hc _
  | array | slot | compound => exact hc.elim

theorem flatten (hc : (h.cell x).Fits ty) : h.flatten x = x := by
  unfold Heap.flatten
  cases hx : h.cell x with
  | slot =>
    rw [hx] at hc
    exact hc.elim
  | primitive | pointer | array | compound => rfl

theorem isLeaf (hc : c.Fits ty) : c.IsLeaf := by
  cases c with
  | primitive | pointer => trivial
  | array | slot | compound => exact hc.elim

/-- Stored into an empty slot of the type, it is there in a new cell. -/
theorem fill (hc : (h.cell x).Fits ty) (ht : h.cell t = .slot ty none) :
    fill t ty x h = .ok () (((h.alloc (h.cell x)).2.alloc (h.cell x)).2.setCell t
      (.slot ty (some ⟨h.cells.size + 1⟩))) := by
  have hpresent : ¬ h.isAbsent x := Heap.not_isAbsent_of_not_isSlot hc.not_isSlot
  have hlt : t.id < h.cells.size := Heap.lt_of_cell_ne (by rw [ht]; exact nofun)
  have hnew : (h.alloc (h.cell x)).2.cell ⟨h.cells.size⟩ = h.cell x := Heap.cell_alloc_new h _
  have hcast : castTo ⟨h.cells.size⟩ ty (h.alloc (h.cell x)).2 =
      .ok ⟨h.cells.size + 1⟩ ((h.alloc (h.cell x)).2.alloc (h.cell x)).2 := by
    have hflat : (h.alloc (h.cell x)).2.flatten ⟨h.cells.size⟩ = ⟨h.cells.size⟩ :=
      Cell.Fits.flatten (hnew.symm ▸ hc)
    unfold castTo
    rw [read_bind, hflat, hnew, hc.casted]
    exact congrArg (fun i => EStateM.Result.ok (Ref.mk i) _) (Heap.cells_size_alloc ..)
  rw [fill_scalar hc.isScalar hpresent]
  simp only [bind, EStateM.bind, copyForBinding_leaf hc.isLeaf, hcast]
  have hcell : ((h.alloc (h.cell x)).2.alloc (h.cell x)).2.cell t = .slot ty none := by
    rw [Heap.cell_alloc_of_lt _ (by rw [Heap.cells_size_alloc]; omega), Heap.cell_alloc_of_lt _ hlt, ht]
  unfold setContent change
  dsimp only
  rw [hcell]

/-- Stored into another of the type, it takes the place of that. -/
theorem assignWithin {k : Nat} (hx : (h.cell x).Fits ty) (hy : (h.cell y).Fits ty) (hne : x ≠ y) :
    assignWithin (k + 1) x y h = .ok () (h.setCell x (h.cell y)) := by
  rw [assignWithin_bare hx.not_isSlot (by rwa [hy.flatten]), hy.flatten]
  cases hcx : h.cell x with
  | primitive m =>
    rw [hcx] at hx
    cases hcy : h.cell y with
    | primitive n =>
      rw [hcy] at hy
      obtain ⟨hk, hu⟩ := Ty.primitive.inj (hx.1.symm.trans hy.1)
      have hn : n.converted m.kind m.unsigned = n := by
        rw [hk, hu]
        exact Primitive.fits_of_inRange hy.2.2
      simp only [Heap.update, hn]
      rfl
    | pointer q =>
      rw [hcy] at hy
      cases hx.1.symm.trans hy
    | array | slot | compound =>
      rw [hcy] at hy
      exact hy.elim
  | pointer q =>
    rw [hcx] at hx
    cases hcy : h.cell y with
    | primitive n =>
      rw [hcy] at hy
      cases hy.1.symm.trans hx
    | pointer q' =>
      rw [hcy] at hy
      have htarget : q.target = q'.target := Ty.pointer.inj (hx.symm.trans hy)
      change setPlace x q'.block q'.offset h = _
      unfold setPlace change
      dsimp only
      rw [hcx]
      dsimp only
      rw [htarget]
    | array | slot | compound =>
      rw [hcy] at hy
      exact hy.elim
  | array | slot | compound =>
    rw [hcx] at hx
    exact hx.elim

/-- In a sound heap what has the type is a number in range, or a pointer. -/
theorem of_hasTy {p : Program} (hs : h.Sound) (hbare : ¬ (h.cell x).IsSlot) (hx : (h.tree x).HasTy p ty)
    (hty : ty.IsScalar) : (h.cell x).Fits ty.unqualified := by
  have hleaf := hx.isLeaf (hs.grounded.isSlot_iff.not.1 hbare) hty
  cases hc : h.cell x with
  | primitive n =>
    rw [hs.grounded.tree_of_cell hc] at hx
    cases hx with
    | primitive hu hk => exact ⟨by rw [Ty.unqualified_unqualified, hu], hk, hs.number x n hc⟩
  | pointer q =>
    rw [hs.grounded.tree_of_cell hc] at hx
    cases hx with
    | pointer hu => exact (Ty.unqualified_unqualified ..).trans hu
  | array | compound =>
    rw [hs.grounded.tree_of_cell hc] at hleaf
    exact hleaf.elim
  | slot =>
    rw [hc] at hbare
    exact absurd trivial hbare

end Cell.Fits

/-! ## Rows of slots -/

namespace Heap

/-- What is in a slot, if anything is. -/
def shown (h : Heap) (r : Ref) : Option Cell :=
  match h.cell r with
  | .slot _ (some x) => some (h.cell x)
  | _ => none

theorem shown_present (hr : h.cell r = .slot ty (some x)) : h.shown r = some (h.cell x) := by
  unfold shown
  rw [hr]

theorem shown_absent (hr : h.cell r = .slot ty none) : h.shown r = none := by
  unfold shown
  rw [hr]

/-- Slots of one type, each with a number or pointer of its own, or with nothing. -/
structure Row (h : Heap) (ty : Ty) (slots : List Ref) : Prop where
  distinct : slots.Nodup
  slot : ∀ r ∈ slots, ∃ content, h.cell r = .slot ty content
  fits : ∀ r ∈ slots, ∀ x, h.cell r = .slot ty (some x) → x.id < h.cells.size ∧ (h.cell x).Fits ty
  apart : ∀ r ∈ slots, ∀ s ∈ slots, ∀ x, h.cell r = .slot ty (some x) → h.cell s = .slot ty (some x) → r = s

/-- In a sound heap the slots of an array of numbers or pointers are a row. -/
theorem Sound.row {p : Program} {a : Ref} {element : Ty} {b : BlockRef} (hs : h.Sound)
    (ha : h.cell a = .array element b) (hscalar : element.IsScalar)
    (hty : ∀ r ∈ h.block b, (h.tree r).HasTy p element) : h.Row element.unqualified (h.block b).toList := by
  have hparts : h.parts a = (h.block b).toList := by
    unfold parts
    rw [ha]
    rfl
  have hslot : ∀ r ∈ h.block b, ∃ content, h.cell r = .slot element.unqualified content := by
    intro r hr
    have htree := hty r hr
    obtain ⟨declared, content, hcell⟩ := Cell.isSlot_iff.1 (hs.isSlot_of_scalar hr htree hscalar)
    rw [hs.grounded.tree_of_cell hcell] at htree
    exact ⟨content, htree.declared_eq ▸ hcell⟩
  have hpart : ∀ {r x : Ref}, h.cell r = .slot element.unqualified (some x) → x ∈ h.parts r := by
    intro r x hr
    unfold parts
    rw [hr]
    exact List.mem_singleton_self x
  refine ⟨hparts ▸ hs.forest.nodup a, fun r hr => hslot r (Array.mem_toList_iff.1 hr), fun r hr x hx => ?_,
    fun r hr s hss x hx hx' => ?_⟩
  · have htree := hty r (Array.mem_toList_iff.1 hr)
    rw [hs.grounded.tree_of_cell hx] at htree
    exact ⟨hs.part_lt r x (hpart hx), .of_hasTy hs (hs.nested r _ x hx) htree.of_present hscalar⟩
  · rcases hs.forest.owner (hpart hx) (hpart hx') with heq | hloose | hloose
    · exact heq
    · exact absurd (hparts ▸ hr) (hloose.2 a)
    · exact absurd (hparts ▸ hss) (hloose.2 a)

/-- The slot shows something else, and only it and what was in it have changed. -/
structure Replaced (h : Heap) (ty : Ty) (t : Ref) (shows : Option Cell) (h' : Heap) : Prop where
  cells_le : h.cells.size ≤ h'.cells.size
  blocks : h'.blocks = h.blocks
  shown : h'.shown t = shows
  slot : ∃ content, h'.cell t = .slot ty content ∧ ∀ x ∈ content,
    x.id < h'.cells.size ∧ (h.cell t = .slot ty (some x) ∨ h.cells.size ≤ x.id)
  cell : ∀ r, r.id < h.cells.size → r ≠ t → h.cell t ≠ .slot ty (some r) → h'.cell r = h.cell r

namespace Row

variable (hr : h.Row ty slots)
include hr

theorem lt (hrs : r ∈ slots) : r.id < h.cells.size := by
  obtain ⟨content, hcell⟩ := hr.slot r hrs
  exact lt_of_cell_ne (by rw [hcell]; exact nofun)

/-- No slot is in another. -/
theorem not_inside (hrs : r ∈ slots) (hts : t ∈ slots) : h.cell t ≠ .slot ty (some r) := by
  intro hcell
  obtain ⟨content, hslot⟩ := hr.slot r hrs
  have hfits := (hr.fits t hts r hcell).2
  rw [hslot] at hfits
  exact hfits

theorem isAbsent_iff (hrs : r ∈ slots) : h.isAbsent r ↔ h.shown r = none := by
  obtain ⟨content, hcell⟩ := hr.slot r hrs
  unfold isAbsent shown
  rw [hcell]
  cases content <;> simp

theorem fits_shown (hrs : r ∈ slots) : ∀ c ∈ h.shown r, c.Fits ty := by
  obtain ⟨content, hcell⟩ := hr.slot r hrs
  intro c hc
  cases content with
  | none => cases (shown_absent hcell).symm.trans hc
  | some x =>
    obtain rfl := Option.some.inj ((shown_present hcell).symm.trans hc)
    exact (hr.fits r hrs x hcell).2

/-- What shows in one slot does not depend on cells that are neither it nor in it. -/
theorem shown_eq (hrs : r ∈ slots) (hcell : h'.cell r = h.cell r)
    (hcontent : ∀ x, h.cell r = .slot ty (some x) → h'.cell x = h.cell x) : h'.shown r = h.shown r := by
  obtain ⟨content, hslot⟩ := hr.slot r hrs
  have hslot' := hcell.trans hslot
  cases content with
  | none => rw [shown_absent hslot', shown_absent hslot]
  | some x => rw [shown_present hslot', shown_present hslot, hcontent x hslot]

end Row

namespace Replaced

variable {shows : Option Cell} (hd : h.Replaced ty t shows h') (hr : h.Row ty slots) (ht : t ∈ slots)
include hd hr ht

theorem cell_eq (hrs : r ∈ slots) (hne : r ≠ t) : h'.cell r = h.cell r :=
  hd.cell r (hr.lt hrs) hne (hr.not_inside hrs ht)

/-- What is in another slot has not changed. -/
theorem content_eq (hrs : r ∈ slots) (hne : r ≠ t) (hx : h.cell r = .slot ty (some x)) :
    h'.cell x = h.cell x := by
  refine hd.cell x (hr.fits r hrs x hx).1 ?_ fun hin => hne (hr.apart r hrs t ht x hx hin)
  rintro rfl
  exact hr.not_inside ht hrs hx

theorem shown_eq (hrs : r ∈ slots) (hne : r ≠ t) : h'.shown r = h.shown r :=
  hr.shown_eq hrs (hd.cell_eq hr ht hrs hne) fun _ => hd.content_eq hr ht hrs hne

/-- The slots are a row still. -/
theorem row (hfits : ∀ c ∈ shows, c.Fits ty) : h'.Row ty slots := by
  obtain ⟨content, hcell, hcontent⟩ := hd.slot
  -- Another slot cannot have in it what is now in this one: that was there before, or is new.
  have halone : ∀ r ∈ slots, r ≠ t → ∀ x ∈ content, h'.cell r ≠ .slot ty (some x) := by
    intro r hrs hne x hx hin
    rw [hd.cell_eq hr ht hrs hne] at hin
    rcases (hcontent x hx).2 with hold | hnew
    · exact hne (hr.apart r hrs t ht x hin hold)
    · exact absurd (hr.fits r hrs x hin).1 (Nat.not_lt_of_le hnew)
  refine ⟨hr.distinct, fun r hrs => ?_, fun r hrs x hx => ?_, fun r hrs s hss x hx hx' => ?_⟩
  · by_cases hne : r = t
    · exact ⟨content, hne ▸ hcell⟩
    · rw [hd.cell_eq hr ht hrs hne]
      exact hr.slot r hrs
  · by_cases hne : r = t
    · subst hne
      obtain rfl : content = some x := (Cell.slot.inj (hcell.symm.trans hx)).2
      refine ⟨(hcontent x rfl).1, hfits _ ?_⟩
      rw [← hd.shown, shown_present hx]
      rfl
    · rw [hd.cell_eq hr ht hrs hne] at hx
      obtain ⟨hlt, hfit⟩ := hr.fits r hrs x hx
      rw [hd.content_eq hr ht hrs hne hx]
      exact ⟨hlt.trans_le hd.cells_le, hfit⟩
  · by_cases hne : r = t
    · by_cases hne' : s = t
      · rw [hne, hne']
      · subst hne
        obtain rfl : content = some x := (Cell.slot.inj (hcell.symm.trans hx)).2
        exact absurd hx' (halone s hss hne' x rfl)
    · by_cases hne' : s = t
      · subst hne'
        obtain rfl : content = some x := (Cell.slot.inj (hcell.symm.trans hx')).2
        exact absurd hx (halone r hrs hne x rfl)
      · rw [hd.cell_eq hr ht hrs hne] at hx
        rw [hd.cell_eq hr ht hss hne'] at hx'
        exact hr.apart r hrs s hss x hx hx'

end Replaced

/-! ## One pair of slots -/

namespace Replaced

theorem refl (ht : h.cell t = .slot ty (some x)) (hx : x.id < h.cells.size) :
    h.Replaced ty t (some (h.cell x)) h where
  cells_le := Nat.le_refl _
  blocks := rfl
  shown := shown_present ht
  slot := ⟨some x, ht, by rintro _ ⟨⟩; exact ⟨hx, .inl ht⟩⟩
  cell := fun _ _ _ _ => rfl

theorem emptied {content : Option Ref} (ht : h.cell t = .slot ty content) :
    h.Replaced ty t none (h.setCell t (.slot ty none)) := by
  have hlt : t.id < h.cells.size := lt_of_cell_ne (by rw [ht]; exact nofun)
  have hcell : (h.setCell t (.slot ty none)).cell t = .slot ty none :=
    (cell_setCell ..).trans (if_pos ⟨rfl, hlt⟩)
  exact {
    cells_le := Nat.le_of_eq (cells_size_setCell ..).symm
    blocks := rfl
    shown := shown_absent hcell
    slot := ⟨none, hcell, nofun⟩
    cell := fun r _ hne _ => cell_setCell_of_ne _ _ hne }

/-- The content of the slot is overwritten. -/
theorem overwritten (ht : h.cell t = .slot ty (some x)) (hx : x.id < h.cells.size) (hne : x ≠ t) (c : Cell) :
    h.Replaced ty t (some c) (h.setCell x c) := by
  have hcell : (h.setCell x c).cell t = .slot ty (some x) := by
    rw [cell_setCell_of_ne _ _ hne.symm, ht]
  have hcontent : (h.setCell x c).cell x = c := (cell_setCell ..).trans (if_pos ⟨rfl, hx⟩)
  exact {
    cells_le := Nat.le_of_eq (cells_size_setCell ..).symm
    blocks := rfl
    shown := by rw [shown_present hcell, hcontent]
    slot := ⟨some x, hcell, by rintro _ ⟨⟩; exact ⟨by rwa [cells_size_setCell], .inl ht⟩⟩
    cell := fun r _ _ hin => cell_setCell_of_ne _ _ fun hrx => hin (hrx ▸ ht) }

/-- The slot was empty and gets a new content. -/
theorem filled (ht : h.cell t = .slot ty none) (c : Cell) :
    h.Replaced ty t (some c)
      (((h.alloc c).2.alloc c).2.setCell t (.slot ty (some ⟨h.cells.size + 1⟩))) := by
  have hlt : t.id < h.cells.size := lt_of_cell_ne (by rw [ht]; exact nofun)
  have hsize : ((h.alloc c).2.alloc c).2.cells.size = h.cells.size + 2 := by
    rw [cells_size_alloc, cells_size_alloc]
  generalize hh : ((h.alloc c).2.alloc c).2 = h₂ at hsize
  have hcell : (h₂.setCell t (.slot ty (some ⟨h.cells.size + 1⟩))).cell t =
      .slot ty (some ⟨h.cells.size + 1⟩) :=
    (cell_setCell ..).trans (if_pos ⟨rfl, by omega⟩)
  have hcontent : (h₂.setCell t (.slot ty (some ⟨h.cells.size + 1⟩))).cell ⟨h.cells.size + 1⟩ = c := by
    rw [cell_setCell_of_ne _ _ (by rintro rfl; exact absurd hlt (by simp)), ← hh, cell_alloc,
      if_pos (by rw [cells_size_alloc])]
  exact {
    cells_le := by rw [cells_size_setCell, hsize]; omega
    blocks := by rw [← hh]; rfl
    shown := by rw [shown_present hcell, hcontent]
    slot := ⟨_, hcell, by
      rintro _ ⟨⟩
      exact ⟨by rw [cells_size_setCell, hsize]; exact Nat.lt_succ_self _, .inr (Nat.le_succ _)⟩⟩
    cell := fun r hr hne _ => by
      rw [cell_setCell_of_ne _ _ hne, ← hh,
        cell_alloc_of_lt _ (by rw [cells_size_alloc]; omega), cell_alloc_of_lt _ hr] }

end Replaced

end Heap

/-- Store the second of a pair into the first. -/
def storePair (fuel : Nat) (q : Ref × Ref) : Mem Unit := do
  if ← read (·.isAbsent q.2) then
    setContent q.1 none
  else
    assignWithin fuel q.1 q.2

/-- Of two slots of a row, the first shows what the second did. -/
theorem ends_storePair {k : Nat} (hr : h.Row ty slots) (ht : t ∈ slots) (hs : s ∈ slots) :
    Ends (storePair (k + 2) (t, s)) h (fun _ h' => h.Replaced ty t (h.shown s) h') fun _ _ => False := by
  obtain ⟨target, htarget⟩ := hr.slot t ht
  obtain ⟨source, hsource⟩ := hr.slot s hs
  unfold storePair
  rw [ends_bind, ends_read]
  cases source with
  | none =>
    have habsent : h.isAbsent s := by simp [Heap.isAbsent, hsource]
    rw [if_pos habsent, Heap.shown_absent hsource]
    unfold setContent
    refine ends_change.2 ?_
    rw [htarget]
    exact .emptied htarget
  | some y =>
    have hpresent : ¬ h.isAbsent s := by simp [Heap.isAbsent, hsource]
    have hflat : h.flatten s = y := by simp [Heap.flatten, hsource]
    have hy := (hr.fits s hs y hsource).2
    have hty : t ≠ y := by
      rintro rfl
      exact hr.not_inside ht hs hsource
    rw [if_neg hpresent, Heap.shown_present hsource]
    cases target with
    | none =>
      have hrun : assignWithin (k + 2) t s h = fill t ty y h := by
        rw [assignWithin, read_bind, hflat, if_neg hty, read_bind, htarget]
      rw [ends_iff_of_ok (hrun.trans (hy.fill htarget))]
      exact .filled htarget _
    | some x =>
      obtain ⟨hxlt, hx⟩ := hr.fits t ht x htarget
      have hrun : assignWithin (k + 2) t s h = assignWithin (k + 1) x y h := by
        rw [assignWithin, read_bind, hflat, if_neg hty, read_bind, htarget]
      by_cases hxy : x = y
      · subst hxy
        have hsame : assignWithin (k + 1) x x h = .ok () h := by
          rw [assignWithin, read_bind, hx.flatten, if_pos rfl]
          rfl
        rw [ends_iff_of_ok (hrun.trans hsame)]
        exact .refl htarget hxlt
      · have hxt : x ≠ t := by
          rintro rfl
          exact hr.not_inside ht ht htarget
        rw [ends_iff_of_ok (hrun.trans (hx.assignWithin hy hxy))]
        exact .overwritten htarget hxlt hxt _

/-! ## All pairs -/

/-- The first slot of each pair shows what the second did, and only the first ones
    and what was in them have changed. -/
structure Heap.Shifted (h : Heap) (ty : Ty) (slots : List Ref) (pairs : List (Ref × Ref)) (h' : Heap) :
    Prop where
  cells_le : h.cells.size ≤ h'.cells.size
  blocks : h'.blocks = h.blocks
  row : h'.Row ty slots
  shown : ∀ q ∈ pairs, h'.shown q.1 = h.shown q.2
  cell : ∀ r, r.id < h.cells.size → (∀ q ∈ pairs, r ≠ q.1 ∧ h.cell q.1 ≠ .slot ty (some r)) →
    h'.cell r = h.cell r

namespace Heap.Shifted

variable {pairs : List (Ref × Ref)}

/-- A slot into which nothing is stored, and what is in it. -/
theorem kept (hf : h.Shifted ty slots pairs h') (hr : h.Row ty slots) (hin : ∀ q ∈ pairs, q.1 ∈ slots)
    (hrs : r ∈ slots) (hne : ∀ q ∈ pairs, r ≠ q.1) : h'.cell r = h.cell r ∧ h'.shown r = h.shown r := by
  have hcell := hf.cell r (hr.lt hrs) fun q hq => ⟨hne q hq, hr.not_inside hrs (hin q hq)⟩
  refine ⟨hcell, hr.shown_eq hrs hcell fun x hx => hf.cell x (hr.fits r hrs x hx).1 fun q hq => ⟨?_, ?_⟩⟩
  · rintro rfl
    exact hr.not_inside (hin q hq) hrs hx
  · intro hx'
    exact hne q hq (hr.apart r hrs q.1 (hin q hq) x hx hx')

/-- A first pair is stored before others, which neither store into its first slot
    nor read it. -/
theorem cons (hd : h.Replaced ty t (h.shown s) h₁) (hf : h₁.Shifted ty slots pairs h')
    (hr : h.Row ty slots) (hr₁ : h₁.Row ty slots) (ht : t ∈ slots)
    (hin : ∀ q ∈ pairs, q.1 ∈ slots ∧ q.2 ∈ slots) (hlater : ∀ q ∈ pairs, t ≠ q.1 ∧ t ≠ q.2) :
    h.Shifted ty slots ((t, s) :: pairs) h' where
  cells_le := hd.cells_le.trans hf.cells_le
  blocks := hf.blocks.trans hd.blocks
  row := hf.row
  shown := fun q hq => by
    rcases List.mem_cons.1 hq with rfl | hq
    · have hkept := hf.kept hr₁ (fun q hq => (hin q hq).1) ht fun q hq => (hlater q hq).1
      exact hkept.2.trans hd.shown
    · rw [hf.shown q hq, hd.shown_eq hr ht (hin q hq).2 (hlater q hq).2.symm]
  cell := fun r hlt hrq => by
    have hfirst := hrq (t, s) List.mem_cons_self
    rw [hf.cell r (hlt.trans_le hd.cells_le) fun q hq => ?_, hd.cell r hlt hfirst.1 hfirst.2]
    rw [hd.cell_eq hr ht (hin q hq).1 (hlater q hq).1.symm]
    exact hrq q (List.mem_cons_of_mem _ hq)

end Heap.Shifted

/-- Pairs are stored one after another, of which none stores into a slot that a later
    one stores into or reads. -/
theorem ends_storePairs {k : Nat} {pairs : List (Ref × Ref)} (hr : h.Row ty slots)
    (hin : ∀ q ∈ pairs, q.1 ∈ slots ∧ q.2 ∈ slots)
    (horder : pairs.Pairwise fun q q' => q.1 ≠ q'.1 ∧ q.1 ≠ q'.2) :
    Ends (pairs.forM (storePair (k + 2))) h (fun _ h' => h.Shifted ty slots pairs h') fun _ _ => False := by
  induction pairs generalizing h with
  | nil =>
    exact ⟨Nat.le_refl _, rfl, hr, nofun, fun _ _ _ => rfl⟩
  | cons q pairs ih =>
    obtain ⟨t, s⟩ := q
    obtain ⟨ht, hs⟩ := hin (t, s) List.mem_cons_self
    obtain ⟨hlater, horder⟩ := List.pairwise_cons.1 horder
    have hin' : ∀ q ∈ pairs, q.1 ∈ slots ∧ q.2 ∈ slots := fun q hq => hin q (List.mem_cons_of_mem _ hq)
    refine ends_bind.2 ?_
    refine (ends_storePair hr ht hs).mono (fun _ h₁ hd => ?_) fun _ _ => False.elim
    have hr₁ := hd.row hr ht (hr.fits_shown hs)
    refine (ih hr₁ hin' horder).mono (fun _ h' hf => ?_) fun _ _ => False.elim
    exact hf.cons hd hr hr₁ ht hin' hlater

/-- No slot is stored into before it is read: where it is read, it stands behind the
    slot that is stored into. -/
theorem pairwise_zip_drop (hnodup : slots.Nodup) (k : Nat) :
    (slots.zip (slots.drop k)).Pairwise fun q q' => q.1 ≠ q'.1 ∧ q.1 ≠ q'.2 := by
  rw [List.pairwise_iff_getElem]
  intro i j hi hj hij
  simp only [List.length_zip, List.length_drop, Nat.lt_min] at hi hj
  simp only [List.getElem_zip, List.getElem_drop]
  constructor
  · intro heq
    have := hnodup.getElem_inj_iff.1 heq
    omega
  · intro heq
    have := hnodup.getElem_inj_iff.1 heq
    omega

/-- The pairs that are stored when an array takes on what a pointer into it leads to. -/
def Heap.overlaps (h : Heap) (p : Pointer) : List (Ref × Ref) :=
  (h.block p.block).toList.zip (h.remaining p)

namespace Heap

variable {p : Pointer}

theorem overlaps_of_neg (hp : p.offset.toInt < 0) : h.overlaps p = [] := by
  have hneg : p.offset < 0 := Int64.lt_iff_toInt_lt.2 hp
  unfold overlaps remaining
  rw [if_pos hneg, List.zip_nil_right]

theorem overlaps_of_nonneg (hp : 0 ≤ p.offset.toInt) : h.overlaps p =
    (h.block p.block).toList.zip ((h.block p.block).toList.drop p.offset.toInt.toNat) := by
  have hneg : ¬ p.offset < 0 := fun hlt => absurd (Int64.lt_iff_toInt_lt.1 hlt) (Int.not_lt_of_ge hp)
  unfold overlaps remaining
  rw [if_neg hneg]

/-- The slots of each pair are as far apart as the pointer is from the start. -/
theorem mem_overlaps {q : Ref × Ref} (hp : 0 ≤ p.offset.toInt) : q ∈ h.overlaps p ↔
    ∃ i j : Nat, (j : Int) = i + p.offset.toInt ∧ (h.block p.block)[i]? = some q.1 ∧
      (h.block p.block)[j]? = some q.2 := by
  rw [overlaps_of_nonneg hp, ValueTree.mem_zip_iff]
  simp only [List.getElem?_drop, Array.getElem?_toList]
  constructor
  · rintro ⟨i, hi, hj⟩
    exact ⟨i, _, by omega, hi, hj⟩
  · rintro ⟨i, j, hij, hi, hj⟩
    obtain rfl : j = p.offset.toInt.toNat + i := by omega
    exact ⟨i, hi, hj⟩

theorem overlaps_inside {q : Ref × Ref} (hq : q ∈ h.overlaps p) :
    q.1 ∈ (h.block p.block).toList ∧ q.2 ∈ (h.block p.block).toList := by
  rcases Int.lt_or_le p.offset.toInt 0 with hneg | hp
  · rw [overlaps_of_neg hneg] at hq
    cases hq
  · obtain ⟨i, j, -, hi, hj⟩ := (mem_overlaps hp).1 hq
    exact ⟨Array.mem_toList_iff.2 (Array.mem_of_getElem? hi), Array.mem_toList_iff.2 (Array.mem_of_getElem? hj)⟩

theorem pairwise_overlaps (hnodup : (h.block p.block).toList.Nodup) :
    (h.overlaps p).Pairwise fun q q' => q.1 ≠ q'.1 ∧ q.1 ≠ q'.2 := by
  rcases Int.lt_or_le p.offset.toInt 0 with hneg | hp
  · rw [overlaps_of_neg hneg]
    exact .nil
  · rw [overlaps_of_nonneg hp]
    exact pairwise_zip_drop hnodup _

end Heap

/-- Storing what a pointer leads to into an array stores into its slots, in order. -/
theorem assign_pairs {a : Ref} {element : Ty} {b : BlockRef} {p : Pointer} (ha : h.cell a = .array element b)
    (hx : h.cell (h.flatten x) = .pointer p) :
    ∃ k, assign a x h = ((h.block b).toList.zip (h.remaining p)).forM (storePair (k + 2)) h := by
  have hlt : a.id < h.cells.size := Heap.lt_of_cell_ne (by rw [ha]; exact nofun)
  obtain ⟨k, hk⟩ : ∃ k, 2 * h.levels = k + 2 + 1 := ⟨2 * h.cells.size - 1, by unfold Heap.levels; omega⟩
  have hne : a ≠ h.flatten x := by
    rintro rfl
    cases ha.symm.trans hx
  refine ⟨k, ?_⟩
  unfold assign
  rw [read_bind, hk, assignWithin_bare (by simp [Heap.isSlot, ha, Cell.IsSlot]) hne, ha, hx]
  rfl

/-- An array of numbers or pointers takes on what a pointer into its own block leads
    to. Each slot then shows what was in the slot that is as far behind it as the
    pointer is from the start of the block, as if all had been read first; it is
    empty if that one was. Slots for which there is no such slot, and all cells but
    slots and what was in them, are as they were; if the pointer is not inside the
    block at all, so is everything. -/
theorem assign_overlapping {a : Ref} {element : Ty} {p : Pointer} (ha : h.cell a = .array element p.block)
    (hx : h.cell (h.flatten x) = .pointer p) (hr : h.Row ty (h.block p.block).toList) :
    ∃ h', assign a x h = .ok () h' ∧ h'.blocks = h.blocks ∧ h'.Row ty (h'.block p.block).toList ∧
      (0 ≤ p.offset.toInt →
        (∀ (i j : Nat) (r s : Ref), (j : Int) = i + p.offset.toInt → (h.block p.block)[i]? = some r →
          (h.block p.block)[j]? = some s → h'.shown r = h.shown s ∧ (h'.isAbsent r ↔ h.isAbsent s)) ∧
        ∀ (i : Nat) (r : Ref), (h.block p.block)[i]? = some r →
          (h.block p.block).size ≤ i + p.offset.toInt → h'.cell r = h.cell r ∧ h'.shown r = h.shown r) ∧
      (p.offset.toInt < 0 ∨ (h.block p.block).size ≤ p.offset.toInt → h' = h) ∧
      ∀ r, r.id < h.cells.size → (∀ s ∈ h.block p.block, r ≠ s ∧ h.cell s ≠ .slot ty (some r)) →
        h'.cell r = h.cell r := by
  obtain ⟨k, hrun⟩ : ∃ k, assign a x h = (h.overlaps p).forM (storePair (k + 2)) h := assign_pairs ha hx
  obtain ⟨_, h', hok, hf⟩ := (ends_storePairs (k := k) hr (fun q hq => Heap.overlaps_inside hq)
    (Heap.pairwise_overlaps hr.distinct)).exists_ok
  have hblock : h'.block p.block = h.block p.block := by
    unfold Heap.block
    rw [hf.blocks]
  have hslot {i : Nat} {r : Ref} (hi : (h.block p.block)[i]? = some r) : r ∈ (h.block p.block).toList :=
    Array.mem_toList_iff.2 (Array.mem_of_getElem? hi)
  refine ⟨h', hrun.trans hok, hf.blocks, hblock.symm ▸ hf.row, fun hp => ⟨?_, ?_⟩, fun hout => ?_, ?_⟩
  · intro i j r s hij hi hj
    have hshown := hf.shown (r, s) ((Heap.mem_overlaps hp).2 ⟨i, j, hij, hi, hj⟩)
    refine ⟨hshown, ?_⟩
    rw [hf.row.isAbsent_iff (hslot hi), hr.isAbsent_iff (hslot hj), ← hshown]
  · intro i r hi hend
    refine hf.kept hr (fun q hq => (Heap.overlaps_inside hq).1) (hslot hi) fun q hq hrq => ?_
    obtain ⟨i', j, hij, hi', hj⟩ := (Heap.mem_overlaps hp).1 hq
    rw [← hrq] at hi'
    have hlt := (Array.getElem?_eq_some_iff.1 hi).1
    have hsame : i = i' := by
      refine (List.getElem?_inj (by rwa [Array.length_toList]) hr.distinct).1 ?_
      rw [Array.getElem?_toList, Array.getElem?_toList, hi, hi']
    have := (Array.getElem?_eq_some_iff.1 hj).1
    omega
  · have hnone : h.overlaps p = [] := by
      rcases hout with hneg | hout
      · exact Heap.overlaps_of_neg hneg
      · rw [Heap.overlaps_of_nonneg (by omega), List.drop_eq_nil_of_le (by rw [Array.length_toList]; omega),
          List.zip_nil_right]
    rw [hnone] at hok
    exact (EStateM.Result.ok.inj hok).2.symm
  · intro r hlt hrs
    exact hf.cell r hlt fun q hq => hrs q.1 (Array.mem_toList_iff.1 (Heap.overlaps_inside hq).1)

/-- Three numbers, of which the second has been given up, and a pointer to it. -/
def spacedRow : Heap :=
  leaves (do
    let _ ← createValue {} (.array .int (some 3))
    setPrimitive ⟨0⟩ (.int 7)
    setPrimitive ⟨2⟩ (.int 9)
    release ⟨.int, ⟨0⟩, 1⟩
    alloc (.pointer ⟨.int, ⟨0⟩, 1⟩)) {}

theorem spacedRow_sound : spacedRow.Sound := by
  let row := leaves (createValue {} (.array .int (some 3))) {}
  let first := row.setCell ⟨0⟩ (.primitive (.int 7))
  let third := first.setCell ⟨2⟩ (.primitive (.int 9))
  have hmade : createValue {} (.array .int (some 3)) {} = .ok ⟨6⟩ row := rfl
  have hfirst : (row.cell ⟨0⟩).Alike (.primitive (.int 7)) :=
    show Cell.Alike (.primitive (.zero .int false)) _ from .primitive rfl rfl
  have hthird : (first.cell ⟨2⟩).Alike (.primitive (.int 9)) :=
    show Cell.Alike (.primitive (.zero .int false)) _ from .primitive rfl rfl
  have hsecond : (third.cell ⟨4⟩).Alike (.slot .int none) :=
    show Cell.Alike (.slot .int (some ⟨1⟩)) _ from .slot ..
  have hint (n : Int64) : (Cell.primitive (.int n)).Simple := Primitive.inRange_of .int false (.integral n)
  have hs := ((makes_createValue {} _ .empty).of_ok hmade).sound
  have hs := (Heap.Assigned.setCell hs (.refl _) hfirst (hint 7)).sound
  have hs := (Heap.Assigned.setCell hs (.refl _) hthird (hint 9)).sound
  have hs := (Heap.Assigned.setCell hs (.refl _) hsecond trivial).sound
  exact hs.alloc (.of_contents rfl nofun nofun)

theorem spacedRow_row : spacedRow.Row .int (spacedRow.block ⟨0⟩).toList := by
  have hint : Ty.IsScalar .int := Ty.isScalar_iff.2 (.inl ⟨.int, false, rfl, by decide⟩)
  have hnumber (n : Int64) : (ValueTree.slot .int (some (.primitive (.int n)))).HasTy {} .int :=
    .present rfl (.primitive rfl Kind.noConfusion)
  have harray : spacedRow.cell ⟨6⟩ = .array .int ⟨0⟩ := rfl
  refine spacedRow_sound.row (p := {}) harray hint fun r hr => ?_
  have hblock : spacedRow.block ⟨0⟩ = #[⟨3⟩, ⟨4⟩, ⟨5⟩] := rfl
  simp only [hblock, List.mem_toArray, List.mem_cons, List.not_mem_nil, or_false] at hr
  rcases hr with rfl | rfl | rfl
  · exact hnumber 7
  · exact .absent rfl
  · exact hnumber 9

/-- Moved to the front by one, the row is empty where it starts. -/
theorem row_moved : spacedRow.cell ⟨6⟩ = .array .int ⟨0⟩ ∧ spacedRow.cell ⟨7⟩ = .pointer ⟨.int, ⟨0⟩, 1⟩ ∧
    spacedRow.shown ⟨3⟩ = some (.primitive (.int 7)) ∧ spacedRow.isAbsent ⟨4⟩ ∧
    ∃ h', assign ⟨6⟩ ⟨7⟩ spacedRow = .ok () h' ∧ h'.isAbsent ⟨3⟩ ∧
      h'.shown ⟨4⟩ = some (.primitive (.int 9)) ∧ h'.shown ⟨5⟩ = some (.primitive (.int 9)) := by
  have hpointer : spacedRow.cell (spacedRow.flatten ⟨7⟩) = .pointer ⟨.int, ⟨0⟩, 1⟩ := rfl
  have harray : spacedRow.cell ⟨6⟩ = .array .int ⟨0⟩ := rfl
  have hlast : spacedRow.shown ⟨5⟩ = some (.primitive (.int 9)) := rfl
  obtain ⟨h', hok, -, -, hmoved, -⟩ := assign_overlapping (p := ⟨.int, ⟨0⟩, 1⟩) harray hpointer spacedRow_row
  obtain ⟨hmoved, hkept⟩ := hmoved (by decide)
  have hfirst := hmoved 0 1 ⟨3⟩ ⟨4⟩ (by decide) rfl rfl
  have hsecond := hmoved 1 2 ⟨4⟩ ⟨5⟩ (by decide) rfl rfl
  have hthird := hkept 2 ⟨5⟩ rfl (by decide)
  exact ⟨harray, rfl, rfl, by decide, h', hok, hfirst.2.2 (by decide), hsecond.1.trans hlast,
    hthird.2.trans hlast⟩

end Treewalk
