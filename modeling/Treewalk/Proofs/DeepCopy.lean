/-
  Copies in depth have nothing in common with their originals.

  * `Heap.Writes v h h'`: one write in place to a cell that `v` contains, or the
    making of new values;
  * `Heap.Isolated h a b`: whatever has been written to either, writing to one of
    the two does not show in the other;
  * `Heap.Detached h v x h'`: nothing that was there has changed, `x` consists of
    new cells and blocks, and is isolated from `v`;
  * `copy_isolated`: what a copy, a copy for binding and conforming to a type give.
-/
import Treewalk.Memory.Operand
import Treewalk.Proofs.Levels
import Treewalk.Proofs.Outcome
import Treewalk.Proofs.Rewrites

namespace Treewalk

open Mem

variable {h h' h₁ : Heap} {v r t x : Ref}

/-! ## Writes in place -/

/-- A number or pointer that is stepped is rewritten, and an empty slot filled. -/
theorem rewrites_step (hg : h.Grounded) (hlt : t.id < h.cells.size) (delta : Int64) :
    RewritesOnly (Reaches h.parts t) (step t delta) h := by
  have hw := Heap.Rewrites.refl (A := Reaches h.parts t) hg
  refine ends_bind.2 (ends_read.2 ?_)
  split
  · have hw₁ : h.Rewrites (Reaches h.parts t) (h.alloc (.primitive (.int delta))).2 :=
      hw.alloc nofun nofun (by simp)
    have htrans : ∀ h', (h.alloc (.primitive (.int delta))).2.Rewrites
        (Reaches (h.alloc (.primitive (.int delta))).2.parts t) h' →
        h.Rewrites (Reaches h.parts t) h' :=
      fun h' hw' => hw₁.trans hw' fun r hr hreach => hw₁.part.reaches hr hreach
    refine ends_bind.2 (ends_alloc.2 ?_)
    exact Ends.mono (rewrites_assign hw₁.grounded (hlt.trans_le hw₁.cells_le) _) (fun _ => htrans)
      fun _ => htrans
  · exact hw.setCell_of_contents .refl rfl (by simp)
  · exact hw.setCell_of_contents .refl rfl (by simp)
  · exact hw

namespace Heap

/-- One write to a cell that the value contains, whether it succeeds or not; or any
    other values are made. -/
inductive Writes (v : Ref) (h : Heap) : Heap → Prop
  | assign {t : Ref} (ht : Reaches h.parts v t) (source : Ref) : Writes v h (leaves (assign t source) h)
  | step {t : Ref} (ht : Reaches h.parts v t) (delta : Int64) : Writes v h (leaves (step t delta) h)
  | clear {t : Ref} (ht : Reaches h.parts v t) : Writes v h (leaves (setContent t none) h)
  /-- the slot that the pointer refers to is contained in the value -/
  | release {p : Pointer} (hp : ∀ x, h.slotOf p = .ok x → Reaches h.parts v x) :
      Writes v h (leaves (release p) h)
  | add {h' : Heap} (ha : h.Adds h') (hg : h'.Grounded) : Writes v h h'

/-- The two are there, and have no cell in common. -/
structure Separate (h : Heap) (a b : Ref) : Prop where
  grounded : h.Grounded
  left_lt : a.id < h.cells.size
  right_lt : b.id < h.cells.size
  apart : h.Apart a b

namespace Separate

theorem symm (hs : h.Separate v x) : h.Separate x v :=
  ⟨hs.grounded, hs.right_lt, hs.left_lt, hs.apart.symm⟩

/-- They stay separate while one is as it was and the other takes in nothing that
    was there. -/
theorem of_intact (hs : h.Separate v x) (hg : h'.Grounded) (hle : h.cells.size ≤ h'.cells.size)
    (hi : h.Intact x h') (hn : h.AdoptsNone h') : h'.Separate v x where
  grounded := hg
  left_lt := hs.left_lt.trans_le hle
  right_lt := hs.right_lt.trans_le hle
  apart := fun y hv hx => by
    have hx := hi.reaches_iff.1 hx
    exact hs.apart y (hn.reaches (hs.grounded.lt_of_reaches hs.right_lt hx) hv) hx

theorem of_rewrites (hs : h.Separate v x) (hw : h.Rewrites (Reaches h.parts v) h') :
    h.Intact x h' ∧ h'.Separate v x := by
  have hi := hw.intact hs.grounded hs.right_lt fun y hx hv => hs.apart y hv hx
  exact ⟨hi, hs.of_intact hw.grounded hw.cells_le hi hw.part⟩

theorem of_rewrites_part (hs : h.Separate v x) (ht : Reaches h.parts v t)
    (hw : h.Rewrites (Reaches h.parts t) h') : h.Intact x h' ∧ h'.Separate v x :=
  hs.of_rewrites (hw.mono fun _ hr => ht.trans hr)

/-- A place in a block that the other value does not contain is emptied. -/
theorem of_setSlot (hs : h.Separate v x) {b : BlockRef} {i : Nat} {ty : Ty} (hr : r ∈ h.block b)
    (hv : Reaches h.parts v r) :
    h.Intact x ((h.alloc (.slot ty none)).2.setSlot b i ⟨h.cells.size⟩) ∧
      ((h.alloc (.slot ty none)).2.setSlot b i ⟨h.cells.size⟩).Separate v x := by
  have hadds : h.Adds (h.alloc (.slot ty none)).2 := Additive.alloc h _
  have hg := hs.grounded.alloc (c := .slot ty none) nofun (by simp)
  have hcell : (h.alloc (.slot ty none)).2.cell ⟨h.cells.size⟩ = .slot ty none :=
    h.cell_alloc_new _
  have hi : h.Intact x ((h.alloc (.slot ty none)).2.setSlot b i ⟨h.cells.size⟩) := by
    refine ⟨fun y hy => ?_, fun y ty' b' hy hb => ?_⟩
    · exact hadds.cell y (hs.grounded.lt_of_reaches hs.right_lt hy)
    · have hne : b' ≠ b := by
        rintro rfl
        exact hs.apart r hv (.tail hy (mem_parts_of_array hb hr))
      rw [block_setSlot, if_neg hne]
      rfl
  refine ⟨hi, hs.of_intact (hg.setSlot ?_ ?_) (by simp) hi fun a y hy hold => ?_⟩
  · simp
  · unfold parts
    rw [cell_setSlot, hcell]
    rfl
  · rcases mem_parts_setSlot hy with hy | rfl
    · rw [parts_alloc] at hy
      split at hy
      · cases hy
      · exact hy
    · exact absurd hold (Nat.lt_irrefl _)

theorem of_release (hs : h.Separate v x) {p : Pointer}
    (hp : ∀ y, h.slotOf p = .ok y → Reaches h.parts v y) :
    h.Intact x (leaves (release p) h) ∧ (leaves (release p) h).Separate v x := by
  refine Ends.leaves (P := fun h' => h.Intact x h' ∧ h'.Separate v x) ?_
  refine ends_bind.2 (ends_read.2 ?_)
  split
  · exact ⟨.refl h x, hs⟩
  refine ends_bind.2 (ends_read.2 (ends_bind.2 (ends_answer.2 ?_)))
  cases hslot : h.slotOf p with
  | error c => exact ⟨.refl h x, hs⟩
  | ok y =>
    have hy := hp y hslot
    refine ends_bind.2 (ends_read.2 ?_)
    split
    · exact (rewrites_empty (.refl hs.grounded) .refl).mono (fun _ _ hw => hs.of_rewrites_part hy hw)
        fun _ _ hw => hs.of_rewrites_part hy hw
    · refine ends_bind.2 (ends_read.2 (ends_bind.2 (ends_alloc.2 (ends_change.2 ?_))))
      exact hs.of_setSlot (Array.mem_of_getElem? (getElem?_of_slotOf hslot)) hy

end Separate

/-- A write to one of two separate values leaves the other as it was, and the two
    separate. -/
theorem Writes.spares (hw : h.Writes v h') (hs : h.Separate v x) :
    h.Intact x h' ∧ h'.Separate v x := by
  have hlt : ∀ t, Reaches h.parts v t → t.id < h.cells.size := fun t ht =>
    hs.grounded.lt_of_reaches hs.left_lt ht
  cases hw with
  | @assign t ht source =>
    exact hs.of_rewrites_part ht (Ends.leaves (rewrites_assign hs.grounded (hlt t ht) source))
  | @step t ht delta =>
    exact hs.of_rewrites_part ht (Ends.leaves (rewrites_step hs.grounded (hlt t ht) delta))
  | clear ht =>
    exact hs.of_rewrites_part ht (Ends.leaves (rewrites_empty (.refl hs.grounded) .refl))
  | release hp => exact hs.of_release hp
  | add ha hg =>
    have hi := ha.intact hs.grounded hs.right_lt
    refine ⟨hi, hg, hs.left_lt.trans_le ha.cells_le, hs.right_lt.trans_le ha.cells_le, ?_⟩
    exact hs.apart.of_intact (ha.intact hs.grounded hs.left_lt) hi

/-- Any number of writes to one of two separate values. -/
theorem Separate.spared (hs : h.Separate v x) (hrun : Relation.ReflTransGen (Writes v) h h') :
    h'.tree x = h.tree x ∧ h'.Separate v x := by
  induction hrun with
  | refl => exact ⟨rfl, hs⟩
  | tail _ hw ih =>
    obtain ⟨htree, hs₁⟩ := ih
    obtain ⟨hi, hs₂⟩ := hw.spares hs₁
    exact ⟨(hi.tree_eq hs₁.grounded hs₂.grounded).trans htree, hs₂⟩

/-- Whatever has been written to the two, what is then written to one of them does
    not change how the other looks. -/
def Isolated (h : Heap) (a b : Ref) : Prop :=
  ∀ h₁, Relation.ReflTransGen (fun h h' => Writes a h h' ∨ Writes b h h') h h₁ →
    (∀ h₂, Relation.ReflTransGen (Writes a) h₁ h₂ → h₂.tree b = h₁.tree b) ∧
    ∀ h₂, Relation.ReflTransGen (Writes b) h₁ h₂ → h₂.tree a = h₁.tree a

theorem Separate.isolated (hs : h.Separate v x) : h.Isolated v x := by
  intro h₁ hrun
  have hs₁ : h₁.Separate v x := by
    induction hrun with
    | refl => exact hs
    | tail _ hw ih =>
      rcases hw with hw | hw
      · exact (hw.spares ih).2
      · exact (hw.spares ih.symm).2.symm
  exact ⟨fun h₂ hw => (hs₁.spared hw).1, fun h₂ hw => (hs₁.symm.spared hw).1⟩

/-! ## New values -/

/-- Nothing that was there has changed, the value consists of new cells and blocks,
    and it is isolated from `v`. -/
structure Detached (h : Heap) (v x : Ref) (h' : Heap) : Prop where
  adds : h.Adds h'
  cell_new : ∀ y, Reaches h'.parts x y → h.cells.size ≤ y.id ∧ y.id < h'.cells.size
  block_new : ∀ y ty b, Reaches h'.parts x y → h'.cell y = .array ty b →
    h.blocks.size ≤ b.id ∧ b.id < h'.blocks.size
  isolated : h'.Isolated v x

/-- What is new has nothing in common with what was there. -/
theorem Minted.apart (hm : h.Minted x h') (hg : h.Grounded) (hv : v.id < h.cells.size) :
    h'.Apart v x := by
  intro y hy hx
  have hold := hg.lt_of_reaches hv ((hm.toRewrites.adds.intact hg hv).reaches_iff.1 hy)
  exact absurd hold (Nat.not_lt_of_le (hm.part.le_of_reaches hm.new hx))

theorem Minted.detached (hm : h.Minted x h') (hg : h.Grounded) (hv : v.id < h.cells.size) :
    h.Detached v x h' where
  adds := hm.toRewrites.adds
  cell_new := fun y hy => ⟨hm.part.le_of_reaches hm.new hy, hm.grounded.lt_of_reaches hm.lt hy⟩
  block_new := fun y ty b hy hb => by
    refine ⟨Nat.le_of_not_lt fun hold => ?_, hm.grounded.storage_lt y ty b hb⟩
    have hcell := hm.storage y ty b hb hold
    rw [cell_of_le (hm.part.le_of_reaches hm.new hy)] at hcell
    cases hcell
  isolated := Separate.isolated ⟨hm.grounded, hv.trans_le hm.cells_le, hm.lt, hm.apart hg hv⟩

end Heap

/-! ## Conforming to a type -/

/-- A number, or a slot. -/
def Cell.IsPlain : Cell → Prop
  | .primitive _ | .slot .. => True
  | _ => False

theorem Cell.isPlain_iff {c : Cell} :
    c.IsPlain ↔ (∃ p, c = .primitive p) ∨ ∃ ty content, c = .slot ty content := by
  unfold Cell.IsPlain
  cases c <;> simp

/-- A number or pointer type. -/
def Ty.IsScalar (ty : Ty) : Prop :=
  match ty.unqualified with
  | .primitive k _ => k ≠ .void
  | .pointer _ => True
  | _ => False

theorem Ty.isScalar_iff {ty : Ty} :
    ty.IsScalar ↔ (∃ k u, ty.unqualified = .primitive k u ∧ k ≠ .void) ∨
      ∃ target, ty.unqualified = .pointer target := by
  unfold Ty.IsScalar
  cases ty.unqualified <;> simp

namespace Heap

variable {ty : Ty}

/-- A value cast to a number. -/
theorem casted_number {k : Kind} {u : Bool} (hty : ty.unqualified = .primitive k u) (hk : k ≠ .void)
    (c : Cell) : h.casted c ty =
      match c with
      | .primitive p => .ok (.cell (.primitive (p.converted k u)))
      | .pointer p =>
        if h.isNull p then .ok (.cell (.primitive (.zero k u)))
        else .error (.invalidCast (h.cellTy c) ty)
      | .slot .. => .ok (.cell (.primitive (.zero k u)))
      | _ => .error (.invalidCast (h.cellTy c) ty) := by
  unfold casted
  rw [hty]
  cases k with
  | void => exact absurd rfl hk
  | char | short | int | long | float | double => cases c <;> rfl

/-- A value cast to a pointer. -/
theorem casted_pointer {target : Ty} (hty : ty.unqualified = .pointer target) (c : Cell) :
    h.casted c ty =
      match c with
      | .primitive p =>
        if p.isNullConstant then .ok (.null target) else .error (.invalidCast (h.cellTy c) ty)
      | .pointer p => .ok (.cell (.pointer (p.retargeted target)))
      | .array _ b => .ok (.cell (.pointer ⟨target, b, 0⟩))
      | .slot .. => .ok (.null target)
      | _ => .error (.invalidCast (h.cellTy c) ty) := by
  unfold casted
  rw [hty]
  cases c <;> rfl

/-- Conforming converts the value: it is a number or absent, and the type scalar. -/
def Converts (h : Heap) (r : Ref) (ty : Ty) : Prop :=
  ty.IsScalar ∧ (h.cell (h.flatten r)).IsPlain

/-- What conforming to the type makes of the value: what a cast makes, if it is
    converted, and otherwise the copy for binding. -/
structure Conformed (h : Heap) (r : Ref) (ty : Ty) (x : Ref) (h' : Heap) : Prop where
  converted : h.Converts r ty → ∃ k, h.casted (h.cell (h.flatten r)) ty = .ok k ∧ h.Holds x h' k
  kept : ¬ h.Converts r ty → h'.tree x = h.boundTree r

/-- Where nothing is pointed at, a cast does not depend on the heap. -/
theorem casted_congr {c : Cell} (hc : c.IsPlain) (hty : ty.IsScalar) :
    h'.casted c ty = h.casted c ty := by
  rcases Ty.isScalar_iff.1 hty with ⟨k, u, hty, hk⟩ | ⟨target, hty⟩
  · rw [casted_number hty hk, casted_number hty hk]
    cases c with
    | primitive | slot => rfl
    | array | pointer | compound => exact hc.elim
  · rw [casted_pointer hty, casted_pointer hty]
    cases c with
    | primitive | slot => rfl
    | array | pointer | compound => exact hc.elim

theorem Sound.flatten_of_slot (hs : h.Sound) {content : Option Ref}
    (hr : h.cell (h.flatten r) = .slot ty content) : content = none := by
  have habsent : h.isAbsent r := by
    by_contra hr'
    exact hs.not_isSlot_flatten hr' (hr ▸ trivial)
  unfold isAbsent at habsent
  unfold flatten at hr
  split at habsent
  · rename_i hc
    rw [hc] at hr
    cases hc.symm.trans hr
    rfl
  · cases habsent

/-- Of a number or absent value the copy for binding is just that. -/
theorem Copied.cell_eq (hm : h.Copied (h.boundTree r) x h₁) (hs : h.Sound)
    (hplain : (h.cell (h.flatten r)).IsPlain ∨ (h₁.cell x).IsPlain) :
    h₁.cell x = h.cell (h.flatten r) ∧ h₁.flatten x = x := by
  have htree := hm.tree_eq
  unfold boundTree at htree
  have htree' := hs.grounded.tree_eq (h.flatten r)
  cases hc : h.cell (h.flatten r) with
  | primitive p =>
    rw [hc] at htree htree'
    have hx := hm.grounded.cell_of_primitive (htree.trans htree')
    exact ⟨hx, by unfold flatten; rw [hx]⟩
  | slot ty content =>
    obtain rfl := hs.flatten_of_slot hc
    rw [hc] at htree htree'
    have hx := hm.grounded.cell_of_absent (htree.trans htree')
    exact ⟨hx, by unfold flatten; rw [hx]⟩
  | array element b =>
    rw [hc] at htree hplain
    rw [hm.grounded.cell_of_pointer htree] at hplain
    exact (hplain.elim id id).elim
  | pointer p =>
    rw [hc] at htree htree' hplain
    rw [hm.grounded.cell_of_pointer (htree.trans htree')] at hplain
    exact (hplain.elim id id).elim
  | compound ty fields =>
    rw [hc] at htree htree' hplain
    obtain ⟨refs, hx, -⟩ := hm.grounded.cell_of_compound (htree.trans htree')
    rw [hx] at hplain
    exact (hplain.elim id id).elim

end Heap

theorem ends_conform (hs : h.Sound) (r : Ref) (ty : Ty) :
    Ends (conform r ty) h (fun x h' => h.Minted x h' ∧ h.Conformed r ty x h')
      fun halt h' => h.Rewrites (fun _ => False) h' ∧ h.Converts r ty ∧
        ∃ c, halt = .of c ∧ h.casted (h.cell (h.flatten r)) ty = .error c := by
  refine ends_bind.2 ((ends_copyForBinding hs.grounded r).mono ?_ fun _ _ => False.elim)
  intro bound h₁ hm
  -- the copy is a number or absent when the value is
  have hcell := fun hplain => hm.cell_eq hs hplain
  have hcast : ty.IsScalar → (h₁.cell bound).IsPlain → Ends (castTo bound ty) h₁
      (fun x h' => h.Minted x h' ∧ h.Conformed r ty x h')
      fun halt h' => h.Rewrites (fun _ => False) h' ∧ h.Converts r ty ∧
        ∃ c, halt = .of c ∧ h.casted (h.cell (h.flatten r)) ty = .error c := by
    intro hty hplain
    obtain ⟨hcell, hflatten⟩ := hcell (.inr hplain)
    have hconv : h.Converts r ty := ⟨hty, hcell ▸ hplain⟩
    have hcasted : h₁.casted (h₁.cell (h₁.flatten bound)) ty = h.casted (h.cell (h.flatten r)) ty := by
      rw [hflatten, hcell]
      exact Heap.casted_congr hconv.2 hty
    refine (ends_castTo hm.grounded bound ty).mono ?_ ?_
    · rintro x h' ⟨hm', k, hk, hx⟩
      refine ⟨hm.toRewrites.minted hm', fun _ => ⟨k, hcasted ▸ hk, ?_⟩, absurd hconv⟩
      cases k with
      | cell c => exact hx
      | null target =>
        obtain ⟨b, hb, hx⟩ := hx
        exact ⟨b, hm.blocks_le.trans hb, hx⟩
    · rintro c h' ⟨rfl, he⟩
      exact ⟨hm.toRewrites, hconv, hcasted ▸ he⟩
  have hkeep : ¬ h.Converts r ty → h.Minted bound h₁ ∧ h.Conformed r ty bound h₁ := fun hconv =>
    ⟨hm.toMinted, fun h' => absurd h' hconv, fun _ => hm.tree_eq⟩
  refine ends_bind.2 (ends_read.2 ?_)
  split
  case h_1 u hu =>
    refine hkeep fun hconv => ?_
    rcases Ty.isScalar_iff.1 hconv.1 with ⟨k, u, hk, hvoid⟩ | ⟨target, htarget⟩
    · cases hu.symm.trans hk
      exact hvoid rfl
    · cases hu.symm.trans htarget
  case h_2 k u p hk hu hc =>
    exact hcast (Ty.isScalar_iff.2 (.inl ⟨k, u, hu, hk⟩)) (Cell.isPlain_iff.2 (.inl ⟨p, hc⟩))
  case h_3 k u ty' content hk hu hc =>
    exact hcast (Ty.isScalar_iff.2 (.inl ⟨k, u, hu, hk⟩)) (Cell.isPlain_iff.2 (.inr ⟨ty', content, hc⟩))
  case h_4 target p hu hc =>
    exact hcast (Ty.isScalar_iff.2 (.inr ⟨target, hu⟩)) (Cell.isPlain_iff.2 (.inl ⟨p, hc⟩))
  case h_5 target ty' content hu hc =>
    exact hcast (Ty.isScalar_iff.2 (.inr ⟨target, hu⟩)) (Cell.isPlain_iff.2 (.inr ⟨ty', content, hc⟩))
  case h_6 hvoid hnumber hzero hnull habsent =>
    refine hkeep fun hconv => ?_
    have hplain : (h₁.cell bound).IsPlain := (hcell (.inl hconv.2)).1 ▸ hconv.2
    rcases Ty.isScalar_iff.1 hconv.1 with ⟨k, u, hu, -⟩ | ⟨target, hu⟩
    · rcases Cell.isPlain_iff.1 hplain with ⟨p, hc⟩ | ⟨ty', content, hc⟩
      · exact hnumber k u p hu hc
      · exact hzero k u ty' content hu hc
    · rcases Cell.isPlain_iff.1 hplain with ⟨p, hc⟩ | ⟨ty', content, hc⟩
      · exact hnull target p hu hc
      · exact habsent target ty' content hu hc

/-- In a sound heap a copy ends, whatever its bound on levels, changes nothing that
    was there and looks like the value; it consists of new cells, and what is
    written to one of the two never shows in the other. The same is true of the
    copy for binding, where an array becomes a pointer to its first element, and of
    the value that conforms to a type. That fails only where a cast of a number
    does. -/
theorem copy_isolated (hs : h.Sound) (hv : v.id < h.cells.size) :
    (∃ x h', copy v h = .ok x h' ∧ (∀ k, h.levels ≤ k → copyWithin k v h = .ok x h') ∧
      h'.tree x = h.tree v ∧ h.Detached v x h') ∧
    (∃ x h', copyForBinding v h = .ok x h' ∧ h'.tree x = h.boundTree v ∧ h.Detached v x h') ∧
    ∀ ty, Ends (conform v ty) h (fun x h' => h.Conformed v ty x h' ∧ h.Detached v x h')
      fun halt h' => h.Converts v ty ∧
        (∃ c, halt = .of c ∧ h.casted (h.cell (h.flatten v)) ty = .error c) ∧ h.Adds h' := by
  have hg := hs.grounded
  refine ⟨?_, ?_, fun ty => ?_⟩
  · obtain ⟨x, h', hcopy, hm⟩ := (ends_copy hg v).exists_ok
    refine ⟨x, h', hcopy, fun k hk => ?_, hm.tree_eq, hm.toMinted.detached hg hv⟩
    rw [copyWithin_eq_copy hs hk, hcopy]
  · obtain ⟨x, h', hcopy, hm⟩ := (ends_copyForBinding hg v).exists_ok
    exact ⟨x, h', hcopy, hm.tree_eq, hm.toMinted.detached hg hv⟩
  · refine (ends_conform hs v ty).mono ?_ ?_
    · rintro x h' ⟨hm, hconformed⟩
      exact ⟨hconformed, hm.detached hg hv⟩
    · rintro c h' ⟨hw, hconv, he⟩
      exact ⟨hconv, he, hw.adds⟩

/-- A heap with an array of arrays in it. -/
def rows : Heap :=
  leaves (createValue {} (.array (.array .int (some 2)) (some 2))) {}

theorem rows_isolated : createValue {} (.array (.array .int (some 2)) (some 2)) {} = .ok ⟨12⟩ rows ∧
    ∃ x h', copy ⟨12⟩ rows = .ok x h' ∧ h'.tree x = rows.tree ⟨12⟩ ∧ rows.Detached ⟨12⟩ x h' := by
  have hrows : createValue {} (.array (.array .int (some 2)) (some 2)) {} = .ok ⟨12⟩ rows :=
    eq_ok_of_outcome (by decide +kernel)
  have hm := (makes_createValue {} _ .empty).of_ok hrows
  obtain ⟨x, h', hcopy, -, htree, hdetached⟩ := (copy_isolated hm.sound (v := ⟨12⟩) (by decide +kernel)).1
  exact ⟨hrows, x, h', hcopy, htree, hdetached⟩

end Treewalk
