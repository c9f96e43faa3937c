/-
  Releasing what a pointer leads to.

  * `Heap.Released h p r h'`: where `p` led to `r` there is an empty slot now, and
    nothing else has changed. A slot has been emptied in place; a compound, which
    stands in its block directly, has given way to a new slot;
  * `ends_assign_vacant`: what is stored into an empty slot is in it afterwards, as
    a cast makes it if the slot is declared as a number or pointer.

  Pointers hold on to the block and not to the slot, and so all that are in the same
  place see either.
-/
import Treewalk.Proofs.Conversions
import Treewalk.Proofs.Places
import Treewalk.Proofs.Safe

namespace Treewalk

open Mem

variable {h h' : Heap} {p q : Pointer} {r s v x : Ref} {ty : Ty}

/-! ## One release -/

/-- Where the pointer led to `r` there is an empty slot, and nothing else has
    changed. -/
structure Heap.Released (h : Heap) (p : Pointer) (r : Ref) (h' : Heap) : Prop where
  sound : h'.Sound
  layout : h'.layout = h.layout
  vacant : ∃ x, h'.slotOf p = .ok x ∧ h'.cell x = .slot (h.cellTy (h.cell r)) none ∧
    (h.isSlot r ∧ x = r ∨ ¬ h.isSlot r ∧ h.cells.size ≤ x.id)
  cell : ∀ x, x.id < h.cells.size → ¬ (x = r ∧ h.isSlot r) → h'.cell x = h.cell x
  blockSize : ∀ b, h'.blockSize b = h.blockSize b
  entry : ∀ b i, ¬ (b = p.block ∧ i = p.offset.toInt.toNat ∧ ¬ h.isSlot r) →
    (h'.block b)[i]? = (h.block b)[i]?

theorem release_eq (hr : h.slotOf p = .ok r) : release p h =
    (match h.cell r with
      | .slot .. => setContent r none
      | _ => do
        let empty ← absent (← read (·.tyOf r))
        change (·.setSlot p.block p.offset.toInt.toNat empty)) h := by
  unfold release
  rw [read_bind, if_neg (Heap.inside_of_slotOf hr).hasStorage, read_bind, hr]
  rfl

theorem release_slot {content : Option Ref} (hr : h.slotOf p = .ok r) (hc : h.cell r = .slot ty content) :
    release p h = .ok () (h.setCell r (.slot ty none)) := by
  rw [release_eq hr, hc]
  unfold setContent change
  dsimp only
  rw [hc]

theorem release_bare (hr : h.slotOf p = .ok r) (hc : ¬ h.isSlot r) : release p h = .ok ()
    ((h.alloc (.slot (h.cellTy (h.cell r)) none)).2.setSlot p.block p.offset.toInt.toNat ⟨h.cells.size⟩) := by
  have hty : h.tyOf r = h.cellTy (h.cell r) := by
    unfold Heap.tyOf
    rw [Heap.flatten_of_not_isSlot hc]
  unfold Heap.isSlot at hc
  rw [release_eq hr, ← hty]
  cases hcell : h.cell r with
  | slot =>
    rw [hcell] at hc
    exact absurd trivial hc
  | primitive | array | pointer | compound => rfl

namespace Heap.Released

theorem of_slot {content : Option Ref} (hs : (h.setCell r (.slot ty none)).Sound) (hr : h.slotOf p = .ok r)
    (hc : h.cell r = .slot ty content) : h.Released p r (h.setCell r (.slot ty none)) where
  sound := hs
  layout := rfl
  vacant := by
    have hslot : h.isSlot r := by simp [isSlot, hc, Cell.IsSlot]
    refine ⟨r, hr, ?_, .inl ⟨hslot, rfl⟩⟩
    rw [cell_setCell, if_pos ⟨rfl, lt_of_isSlot hslot⟩, hc]
    rfl
  cell := fun x _ hx => by
    refine cell_setCell_of_ne _ _ fun hxr => hx ⟨hxr, ?_⟩
    simp [isSlot, hc, Cell.IsSlot]
  blockSize := fun _ => rfl
  entry := fun _ _ _ => rfl

theorem of_bare (hs : ((h.alloc (.slot (h.cellTy (h.cell r)) none)).2.setSlot p.block p.offset.toInt.toNat
      ⟨h.cells.size⟩).Sound) (hr : h.slotOf p = .ok r) (hc : ¬ h.isSlot r) :
    h.Released p r ((h.alloc (.slot (h.cellTy (h.cell r)) none)).2.setSlot p.block p.offset.toInt.toNat
      ⟨h.cells.size⟩) := by
  obtain ⟨hfirst, hlast⟩ := inside_of_slotOf hr
  have hlt : p.offset.toInt.toNat < (h.block p.block).size := by
    unfold Heap.blockSize at hlast
    omega
  refine ⟨hs, rfl, ?_, fun x hx _ => ?_, fun b => ?_, fun b i hbi => ?_⟩
  · refine ⟨⟨h.cells.size⟩, slotOf_eq_ok.2 ?_, ?_, .inr ⟨hc, Nat.le_refl _⟩⟩
    · rw [slotAt?_nonneg hfirst, block_setSlot, if_pos rfl]
      exact Array.getElem?_setIfInBounds_self_of_lt hlt
    · exact (cell_alloc ..).trans (if_pos rfl)
  · exact cell_alloc_of_lt _ hx
  · unfold Heap.blockSize
    rw [block_setSlot]
    split
    · rename_i hb
      rw [hb]
      exact Array.size_setIfInBounds
    · rfl
  · rw [block_setSlot]
    split
    · rename_i hb
      rw [hb]
      have hne : p.offset.toInt.toNat ≠ i := fun hi => hbi ⟨hb, hi.symm, hc⟩
      exact Array.getElem?_setIfInBounds_ne hne
    · rfl

end Heap.Released

/-- A pointer that leads to a slot or compound releases it. -/
theorem release_inside (hs : h.Sound) (hr : h.slotOf p = .ok r) :
    ∃ h', release p h = .ok () h' ∧ h.Released p r h' := by
  have hsafe := safe_release (n := 0) p h hs (Nat.zero_le _)
  by_cases hc : h.isSlot r
  · obtain ⟨ty, content, hcell⟩ := Cell.isSlot_iff.1 hc
    have hrun := release_slot hr hcell
    exact ⟨_, hrun, .of_slot (hsafe.of_ok hrun).1 hr hcell⟩
  · have hrun := release_bare hr hc
    exact ⟨_, hrun, .of_bare (hsafe.of_ok hrun).1 hr hc⟩

/-! ## What pointers see -/

/-- A pointer in the same place differs in its target at most. -/
theorem Pointer.eq_retargeted (hb : q.block = p.block) (ho : q.offset = p.offset) :
    q = p.retargeted q.target := by
  obtain ⟨target, block, offset⟩ := q
  cases hb
  cases ho
  rfl

namespace Heap

/-- A pointer to an empty slot is null. -/
theorem isNull_of_vacant (hx : h.slotOf p = .ok x) (hc : h.cell x = .slot ty none) : h.isNull p := by
  have habsent : h.isAbsent x := by simp [isAbsent, hc]
  simp [isNull, slotOf_eq_ok.1 hx, habsent]

/-- Releasing it again changes nothing. -/
theorem release_vacant (hx : h.slotOf p = .ok x) (hc : h.cell x = .slot ty none) : release p h = .ok () h := by
  rw [release_slot hx hc, ← hc, setCell_self]

end Heap

theorem operate_null (hp : h.isNull p) {n : Primitive} (hn : n.isZero) :
    operate h .eq (.pointer p) (.number n) = .ok (.truth true) ∧
      operate h .eq (.number n) (.pointer p) = .ok (.truth true) := by
  have heq (first : Bool) : pointerAndNumber h .eq p n first = .ok (.truth true) := by
    unfold pointerAndNumber
    rw [if_pos (by decide), if_pos hn]
    unfold nullComparison
    rw [hp]
  exact ⟨heq false, heq true⟩

/-- How pointers that are not null themselves compare depends on the sizes of their
    blocks and on where these are. -/
theorem operate_congr (hsize : ∀ b, h'.blockSize b = h.blockSize b) (hlayout : h'.layout = h.layout) {op : BinaryOp} (hop : op.isComparison)
    (hp : ¬ h.hasNoStorage p) (hq : ¬ h.hasNoStorage q) :
    operate h' op (.pointer p) (.pointer q) = operate h op (.pointer p) (.pointer q) := by
  have hstorage (q : Pointer) : h'.hasNoStorage q = h.hasNoStorage q := by
    unfold Heap.hasNoStorage
    rw [hsize]
  cases op with
  | eq | ne | lt | le | gt | ge =>
    simp [operate, pointerPair, Heap.sameTarget, Heap.order, Heap.addressOf, hstorage, hlayout, hp, hq]
  | _ => cases hop

/-! ## Storing into an empty slot -/

/-- The slot has the value in it: what a cast makes of it if the slot is declared as a
    number or pointer, and a copy otherwise. -/
def Heap.Filled (h : Heap) (s : Ref) (ty : Ty) (v : Ref) (h' : Heap) : Prop :=
  ∃ y, h'.cell s = .slot ty (some y) ∧
    (ty.IsScalar → ∃ k, h.casted (h.cell (h.flatten v)) ty = .ok k ∧ h.Holds y h' k) ∧
    (¬ ty.IsScalar → h'.tree y = h.tree (h.flatten v))

/-- The copy of any value but an array is cast like the value. -/
theorem Heap.Sound.casted_copy {h₁ : Heap} (hs : h.Sound) (hty : ty.IsScalar) (hbare : ¬ h.isSlot v)
    (harray : ∀ element b, h.cell v ≠ .array element b) (hcopy : copyForBinding v h = .ok x h₁) :
    h₁.casted (h₁.cell (h₁.flatten x)) ty = h.casted (h.cell v) ty := by
  have hleaf (hc : (h.cell v).IsLeaf) :
      h₁.casted (h₁.cell (h₁.flatten x)) ty = h.casted (h.cell v) ty := by
    rw [copyForBinding_leaf hc] at hcopy
    cases hcopy
    have hnew : (h.alloc (h.cell v)).2.cell ⟨h.cells.size⟩ = h.cell v := Heap.cell_alloc_new h _
    have hflat : (h.alloc (h.cell v)).2.flatten ⟨h.cells.size⟩ = ⟨h.cells.size⟩ := by
      refine Heap.flatten_of_not_isSlot fun hslot => hbare ?_
      unfold Heap.isSlot at hslot ⊢
      rwa [hnew] at hslot
    rw [hflat, hnew]
    rcases Ty.isScalar_iff.1 hty with ⟨k, u, hu, hk⟩ | ⟨target, hu⟩
    · exact hs.casted_alloc hu hk _ _
    · exact Heap.casted_pointer_congr hu _
  cases hc : h.cell v with
  | primitive | pointer =>
    rw [hc] at hleaf
    exact hleaf trivial
  | array element b => exact absurd hc (harray element b)
  | slot => exact absurd (by simp [Heap.isSlot, hc, Cell.IsSlot]) hbare
  | compound ty' fields =>
    have hm := (ends_copyForBinding hs.grounded v).of_ok hcopy
    have hflat := Heap.flatten_of_not_isSlot hbare
    have htree : h.boundTree v = .compound ty' (fields.map fun f => (f.1, h.tree f.2)) := by
      unfold Heap.boundTree
      rw [hflat, hc]
      exact hs.grounded.tree_of_cell hc
    obtain ⟨refs, hx, -⟩ := hm.grounded.cell_of_compound (hm.tree_eq.trans htree)
    have hflat' : h₁.flatten x = x := by simp [Heap.flatten, hx]
    rw [hflat', hx]
    rcases Ty.isScalar_iff.1 hty with ⟨k, u, hu, hk⟩ | ⟨target, hu⟩
    · rw [Heap.casted_number hu hk, Heap.casted_number hu hk]
      rfl
    · rw [Heap.casted_pointer hu, Heap.casted_pointer hu]
      rfl

/-- Storing a value other than an array into an empty slot: it is in the slot
    afterwards, or there is no cast to the type of the slot. -/
theorem ends_assign_vacant (hs : h.Sound) (hslot : h.cell s = .slot ty none) (hpresent : ¬ h.isAbsent v)
    (harray : ∀ element b, h.cell (h.flatten v) ≠ .array element b) :
    Ends (assign s v) h (fun _ h' => h.Filled s ty v h')
      fun _ _ => ty.IsScalar ∧ ∃ e, h.casted (h.cell (h.flatten v)) ty = .error e := by
  have hbare := hs.not_isSlot_flatten hpresent
  rw [ends_congr (assign_vacant hs hpresent hslot)]
  by_cases hty : ty.IsScalar
  · have hcast := ends_fill_cast hs hty hpresent hslot fun x h₁ hcopy => hs.casted_copy hty hbare harray hcopy
    refine Ends.mono hcast ?_ ?_
    · rintro _ h' ⟨k, hk, y, hy, hholds⟩
      exact ⟨y, hy, fun _ => ⟨k, hk, hholds⟩, fun hnot => absurd hty hnot⟩
    · rintro _ _ ⟨-, -, he⟩
      exact ⟨hty, he⟩
  · have hlt : s.id < h.cells.size := Heap.lt_of_isSlot (hslot ▸ trivial)
    have hbound : h.boundTree (h.flatten v) = h.tree (h.flatten v) := by
      unfold Heap.boundTree
      rw [Heap.flatten_of_not_isSlot hbare]
      cases hc : h.cell (h.flatten v) with
      | array element b => exact absurd hc (harray element b)
      | primitive | pointer | slot | compound => rfl
    rw [ends_congr (fill_unconverted hty (Heap.not_isAbsent_of_not_isSlot hbare)), ends_bind]
    refine (ends_copyForBinding hs.grounded (h.flatten v)).mono ?_ fun _ _ => False.elim
    intro x h₁ hm
    have hcell : h₁.cell s = .slot ty none := (hm.cell s hlt id).trans hslot
    have hset : setContent s (some x) h₁ = .ok () (h₁.setCell s (.slot ty (some x))) := by
      simp only [setContent, change, hcell]
    have hrewrites := rewrites_content (A := fun _ => True) (E := fun _ _ => True) hm.toMinted hlt trivial
    have hg := (hrewrites.of_ok hset).grounded
    have htree := (ends_setContent_tree (E := fun _ _ => True) hm.toMinted hslot).of_ok hset
    have hcell' : (h₁.setCell s (.slot ty (some x))).cell s = .slot ty (some x) :=
      (Heap.cell_setCell ..).trans (if_pos ⟨rfl, hlt.trans_le hm.cells_le⟩)
    rw [hg.tree_of_cell hcell'] at htree
    rw [ends_iff_of_ok hset]
    refine ⟨x, hcell', fun hscalar => absurd hscalar hty, fun _ => ?_⟩
    rw [← hbound, ← hm.tree_eq]
    exact Option.some.inj (ValueTree.slot.inj htree).2

/-- All pointers to an empty slot see what is stored into it. -/
theorem assign_vacant_seen {h₁ : Heap} (hs : h.Sound) (hslot : h.slotOf p = .ok s)
    (hvacant : h.cell s = .slot ty none) (hpresent : ¬ h.isAbsent v)
    (harray : ∀ element b, h.cell (h.flatten v) ≠ .array element b) (hstore : assign s v h = .ok () h₁) :
    h₁.slotOf p = .ok s ∧ ¬ h₁.isNull p ∧ h.Filled s ty v h₁ := by
  have hlt : s.id < h.cells.size := Heap.lt_of_isSlot (hvacant ▸ trivial)
  obtain ⟨y, hy, hvalue⟩ := (ends_assign_vacant hs hvacant hpresent harray).of_ok hstore
  have hinside := Heap.inside_of_slotOf hslot
  have hblock : h₁.block p.block = h.block p.block := by
    refine (Ends.of_ok (rewrites_assign hs.grounded hlt v) hstore).block p.block ?_
    by_contra hle
    have hempty : h.block p.block = #[] := Heap.block_of_le (Nat.le_of_not_lt hle)
    refine hinside.hasStorage ?_
    simp [Heap.hasNoStorage, Heap.blockSize, hempty]
  have hslot' : h₁.slotOf p = .ok s := (Heap.slotOf_congr hblock).trans hslot
  refine ⟨hslot', ?_, y, hy, hvalue⟩
  have hpresent' : ¬ h₁.isAbsent s := by simp [Heap.isAbsent, hy]
  have hstorage := (Heap.inside_of_slotOf hslot').hasStorage
  simp [Heap.isNull, hstorage, Heap.slotOf_eq_ok.1 hslot', hpresent']

/-! ## Releases and later stores -/

/-- Releasing what a pointer leads to. The null pointer is left alone, and it is an
    access error if the pointer is outside its block; either way nothing changes.
    Otherwise there is an empty slot in its place, and nothing else has changed:
    every pointer to this place is null, which releasing it once more leaves as it
    is, but compares with others as before. A number, pointer or compound that is
    stored there later is refused only if there is no cast to the type of the slot,
    and otherwise all of these pointers see it. -/
theorem release_seen (hs : h.Sound) (p : Pointer) :
    (h.hasNoStorage p → release p h = .ok () h) ∧
    (¬ h.hasNoStorage p → ¬ h.Inside p → ∃ e, release p h = .error (.of (.access e)) h) ∧
    (h.Inside p → ∃ r h', h.slotOf p = .ok r ∧ release p h = .ok () h' ∧ h.Released p r h' ∧
      (∀ q, q.block = p.block → q.offset = p.offset →
        h'.isNull q ∧ release q h' = .ok () h' ∧ ∀ n : Primitive, n.isZero →
          operate h' .eq (.pointer q) (.number n) = .ok (.truth true) ∧
          operate h' .eq (.number n) (.pointer q) = .ok (.truth true)) ∧
      ∀ (op : BinaryOp) (q q' : Pointer), op.isComparison → ¬ h.hasNoStorage q → ¬ h.hasNoStorage q' →
        operate h' op (.pointer q) (.pointer q') = operate h op (.pointer q) (.pointer q')) ∧
    ∀ (h₁ : Heap) (s v : Ref) (ty : Ty), h₁.Sound → h₁.slotOf p = .ok s → h₁.cell s = .slot ty none →
      ¬ h₁.isAbsent v → (∀ element b, h₁.cell (h₁.flatten v) ≠ .array element b) →
      (∀ e h₂, assign s v h₁ = .error e h₂ →
        ty.IsScalar ∧ ∃ e, h₁.casted (h₁.cell (h₁.flatten v)) ty = .error e) ∧
      ∀ h₂, assign s v h₁ = .ok () h₂ → h₁.Filled s ty v h₂ ∧
        ∀ q, q.block = p.block → q.offset = p.offset → h₂.slotOf q = .ok s ∧ ¬ h₂.isNull q := by
  refine ⟨fun hempty => ?_, fun hstorage hout => ?_, fun hin => ?_, ?_⟩
  · unfold release
    rw [read_bind, if_pos hempty]
    rfl
  · obtain ⟨e, he⟩ := Heap.slotOf_outside hout
    refine ⟨e, ?_⟩
    unfold release
    rw [read_bind, if_neg hstorage, read_bind, he]
    rfl
  · obtain ⟨r, hr⟩ := Heap.slotOf_inside hin
    obtain ⟨h', hrun, hreleased⟩ := release_inside hs hr
    obtain ⟨x, hx, hvacant, -⟩ := hreleased.vacant
    refine ⟨r, h', hr, hrun, hreleased, fun q hb ho => ?_, fun op q q' hop hq hq' => ?_⟩
    · rw [Pointer.eq_retargeted hb ho]
      have hnull : h'.isNull (p.retargeted q.target) := Heap.isNull_of_vacant hx hvacant
      exact ⟨hnull, Heap.release_vacant hx hvacant, fun n hn => operate_null hnull hn⟩
    · exact operate_congr hreleased.blockSize hreleased.layout hop hq hq'
  · intro h₁ s v ty hs₁ hslot hvacant hpresent harray
    refine ⟨fun e h₂ herror => ?_, fun h₂ hstore => ?_⟩
    · exact (ends_assign_vacant hs₁ hvacant hpresent harray).of_error herror
    obtain ⟨hslot', hnull, hfilled⟩ := assign_vacant_seen hs₁ hslot hvacant hpresent harray hstore
    refine ⟨hfilled, fun q hb ho => ?_⟩
    rw [Pointer.eq_retargeted hb ho]
    exact ⟨hslot', hnull⟩

def token : Compound where
  name := "Token"
  form := .struct
  fields := [⟨"worth", .int⟩]

def mint : Program where
  compounds := ⟨[("Token", token)], by decide⟩

/-- An array of one token, and another token beside it. -/
def tokens : Heap :=
  leaves (do
    let _ ← createValue mint (.array (.compound .struct "Token") (some 1))
    createValue mint (.compound .struct "Token")) {}

/-- The token in the array has been released. -/
def tokenGone : Heap :=
  leaves (release ⟨.void, ⟨0⟩, 0⟩) tokens

/-- The other token has been stored there. -/
def tokenBack : Heap :=
  leaves (assign ⟨5⟩ ⟨4⟩) tokenGone

theorem token_replaced : tokens.Inside ⟨.void, ⟨0⟩, 0⟩ ∧ tokens.block ⟨0⟩ = #[⟨1⟩] ∧
    release ⟨.void, ⟨0⟩, 0⟩ tokens = .ok () tokenGone ∧ tokenGone.isNull ⟨.int, ⟨0⟩, 0⟩ ∧
    tokenGone.cell ⟨1⟩ = tokens.cell ⟨1⟩ ∧ assign ⟨5⟩ ⟨4⟩ tokenGone = .ok () tokenBack ∧
    ¬ tokenBack.isNull ⟨.int, ⟨0⟩, 0⟩ ∧
    ∃ y, tokenBack.cell ⟨5⟩ = .slot (.compound .struct "Token") (some y) ∧
      tokenBack.tree y = tokenGone.tree ⟨4⟩ := by
  have harray : createValue mint (.array (.compound .struct "Token") (some 1)) {} = .ok ⟨2⟩
      (leaves (createValue mint (.array (.compound .struct "Token") (some 1))) {}) := rfl
  have hboth : createValue mint (.compound .struct "Token")
      (leaves (createValue mint (.array (.compound .struct "Token") (some 1))) {}) = .ok ⟨4⟩ tokens := rfl
  have hs : tokens.Sound :=
    ((makes_createValue mint _ ((makes_createValue mint _ .empty).of_ok harray).sound).of_ok hboth).sound
  have hin : tokens.Inside ⟨.void, ⟨0⟩, 0⟩ := by decide
  obtain ⟨-, -, hrelease, hlater⟩ := release_seen hs ⟨.void, ⟨0⟩, 0⟩
  obtain ⟨r, h', hr, hrun, hreleased, haliases, -⟩ := hrelease hin
  obtain rfl : ⟨1⟩ = r := Except.ok.inj hr
  obtain rfl : tokenGone = h' := (EStateM.Result.ok.inj hrun).2
  have hvalue : tokenGone.cell (tokenGone.flatten ⟨4⟩) =
      .compound (.compound .struct "Token") [("worth", ⟨3⟩)] := rfl
  have hstore : assign ⟨5⟩ ⟨4⟩ tokenGone = .ok () tokenBack := rfl
  obtain ⟨-, hstored⟩ := hlater tokenGone ⟨5⟩ ⟨4⟩ (.compound .struct "Token") hreleased.sound rfl rfl
    (by decide) fun element b => by rw [hvalue]; exact nofun
  obtain ⟨⟨y, hy, -, htree⟩, hseen⟩ := hstored _ hstore
  refine ⟨hin, rfl, hrun, (haliases ⟨.int, ⟨0⟩, 0⟩ rfl rfl).1, ?_, hstore,
    (hseen ⟨.int, ⟨0⟩, 0⟩ rfl rfl).2, y, hy, htree id⟩
  exact hreleased.cell ⟨1⟩ (by decide) fun hslot => hslot.2

end Treewalk
