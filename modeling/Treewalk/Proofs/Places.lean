/-
  The places that pointers lead to.

  * `Heap.Inside h p`: there is a slot where `p` leads to;
  * `slotOf_inside`, `slotOf_outside`: a pointer has a slot exactly there, and
    asking for one elsewhere is an access error;
  * `pointerAndNumber_add`, `pointerAndNumber_sub`: moving a pointer adds to its
    offset, in 64 bits that wrap, and leaves its block and the type of its target
    alone.
-/
import Treewalk.Proofs.Retains

namespace Treewalk

variable {h h' : Heap} {p q : Pointer} {r : Ref} {b : BlockRef} {i : Int64} {n : Primitive}

/-! ## Slots -/

theorem slotAt?_neg {slots : Array Ref} (hi : i.toInt < 0) : slotAt? slots i = none :=
  if_pos (Int64.lt_iff_toInt_lt.2 hi)

theorem slotAt?_nonneg {slots : Array Ref} (hi : 0 ≤ i.toInt) : slotAt? slots i = slots[i.toInt.toNat]? := by
  have hneg : ¬ i < 0 := fun hlt => absurd (Int64.lt_iff_toInt_lt.1 hlt) (Int.not_lt_of_ge hi)
  exact if_neg hneg

theorem slotAt?_eq_none {slots : Array Ref} :
    slotAt? slots i = none ↔ ¬ (0 ≤ i.toInt ∧ i.toInt < slots.size) := by
  rcases Int.lt_or_le i.toInt 0 with hneg | hi
  · rw [slotAt?_neg hneg]
    simp only [true_iff]
    omega
  · rw [slotAt?_nonneg hi, Array.getElem?_eq_none_iff]
    omega

namespace Heap

/-- There is a slot where the pointer leads to. -/
def Inside (h : Heap) (p : Pointer) : Prop :=
  0 ≤ p.offset.toInt ∧ p.offset.toInt < h.blockSize p.block

instance : Decidable (h.Inside p) :=
  inferInstanceAs (Decidable (_ ∧ _))

theorem slotIn_eq_ok : h.slotIn b i = .ok r ↔ slotAt? (h.block b) i = some r := by
  unfold slotIn
  cases slotAt? (h.block b) i <;> simp

theorem slotIn_outside (hi : ¬ (0 ≤ i.toInt ∧ i.toInt < h.blockSize b)) :
    h.slotIn b i = .error (.access (.outOfBounds i (h.blockSize b))) := by
  unfold slotIn
  rw [slotAt?_eq_none.2 hi]

theorem Inside.hasStorage (hp : h.Inside p) : ¬ h.hasNoStorage p := by
  obtain ⟨hfirst, hlast⟩ := hp
  unfold hasNoStorage
  rw [beq_iff_eq]
  omega

theorem slotOf_eq_ok : h.slotOf p = .ok r ↔ slotAt? (h.block p.block) p.offset = some r := by
  unfold slotOf
  split
  · rename_i hempty
    have hsize : (h.block p.block).size = 0 := beq_iff_eq.1 hempty
    simp only [reduceCtorEq, false_iff]
    rw [slotAt?_eq_none.2 (by omega)]
    exact nofun
  · exact slotIn_eq_ok

/-- A pointer that leads to a slot. -/
theorem slotOf_inside (hp : h.Inside p) : ∃ r, h.slotOf p = .ok r := by
  cases hslot : slotAt? (h.block p.block) p.offset with
  | none => exact absurd hp (slotAt?_eq_none.1 hslot)
  | some r => exact ⟨r, slotOf_eq_ok.2 hslot⟩

theorem inside_of_slotOf (hr : h.slotOf p = .ok r) : h.Inside p := by
  by_contra hout
  cases (slotAt?_eq_none.2 hout).symm.trans (slotOf_eq_ok.1 hr)

/-- Any other pointer has no slot, and it is an access error to ask for one. -/
theorem slotOf_outside (hp : ¬ h.Inside p) : ∃ e, h.slotOf p = .error (.access e) := by
  unfold slotOf
  split
  · exact ⟨_, rfl⟩
  · exact ⟨_, slotIn_outside hp⟩

/-- Where a pointer leads to depends on its block only. -/
theorem slotOf_congr (hb : h'.block p.block = h.block p.block) : h'.slotOf p = h.slotOf p := by
  unfold slotOf slotIn hasNoStorage blockSize
  rw [hb]

end Heap

/-! ## Pointers that are moved -/

theorem Pointer.moved_moved (p : Pointer) (i j : Int64) : (p.moved i).moved j = p.moved (i + j) := by
  unfold moved
  rw [Int64.add_assoc]

theorem Pointer.moved_zero (p : Pointer) : p.moved 0 = p := by
  unfold moved
  rw [Int64.add_zero]

theorem Pointer.moved_neg (p : Pointer) (i : Int64) : (p.moved i).moved (-i) = p := by
  rw [moved_moved, Int64.add_right_neg, moved_zero]

/-- The pointer that is as far from `q` as `p` is. -/
theorem Pointer.moved_sub (p q : Pointer) : q.moved (p.offset - q.offset) = { q with offset := p.offset } := by
  unfold moved
  rw [Int64.add_comm, Int64.sub_add_cancel]

theorem pointerAndNumber_add (hn : ¬ n.isFloating) (first : Bool) :
    pointerAndNumber h .add p n first = .ok (.pointer (p.moved n.toInt64)) := by
  unfold pointerAndNumber
  rw [if_neg (by decide), if_neg hn]

theorem pointerAndNumber_sub (hn : ¬ n.isFloating) :
    pointerAndNumber h .sub p n false = .ok (.pointer (p.moved (-n.toInt64))) := by
  unfold pointerAndNumber
  rw [if_neg (by decide), if_neg hn]

/-- In a block that is not empty, pointers are equal where they are at the same
    offset. -/
theorem pointerPair_eq (hblock : q.block = p.block) (hp : ¬ h.hasNoStorage p) :
    pointerPair h .eq p q = .ok (.truth (p.offset == q.offset)) := by
  have hq : ¬ h.hasNoStorage q := by
    unfold Heap.hasNoStorage at hp ⊢
    rwa [hblock]
  simp [pointerPair, Heap.sameTarget, hp, hq, hblock]

end Treewalk
