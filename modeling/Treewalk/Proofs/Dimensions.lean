/-
  Arrays with dimensions given at run time.

  * `ValueTree.ArrayOf p V element sizes t`: an array made for the element type and the
    sizes looks like `t`, null pointers pointing into blocks in `V`;
  * `Ty.under? k ty`: the type under `k` levels of arrays;
  * `Heap.Grid h leaf sizes r`: `r` is an array of arrays … of the lengths given, at the
    bottom of which everything is as `leaf` says;
  * `Heap.Unshared h r`: no cell stands at two places of the value;
  * `createArray_grid`: an array has the lengths given at run time, whatever is written.
-/
import Treewalk.Proofs.Stored
import Treewalk.Proofs.Zeros

namespace Treewalk

namespace Ty

variable {ty inner : Ty} {written : Option Nat}

/-- The type under `k` levels of arrays, sized or not, if there are as many. -/
def under? : Nat → Ty → Option Ty
  | 0, ty => some ty
  | k + 1, ty =>
    match ty.unqualified with
    | .array inner _ => inner.under? k
    | _ => none

theorem isArray_of_unqualified (hty : ty.unqualified = .array inner written) : ty.isArray := by
  rw [isArray, hty]

theorem exists_of_isArray (hty : ty.isArray) : ∃ inner written, ty.unqualified = .array inner written := by
  unfold isArray at hty
  split at hty
  · rename_i inner written h
    exact ⟨inner, written, h⟩
  · cases hty

theorem exists_of_under? {k : Nat} {base : Ty} (hty : ty.under? (k + 1) = some base) :
    ∃ inner written, ty.unqualified = .array inner written ∧ inner.under? k = some base := by
  unfold under? at hty
  split at hty
  · rename_i inner written h
    exact ⟨inner, written, h, hty⟩
  · cases hty

end Ty

namespace ValueTree

/-! ## What is made -/

/-- An array made for the element type and the sizes, outermost first, looks like the
    tree. -/
inductive ArrayOf (p : Program) (V : BlockRef → Prop) : Ty → List Nat → ValueTree → Prop
  | value {element : Ty} {t : ValueTree} : ZeroOf p V p.levels element t → ArrayOf p V element [] t
  | row {element : Ty} {sizes : List Nat} {values : List ValueTree} : (sizes = [] ∨ ¬ element.isArray) →
      (∀ v ∈ values, ZeroOf p V p.levels element v) →
      ArrayOf p V element (values.length :: sizes) (.array element (values.map inSlot))
  | rows {element inner : Ty} {written : Option Nat} {next : Nat} {sizes : List Nat}
      {values : List ValueTree} : element.unqualified = .array inner written →
      (∀ v ∈ values, ArrayOf p V inner (next :: sizes) v) →
      ArrayOf p V element (values.length :: next :: sizes)
        (.array (.array inner (some next)) (values.map inSlot))

namespace ArrayOf

variable {p : Program} {V V' : BlockRef → Prop} {element base : Ty} {sizes : List Nat} {t : ValueTree}

theorem mono (ht : ArrayOf p V element sizes t) (hV : ∀ b, V b → V' b) : ArrayOf p V' element sizes t := by
  induction ht with
  | value hz => exact .value (hz.mono hV)
  | row hsizes hvalues => exact .row hsizes fun v hv => (hvalues v hv).mono hV
  | rows hty _ ih => exact .rows hty ih

theorem not_isSlot (ht : ArrayOf p V element sizes t) : ¬ t.IsSlot := by
  cases ht with
  | value hz => exact hz.not_isSlot
  | row | rows => exact id

/-- There is an array for all dimensions that the element type has levels for, over a type
    with a zero. -/
theorem exists_of_under? {k : Nat} (hz : ∃ t, ZeroOf p V p.levels base t)
    (hty : element.under? sizes.length = some base) : ∃ t, ArrayOf p V element (k :: sizes) t := by
  induction sizes generalizing element k with
  | nil =>
    obtain ⟨t, hz⟩ := hz
    obtain rfl : element = base := Option.some.inj hty
    have hrow : ArrayOf p V element ((List.replicate k t).length :: []) _ :=
      .row (.inl rfl) fun v hv => (List.mem_replicate.1 hv).2 ▸ hz
    rw [List.length_replicate] at hrow
    exact ⟨_, hrow⟩
  | cons next sizes ih =>
    obtain ⟨inner, written, hunq, hinner⟩ := Ty.exists_of_under? hty
    obtain ⟨t, ht⟩ := ih (k := next) hinner
    have hrows : ArrayOf p V element ((List.replicate k t).length :: next :: sizes) _ :=
      .rows hunq fun v hv => (List.mem_replicate.1 hv).2 ▸ ht
    rw [List.length_replicate] at hrows
    exact ⟨_, hrows⟩

end ArrayOf

end ValueTree

open Mem ValueTree

variable {h h' : Heap} {p : Program} {element base : Ty} {sizes : List Nat} {r x : Ref}

/-- An array is made just if there is a tree for it to look like. -/
theorem ends_createArray (p : Program) (element : Ty) (sizes : List Nat) (hg : h.Grounded) :
    Ends (createArray p element sizes) h
      (fun r h' => h.Minted r h' ∧ ArrayOf p h'.Vacant element sizes (h'.tree r))
      fun _ _ => ∀ V t, ¬ ArrayOf p V element sizes t := by
  fun_induction createArray p element sizes generalizing h with
  | case1 element =>
    refine Ends.mono (ends_createValue p element hg) (fun r h' hr => ⟨hr.1, .value hr.2⟩) ?_
    intro _ _ hnone V t ht
    cases ht with
    | value ht => exact hnone V t ht
  | case2 element size inner written next rest hty ih =>
    refine (ends_replicateM_arrayOf (.array inner (some next)) size hg
      (fun _ _ _ ha ht => ht.mono fun _ hb => Heap.Vacant.of_adds hb ha) fun h₁ hg₁ => ih hg₁).mono ?_ ?_
    · rintro r h' ⟨hm, values, rfl, hvalues, htree⟩
      exact ⟨hm, htree ▸ .rows hty hvalues⟩
    · rintro _ _ ⟨hsize, hnone⟩ V t ht
      cases ht with
      | row hsizes _ =>
        rcases hsizes with hnil | harray
        · cases hnil
        · exact harray (Ty.isArray_of_unqualified hty)
      | rows hty' hvalues =>
        cases hty.symm.trans hty'
        obtain ⟨v, hv⟩ := List.exists_mem_of_length_pos hsize
        exact hnone V v (hvalues v hv)
  | case3 element size rest hflat =>
    refine (ends_replicateM_arrayOf element size hg
      (fun _ _ _ ha ht => ht.mono fun _ hb => Heap.Vacant.of_adds hb ha)
      fun h₁ hg₁ => ends_createValue p element hg₁).mono ?_ ?_
    · rintro r h' ⟨hm, values, rfl, hvalues, htree⟩
      refine ⟨hm, htree ▸ .row ?_ hvalues⟩
      cases rest with
      | nil => exact .inl rfl
      | cons next rest =>
        refine .inr fun harray => ?_
        obtain ⟨inner, written, hty⟩ := Ty.exists_of_isArray harray
        exact hflat inner written next rest hty rfl
    · rintro _ _ ⟨hsize, hnone⟩ V t ht
      cases ht with
      | row _ hvalues =>
        obtain ⟨v, hv⟩ := List.exists_mem_of_length_pos hsize
        exact hnone V v (hvalues v hv)
      | rows hty _ => exact hflat _ _ _ _ hty rfl

/-! ## Lengths -/

/-- An array of arrays … of the lengths given, outermost first. No slot is empty, and what
    the innermost hold is as `leaf` says. -/
def Heap.Grid (h : Heap) (leaf : Ref → Prop) : List Nat → Ref → Prop
  | [], r => leaf r
  | size :: sizes, r => ∃ element b, h.cell r = .array element b ∧ h.blockSize b = size ∧
      ∀ x ∈ h.block b, ¬ h.isAbsent x ∧ Heap.Grid h leaf sizes (h.flatten x)

/-- A zero value of the type, its pointers null. -/
def Heap.IsZero (p : Program) (h : Heap) (ty : Ty) (r : Ref) : Prop :=
  ∃ n, ZeroOf p h.Vacant n ty (h.tree r)

/-- What stands in a block that looks like the value in its slot. -/
theorem Heap.Grounded.flatten_of_inSlot {v : ValueTree} (hg : h.Grounded) (hx : h.tree x = v.inSlot)
    (hv : ¬ v.IsSlot) : ¬ h.isAbsent x ∧ h.tree (h.flatten x) = v := by
  rcases inSlot_eq hv with ⟨ty, fields, rfl, -⟩ | heq
  · have hbare : ¬ h.isSlot x := hg.isSlot_iff.not.2 (by rw [hx]; exact id)
    rw [flatten_of_not_isSlot hbare]
    exact ⟨not_isAbsent_of_not_isSlot hbare, hx⟩
  · rw [heq] at hx
    obtain ⟨y, hcell, hy⟩ := hg.cell_of_present hx
    simp [isAbsent, flatten, hcell, hy]

/-- The rows of an array, one level down. -/
theorem Heap.Grounded.grid_cons {leaf : Ref → Prop} {values : List ValueTree} (hg : h.Grounded)
    (hr : h.tree r = .array element (values.map inSlot)) (hv : ∀ v ∈ values, ¬ v.IsSlot)
    (hrow : ∀ v ∈ values, ∀ x, h.tree x = v → h.Grid leaf sizes x) :
    h.Grid leaf (values.length :: sizes) r := by
  obtain ⟨b, hb, hslots⟩ := hg.cell_of_array hr
  refine ⟨element, b, hb, ?_, fun x hx => ?_⟩
  · simpa [blockSize] using congrArg List.length hslots
  · have hmem : h.tree x ∈ values.map inSlot := hslots ▸ List.mem_map_of_mem (Array.mem_toList_iff.2 hx)
    obtain ⟨v, hvm, hxv⟩ := List.mem_map.1 hmem
    obtain ⟨hpresent, hflat⟩ := hg.flatten_of_inSlot hxv.symm (hv v hvm)
    exact ⟨hpresent, hrow v hvm _ hflat⟩

theorem ValueTree.ArrayOf.grid {k : Nat} (ht : ArrayOf p h.Vacant element (k :: sizes) (h.tree r))
    (hg : h.Grounded) (hty : element.under? sizes.length = some base) :
    h.Grid (h.IsZero p base) (k :: sizes) r := by
  induction sizes generalizing element k r with
  | nil =>
    cases hty
    generalize htree : h.tree r = t at ht
    cases ht with
    | row _ hvalues =>
      refine hg.grid_cons htree (fun v hv => (hvalues v hv).not_isSlot) ?_
      rintro v hv x rfl
      exact ⟨_, hvalues _ hv⟩
  | cons next sizes ih =>
    obtain ⟨inner, written, hunq, hinner⟩ := Ty.exists_of_under? hty
    generalize htree : h.tree r = t at ht
    cases ht with
    | row hsizes _ =>
      rcases hsizes with hnil | harray
      · cases hnil
      · exact absurd (Ty.isArray_of_unqualified hunq) harray
    | rows hunq' hvalues =>
      cases hunq.symm.trans hunq'
      refine hg.grid_cons htree (fun v hv => (hvalues v hv).not_isSlot) ?_
      rintro v hv x rfl
      exact ih (hvalues _ hv) hinner

/-! ## Places -/

/-- No cell stands at two places of the value: what stands at two different places differs,
    and has no cell in common unless the one is part of the other. -/
def Heap.Unshared (h : Heap) (r : Ref) : Prop :=
  ∀ (a b x y : Ref) (i j : Nat), Reaches h.parts r a → Reaches h.parts r b → (h.parts a)[i]? = some x →
    (h.parts b)[j]? = some y → (a, i) ≠ (b, j) →
    x ≠ y ∧ (Reaches h.parts x y ∨ Reaches h.parts y x ∨ h.Apart x y)

/-- In a sound heap only slots that nothing contains share cells with others. -/
theorem Heap.Sound.unshared (hs : h.Sound) (hr : ¬ h.isSlot r) : h.Unshared r := by
  have hloose : ∀ a, Reaches h.parts r a → ¬ Loose h.parts h.isSlot a := by
    rintro a ha ⟨hslot, hout⟩
    rcases ha.cases_tail with rfl | ⟨c, -, hc⟩
    · exact hr hslot
    · exact hout c hc
  intro a b x y i j ha hb hx hy hplaces
  have hxa := List.mem_of_getElem? hx
  have hyb := List.mem_of_getElem? hy
  refine ⟨?_, ?_⟩
  · rintro rfl
    rcases hs.forest.owner hxa hyb with rfl | hl | hl
    · obtain ⟨hi, -⟩ := List.getElem?_eq_some_iff.1 hx
      exact hplaces (by rw [(List.getElem?_inj hi (hs.forest.nodup a)).1 (hx.trans hy.symm)])
    · exact hloose a ha hl
    · exact hloose b hb hl
  · by_cases hcommon : ∃ z, Reaches h.parts x z ∧ Reaches h.parts y z
    · obtain ⟨z, hxz, hyz⟩ := hcommon
      have hcmp := hs.forest.comparable (fun w hw => hloose w ((ha.tail hxa).trans hw))
        (fun w hw => hloose w ((hb.tail hyb).trans hw)) hxz hyz
      exact hcmp.imp_right .inl
    · exact .inr (.inr fun z hxz hyz => hcommon ⟨z, hxz, hyz⟩)

/-- An array has the lengths given at run time, whatever sizes are written in the element
    type: made over a type that has a zero value, it holds one at each of its innermost
    places, and no cell stands at two places. -/
theorem createArray_grid {p : Program} {element base : Ty} {size : Nat} {sizes : List Nat} {h : Heap}
    (hs : h.Sound) (hty : element.under? sizes.length = some base)
    (hbase : ∃ r₀ h₀, createValue p base h = .ok r₀ h₀) :
    ∃ r h', createArray p element (size :: sizes) h = .ok r h' ∧
      h'.Grid (h'.IsZero p base) (size :: sizes) r ∧ h'.Unshared r := by
  obtain ⟨r₀, h₀, hok⟩ := hbase
  obtain ⟨-, hz⟩ := Ends.of_ok (ends_createValue p base hs.grounded) hok
  have hends := ends_createArray p element (size :: sizes) hs.grounded
  cases hmade : createArray p element (size :: sizes) h with
  | error c h' =>
    obtain ⟨t, ht⟩ := ArrayOf.exists_of_under? (k := size) ⟨_, hz⟩ hty
    exact absurd ht (hends.of_error hmade _ t)
  | ok r h' =>
    obtain ⟨hm, ht⟩ := hends.of_ok hmade
    have hsound := (makes_createArray p element (size :: sizes) hs).of_ok hmade
    exact ⟨r, h', rfl, ht.grid hm.grounded hty, hsound.sound.unshared (hsound.kind r (by simp))⟩

/-- Three levels are given, of which one is written with another size and one with none,
    and the level below is as it is written. -/
def harbour : Ty :=
  .array (.const (.array convoy none)) (some 7)

theorem harbour_grid : harbour.under? 2 = some convoy ∧
    ∃ r h', createArray fleet harbour [2, 3, 1] {} = .ok r h' ∧
      h'.Grid (h'.IsZero fleet convoy) [2, 3, 1] r ∧ h'.Unshared r := by
  have hmade : createValue fleet convoy {} = .ok ⟨11⟩ launched := by
    simp only [createValue, bind, EStateM.bind, launched_eq]
    rfl
  exact ⟨rfl, createArray_grid .empty rfl ⟨_, _, hmade⟩⟩

end Treewalk
