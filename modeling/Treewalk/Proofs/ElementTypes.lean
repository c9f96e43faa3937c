/-
  The element types of new arrays.

  * `Heap.Truthful h r`: every array in the value records the type that its slots report,
    up to outer qualifiers;
  * `Ty.recorded element sizes`: the type that an array records for elements declared with
    the type, `sizes` being the dimensions below;
  * `Ty.Settled element sizes`: two levels below each array, the type that is written is
    the one that is recorded;
  * `createArray_truthful_iff`: a new array is truthful just if its type is settled. Of the
    dimensions below an array the recorded type has the next one only, while its slots
    have all of them.
-/
import Treewalk.Proofs.Dimensions

namespace Treewalk

namespace ValueTree

variable {t : ValueTree} {ts : List ValueTree}

/-! ## Trees in a tree -/

/-- What stands directly in the tree. -/
def parts : ValueTree → List ValueTree
  | .array _ slots => slots
  | .slot _ (some t) => [t]
  | .compound _ fields => fields.map Prod.snd
  | .primitive _ | .pointer _ | .slot _ none => []

theorem nodes_eq (t : ValueTree) : t.nodes = t :: t.parts.flatMap nodes := by
  cases t with
  | primitive | pointer => rfl
  | array => rw [nodes, slotNodes_eq]; rfl
  | slot ty content =>
    cases content with
    | none => rfl
    | some t => simp [nodes, parts]
  | compound => rw [nodes, fieldNodes_eq]; rfl

end ValueTree

open Mem ValueTree

variable {h h' : Heap} {p : Program} {element : Ty} {sizes : List Nat} {r : Ref}

theorem Heap.Grounded.parts_tree (hg : h.Grounded) (r : Ref) : (h.tree r).parts = (h.parts r).map h.tree := by
  rw [hg.tree_eq, Heap.parts]
  cases h.cell r with
  | primitive | pointer | array => rfl
  | slot ty content => cases content <;> rfl
  | compound ty fields => simp [treeOf, ValueTree.parts, contents, Function.comp_def]

/-- The trees in the tree of a value are those of what it reaches. -/
theorem Heap.Grounded.mem_nodes_iff {t : ValueTree} (hg : h.Grounded) :
    t ∈ (h.tree r).nodes ↔ ∃ a, Reaches h.parts r a ∧ h.tree a = t := by
  induction r using hg.wf.induction with
  | _ r ih =>
    rw [nodes_eq, hg.parts_tree, List.mem_cons, List.mem_flatMap]
    constructor
    · rintro (rfl | ⟨s, hs, ht⟩)
      · exact ⟨r, .refl, rfl⟩
      · obtain ⟨x, hx, rfl⟩ := List.mem_map.1 hs
        obtain ⟨a, ha, rfl⟩ := (ih x hx).1 ht
        exact ⟨a, .head hx ha, rfl⟩
    · rintro ⟨a, ha, rfl⟩
      rcases ha.cases_head with rfl | ⟨x, hx, hxa⟩
      · exact .inl rfl
      · exact .inr ⟨h.tree x, List.mem_map_of_mem hx, (ih x hx).2 ⟨a, hxa, rfl⟩⟩

/-- The type of a value, given its tree. -/
theorem Heap.Sound.ty_tree (hs : h.Sound) (r : Ref) : h.tyOf r = (h.tree r).ty := by
  by_cases hslot : h.isSlot r
  · unfold isSlot at hslot
    cases hc : h.cell r with
    | slot declared content =>
      rw [hs.grounded.tree_of_cell hc]
      cases content with
      | none => simp [tyOf, flatten, hc, cellTy, treeOf, ValueTree.ty]
      | some x =>
        have hx : ¬ h.isSlot x := hs.nested r declared x hc
        have hflat : h.tyOf r = h.tyOf x := by
          simp [tyOf, flatten_of_not_isSlot hx, show h.flatten r = x by simp [flatten, hc]]
        rw [hflat, hs.grounded.ty_tree hx]
        rfl
    | primitive | array | pointer | compound => rw [hc] at hslot; exact hslot.elim
  · exact hs.grounded.ty_tree hslot

/-! ## Truthful arrays -/

/-- Every array in the tree records the type of its slots. -/
def ValueTree.Truthful (t : ValueTree) : Prop :=
  ∀ element slots, .array element slots ∈ t.nodes → ∀ s ∈ slots, s.ty.unqualified = element.unqualified

/-- Every array in the value records the type that its slots report. -/
def Heap.Truthful (h : Heap) (r : Ref) : Prop :=
  ∀ a element b, Reaches h.parts r a → h.cell a = .array element b →
    ∀ x ∈ h.block b, (h.tyOf x).unqualified = element.unqualified

theorem Heap.Sound.truthful_iff (hs : h.Sound) : h.Truthful r ↔ (h.tree r).Truthful := by
  have hg := hs.grounded
  constructor
  · intro ht element slots hmem s hsm
    obtain ⟨a, ha, htree⟩ := hg.mem_nodes_iff.1 hmem
    obtain ⟨b, hb, rfl⟩ := hg.cell_of_array htree
    obtain ⟨x, hx, rfl⟩ := List.mem_map.1 hsm
    rw [← hs.ty_tree x]
    exact ht a element b ha hb x (Array.mem_toList_iff.1 hx)
  · intro ht a element b ha hb x hx
    have hmem : h.tree a ∈ (h.tree r).nodes := hg.mem_nodes_iff.2 ⟨a, ha, rfl⟩
    rw [hg.tree_of_cell hb] at hmem
    rw [hs.ty_tree x]
    exact ht element _ hmem _ (List.mem_map_of_mem (Array.mem_toList_iff.2 hx))

namespace ValueTree

variable {V : BlockRef → Prop} {t : ValueTree} {n : Nat} {ty : Ty}

theorem Truthful.of_parts (hparts : ∀ s ∈ t.parts, s.Truthful)
    (hself : ∀ element slots, t = .array element slots → ∀ s ∈ slots, s.ty.unqualified = element.unqualified) :
    t.Truthful := by
  intro element slots hmem
  rw [nodes_eq, List.mem_cons, List.mem_flatMap] at hmem
  rcases hmem with heq | ⟨s, hs, hmem⟩
  · exact hself element slots heq.symm
  · exact hparts s hs element slots hmem

theorem truthful_inSlot : t.inSlot.Truthful ↔ t.Truthful := by
  cases t with
  | compound | slot => exact Iff.rfl
  | primitive | array | pointer => simp [Truthful, inSlot, nodes]

/-- An array of values in their slots. -/
theorem truthful_array {element : Ty} {values : List ValueTree} :
    (array element (values.map inSlot)).Truthful ↔
      ∀ v ∈ values, v.ty.unqualified = element.unqualified ∧ v.Truthful := by
  constructor
  · intro ht v hv
    refine ⟨?_, truthful_inSlot.1 fun element' slots hmem => ht element' slots ?_⟩
    · rw [← ty_inSlot v]
      exact ht element _ (by simp [nodes]) _ (List.mem_map_of_mem hv)
    · rw [nodes_eq]
      exact List.mem_cons_of_mem _ (List.mem_flatMap.2 ⟨_, List.mem_map_of_mem hv, hmem⟩)
  · intro hvalues
    refine .of_parts (fun s hs => ?_) fun element' slots heq s hs => ?_
    · obtain ⟨v, hv, rfl⟩ := List.mem_map.1 hs
      exact truthful_inSlot.2 (hvalues v hv).2
    · cases heq
      obtain ⟨v, hv, rfl⟩ := List.mem_map.1 hs
      rw [ty_inSlot]
      exact (hvalues v hv).1

/-- Arrays of written sizes record what their slots report. -/
theorem ZeroOf.truthful (hz : ZeroOf p V n ty t) : t.Truthful := by
  induction hz with
  | number | pointer => exact .of_parts (by simp [ValueTree.parts]) (by simp)
  | array hvalues ih =>
    refine truthful_array.2 fun v hv => ⟨?_, ih v hv⟩
    rw [(hvalues v hv).ty_eq, Ty.unqualified_unqualified]
  | @compound n form name fields _ hnames _ ih =>
    refine .of_parts (fun s hs => ?_) fun _ _ heq => by cases heq
    obtain ⟨f, hf, rfl⟩ := List.mem_map.1 hs
    have hlength : fields.length = (p.allFields name).length := by
      simpa using congrArg List.length hnames
    rw [← List.map_fst_zip hlength.le] at hf
    obtain ⟨z, hz, rfl⟩ := List.mem_map.1 hf
    exact ih z hz
  | const _ ih => exact ih

end ValueTree

/-! ## Dimensions given at run time -/

namespace Ty

/-- The element type that an array records for elements declared with the type, of the
    dimensions below it. -/
def recorded (element : Ty) : List Nat → Ty
  | [] => element
  | next :: _ =>
    match element.unqualified with
    | .array inner _ => .array inner (some next)
    | _ => element

/-- Where there are elements at all, what is written for the elements of the elements is
    what is recorded for them. -/
def Settled : Ty → List Nat → Prop
  | element, size :: next :: sizes =>
    match element.unqualified with
    | .array inner _ => size = 0 ∨ inner.recorded sizes = inner ∧ inner.Settled (next :: sizes)
    | _ => True
  | _, _ => True

theorem recorded_of_not_isArray {element : Ty} (hty : ¬ element.isArray) (sizes : List Nat) :
    element.recorded sizes = element := by
  unfold recorded
  split
  · rfl
  · split
    · rename_i hunq
      exact absurd (isArray_of_unqualified hunq) hty
    · rfl

theorem settled_of_not_isArray {element : Ty} (hty : ¬ element.isArray) (sizes : List Nat) :
    element.Settled sizes := by
  unfold Settled
  split
  · split
    · rename_i hunq
      exact absurd (isArray_of_unqualified hunq) hty
    · trivial
  · trivial

theorem settled_of_length_le {element : Ty} {sizes : List Nat} (hlength : sizes.length ≤ 2) :
    element.Settled sizes := by
  unfold Settled
  split
  · rename_i inner
    obtain rfl : inner = [] := by simpa using hlength
    split
    · exact .inr ⟨rfl, trivial⟩
    · trivial
  · trivial

end Ty

namespace ValueTree.ArrayOf

variable {V : BlockRef → Prop} {t : ValueTree}

theorem ty_eq {size : Nat} (ht : ArrayOf p V element (size :: sizes) t) :
    t.ty = .array (element.recorded sizes) (some size) := by
  cases ht with
  | row hsizes _ =>
    have hrecorded : element.recorded sizes = element := by
      rcases hsizes with rfl | harray
      · rfl
      · exact Ty.recorded_of_not_isArray harray sizes
    rw [hrecorded, ValueTree.ty, List.length_map]
  | rows hunq _ =>
    rw [ValueTree.ty, List.length_map, Ty.recorded, hunq]

/-- An array is truthful just if its type is settled: the rows report all dimensions below
    them, while what is recorded of them has the next one only. -/
theorem truthful_iff (ht : ArrayOf p V element sizes t) : t.Truthful ↔ element.Settled sizes := by
  induction ht with
  | value hz => exact iff_of_true hz.truthful trivial
  | @row element sizes values hsizes hvalues =>
    refine iff_of_true (truthful_array.2 fun v hv => ⟨?_, (hvalues v hv).truthful⟩) ?_
    · rw [(hvalues v hv).ty_eq, Ty.unqualified_unqualified]
    · rcases hsizes with rfl | harray
      · exact trivial
      · exact Ty.settled_of_not_isArray harray _
  | @rows element inner written next sizes values hunq hvalues ih =>
    have hrow : ∀ v ∈ values, (v.ty.unqualified = (Ty.array inner (some next)).unqualified ∧ v.Truthful ↔
        inner.recorded sizes = inner ∧ inner.Settled (next :: sizes)) := by
      intro v hv
      rw [ih v hv, (hvalues v hv).ty_eq]
      simp [Ty.unqualified]
    rw [truthful_array, Ty.Settled, hunq]
    cases values with
    | nil => exact iff_of_true (by simp) (.inl rfl)
    | cons v values =>
      constructor
      · exact fun hall => .inr ((hrow v (by simp)).1 (hall v (by simp)))
      · rintro (hnil | hsettled) w hw
        · cases hnil
        · exact (hrow w hw).2 hsettled

end ValueTree.ArrayOf

/-- The element types recorded in a new array are those of the slots, at every level, just
    if below the second level, as far as there are elements, the type is written with the
    sizes given. With one dimension or two they always are. -/
theorem createArray_truthful_iff {p : Program} {element : Ty} {sizes : List Nat} {h h' : Heap} {r : Ref}
    (hs : h.Sound) (hr : createArray p element sizes h = .ok r h') :
    (h'.Truthful r ↔ element.Settled sizes) ∧ (sizes.length ≤ 2 → h'.Truthful r) := by
  have hsound := ((makes_createArray p element sizes hs).of_ok hr).sound
  obtain ⟨-, ht⟩ := (ends_createArray p element sizes hs.grounded).of_ok hr
  have htruthful := hsound.truthful_iff.trans ht.truthful_iff
  exact ⟨htruthful, fun hlength => htruthful.2 (Ty.settled_of_length_le hlength)⟩

/-- Rows of pairs, the pairs written with their size. -/
def sized : Heap :=
  leaves (createArray {} (.array (.array .int (some 2)) none) [1, 1, 2]) {}

theorem sized_truthful :
    createArray {} (.array (.array .int (some 2)) none) [1, 1, 2] {} = .ok ⟨8⟩ sized ∧
      Ty.Settled (.array (.array .int (some 2)) none) [1, 1, 2] ∧ sized.Truthful ⟨8⟩ := by
  have hmade : createArray {} (.array (.array .int (some 2)) none) [1, 1, 2] {} = .ok ⟨8⟩ sized := rfl
  have hsettled : Ty.Settled (.array (.array .int (some 2)) none) [1, 1, 2] :=
    .inr ⟨rfl, .inr ⟨rfl, trivial⟩⟩
  exact ⟨hmade, hsettled, (createArray_truthful_iff .empty hmade).1.2 hsettled⟩

/-- Rows of pairs, the pairs written without a size. -/
def unsized : Heap :=
  leaves (createArray {} (.array (.array .int none) none) [1, 1, 2]) {}

/-- The outer array knows the length of its row, but not that of the pair in it. -/
theorem unsized_not_truthful :
    createArray {} (.array (.array .int none) none) [1, 1, 2] {} = .ok ⟨8⟩ unsized ∧
      unsized.cell ⟨8⟩ = .array (.array (.array .int none) (some 1)) ⟨2⟩ ∧ unsized.block ⟨2⟩ = #[⟨7⟩] ∧
      unsized.tyOf ⟨7⟩ = .array (.array .int (some 2)) (some 1) ∧ ¬ unsized.Truthful ⟨8⟩ := by
  have hcell : unsized.cell ⟨8⟩ = .array (.array (.array .int none) (some 1)) ⟨2⟩ := rfl
  have hblock : unsized.block ⟨2⟩ = #[⟨7⟩] := rfl
  have hty : unsized.tyOf ⟨7⟩ = .array (.array .int (some 2)) (some 1) := rfl
  refine ⟨rfl, hcell, hblock, hty, fun htruthful => ?_⟩
  have hsame := htruthful ⟨8⟩ _ _ .refl hcell ⟨7⟩ (by simp [hblock])
  rw [hty] at hsame
  exact absurd hsame (by decide)

end Treewalk
