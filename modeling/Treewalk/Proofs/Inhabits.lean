/-
  Values of a type.

  * `Heap.Inhabits p gaps h r ty`: the value `r` is made the way `ty` says: a
    number of its kind, a pointer to its target, an array of values of the
    element type, a compound with the fields of its lineage. Where `gaps` are
    allowed, a slot may be empty;
  * `Inhabits.congr`: only what a value reaches counts;
  * `builds_createValue`: in a well-declared program there is a new value of
    every storable type, without gaps.
-/
import Treewalk.Proofs.Zeros
import Mathlib.Data.List.Forall2

namespace Treewalk

open Mem

/-- The value is made the way the type says, with empty slots only where gaps
    are allowed. -/
inductive Heap.Inhabits (p : Program) (gaps : Prop) (h : Heap) : Ref → Ty → Prop
  | primitive {r : Ref} {n : Primitive} : h.cell r = .primitive n → n.kind ≠ .void →
      Inhabits p gaps h r (.primitive n.kind n.unsigned)
  | pointer {r : Ref} {q : Pointer} : h.cell r = .pointer q → Inhabits p gaps h r (.pointer q.target)
  | array {r : Ref} {element : Ty} {b : BlockRef} {size : Option Nat} :
      h.cell r = .array element b → (∀ n ∈ size, h.blockSize b = n) →
      (∀ x ∈ h.block b, Inhabits p gaps h x element) → Inhabits p gaps h r (.array element size)
  | compound {r : Ref} {form : Form} {name : String} {fields : List (String × Ref)} :
      h.cell r = .compound (.compound form name) fields →
      List.Forall₂ (fun f d => f.1 = d.name) fields (p.allFields name) →
      (∀ e ∈ fields.zip (p.allFields name), Inhabits p gaps h e.1.2 e.2.ty) →
      Inhabits p gaps h r (.compound form name)
  | const {r : Ref} {ty : Ty} : Inhabits p gaps h r ty → Inhabits p gaps h r (.const ty)
  | present {r content : Ref} {declared ty : Ty} : h.cell r = .slot declared (some content) →
      Inhabits p gaps h content ty → Inhabits p gaps h r ty
  | absent {r : Ref} {declared ty : Ty} : gaps → h.cell r = .slot declared none →
      Inhabits p gaps h r ty

namespace Heap

variable {h h' : Heap} {p : Program} {gaps : Prop} {r x : Ref} {ty : Ty} {A : Ref → Prop}

/-- What a value of the type is, if it is no slot. -/
def Bare (p : Program) (gaps : Prop) (h : Heap) (r : Ref) : Ty → Prop
  | .primitive .. => ∃ n, h.cell r = .primitive n
  | .pointer target => ∃ q, h.cell r = .pointer q ∧ q.target = target
  | .array element _ => ∃ b, h.cell r = .array element b ∧ ∀ x ∈ h.block b, h.Inhabits p gaps x element
  | .compound form name => ∃ fields, h.cell r = .compound (.compound form name) fields ∧
      List.Forall₂ (fun f d => f.1 = d.name) fields (p.allFields name) ∧
      ∀ e ∈ fields.zip (p.allFields name), h.Inhabits p gaps e.1.2 e.2.ty
  | .const ty => h.Inhabits p gaps r ty

namespace Inhabits

/-- Only what the value reaches counts. -/
theorem congr (hi : h.Inhabits p gaps r ty) (hs : h.Sound)
    (hcell : ∀ y, Reaches h.parts r y → h'.cell y = h.cell y)
    (hblock : ∀ b, b.id < h.blocks.size → h'.block b = h.block b) : h'.Inhabits p gaps r ty := by
  induction hi with
  | primitive hc hk => exact .primitive ((hcell _ .refl).trans hc) hk
  | pointer hc => exact .pointer ((hcell _ .refl).trans hc)
  | @array r element b size hc hsize _ ih =>
    have hb := hblock b (hs.storage_lt r element b hc)
    refine .array ((hcell r .refl).trans hc) (fun n hn => ?_) fun x hx => ?_
    · unfold blockSize
      rw [hb]
      exact hsize n hn
    · rw [hb] at hx
      have hpart : x ∈ h.parts r := by
        rw [parts_of_cell hc]
        exact Array.mem_toList_iff.2 hx
      exact ih x hx fun y hy => hcell y (.head hpart hy)
  | @compound r form name fields hc hnames _ ih =>
    refine .compound ((hcell r .refl).trans hc) hnames fun e he => ih e he fun y hy => ?_
    have hpart : e.1.2 ∈ h.parts r := by
      rw [parts_of_cell hc]
      exact List.mem_map_of_mem (List.of_mem_zip he).1
    exact hcell y (.head hpart hy)
  | const _ ih => exact .const (ih hcell)
  | @present r content declared ty hc _ ih =>
    have hpart : content ∈ h.parts r := by
      rw [parts_of_cell hc]
      exact List.mem_singleton_self content
    exact .present ((hcell r .refl).trans hc) (ih fun y hy => hcell y (.head hpart hy))
  | absent hgaps hc => exact .absent hgaps ((hcell _ .refl).trans hc)

/-- A value that no edited cell is part of is a value of the type still. -/
theorem of_edits (hi : h.Inhabits p gaps r ty) (hs : h.Sound) (hr : r.id < h.cells.size)
    (he : h.Edits A h') (hA : ∀ y, Reaches h.parts r y → ¬ A y) : h'.Inhabits p gaps r ty :=
  hi.congr hs (fun y hy => he.cell y (hs.lt_of_reaches hr hy) (hA y hy)) he.block

theorem of_adjoins (hi : h.Inhabits p gaps r ty) (hs : h.Sound) (hr : r.id < h.cells.size)
    (ha : h.Adjoins h') : h'.Inhabits p gaps r ty :=
  hi.of_edits hs hr (ha.edits (A := fun _ => False)) fun _ _ => id

/-- A value without gaps is one with gaps allowed. -/
theorem mono {gaps' : Prop} (hi : h.Inhabits p gaps r ty) (hgaps : gaps → gaps') :
    h.Inhabits p gaps' r ty := by
  induction hi with
  | primitive hc hk => exact .primitive hc hk
  | pointer hc => exact .pointer hc
  | array hc hsize _ ih => exact .array hc hsize ih
  | compound hc hnames _ ih => exact .compound hc hnames ih
  | const _ ih => exact .const ih
  | present hc _ ih => exact .present hc ih
  | absent hg hc => exact .absent (hgaps hg) hc

/-- A value without gaps is no empty slot. -/
theorem not_isAbsent (hi : h.Inhabits p False r ty) : ¬ h.isAbsent r := by
  induction hi with
  | primitive hc | pointer hc | array hc | compound hc | present hc => simp [isAbsent, hc]
  | const _ ih => exact ih
  | absent hgaps => exact hgaps.elim

/-- A slot that is not empty stands for its content. -/
theorem flatten (hi : h.Inhabits p gaps r ty) (hpresent : ¬ h.isAbsent r) :
    h.Inhabits p gaps (h.flatten r) ty := by
  have hcell {r : Ref} (hslot : ∀ declared content, h.cell r ≠ .slot declared content) :
      h.flatten r = r := by
    unfold Heap.flatten
    split
    · rename_i hc
      exact absurd hc (hslot _ _)
    · rfl
  induction hi with
  | primitive hc hk => rw [hcell (by simp [hc])]; exact .primitive hc hk
  | pointer hc => rw [hcell (by simp [hc])]; exact .pointer hc
  | array hc hsize helements => rw [hcell (by simp [hc])]; exact .array hc hsize helements
  | compound hc hnames hfields => rw [hcell (by simp [hc])]; exact .compound hc hnames hfields
  | const _ ih => exact .const (ih hpresent)
  | present hc hi => simp only [Heap.flatten, hc]; exact hi
  | absent _ hc => simp [isAbsent, hc] at hpresent

/-- What is no slot is the way its type says. -/
theorem bare (hi : h.Inhabits p gaps r ty) (hr : ¬ h.isSlot r) : h.Bare p gaps r ty := by
  have hslot {declared : Ty} {content : Option Ref} (hc : h.cell r = .slot declared content) :
      False := by
    unfold isSlot at hr
    rw [hc] at hr
    exact hr trivial
  cases hi with
  | primitive hc _ => exact ⟨_, hc⟩
  | pointer hc => exact ⟨_, hc, rfl⟩
  | array hc _ helements => exact ⟨_, hc, helements⟩
  | compound hc hnames hfields => exact ⟨_, hc, hnames, hfields⟩
  | const hi => exact hi
  | present hc _ | absent _ hc => exact (hslot hc).elim

theorem unqualified (hi : h.Inhabits p gaps r ty) (hr : ¬ h.isSlot r) :
    h.Inhabits p gaps r ty.unqualified := by
  induction ty with
  | const inner ih => exact ih (hi.bare hr)
  | _ => exact hi

/-- There is no value of type `void`. -/
theorem isAbsent_of_isVoid (hi : h.Inhabits p gaps r ty) (hs : h.Sound) (hty : ty.isVoid) :
    h.isAbsent r := by
  induction hi with
  | @primitive _ n _ hk =>
    unfold Ty.isVoid Ty.unqualified at hty
    split at hty
    · rename_i hkind
      injection hkind with hkind
      exact absurd hkind hk
    · cases hty
  | const _ ih => exact ih hty
  | @present r content declared ty hc _ ih =>
    have hcontent := hs.nested r declared content hc
    unfold isAbsent at ih
    split at ih
    · rename_i hslot
      rw [hslot] at hcontent
      exact absurd trivial hcontent
    · exact absurd (ih hty) (by simp)
  | absent _ hc => simp [isAbsent, hc]
  | pointer | array | compound => cases hty

end Inhabits

end Heap

/-! ## New values -/

section Zeros

open ValueTree

variable {p : Program} {h : Heap} {ty : Ty} {n : Nat} {V : BlockRef → Prop}

/-- What looks like a zero value of the type is one, without gaps. -/
theorem Heap.Inhabits.of_zeroOf {t : ValueTree} {r : Ref} (hz : ZeroOf p V n ty t) (hg : h.Grounded)
    (ht : h.tree r = t) : h.Inhabits p False r ty := by
  induction hz generalizing r with
  | @number _ k u hk => exact .primitive (n := .zero k u) (hg.cell_of_primitive ht) hk
  | @pointer _ target b => exact .pointer (q := ⟨target, b, 0⟩) (hg.cell_of_pointer ht)
  | @array _ element values hvalues ih =>
    obtain ⟨b, hc, hslots⟩ := hg.cell_of_array ht
    refine .array hc (fun k hk => ?_) fun x hx => ?_
    · rw [← Option.some.inj hk, ← List.length_map inSlot, ← hslots]
      simp [Heap.blockSize]
    · have hmem : h.tree x ∈ values.map inSlot := hslots ▸ List.mem_map_of_mem (Array.mem_toList_iff.2 hx)
      obtain ⟨v, hv, hx⟩ := List.mem_map.1 hmem
      rcases inSlot_eq (hvalues v hv).not_isSlot with ⟨_, _, -, hslot⟩ | hslot
      · exact ih v hv (hx.symm.trans hslot)
      · obtain ⟨content, hcontent, htree⟩ := hg.cell_of_present (hx.symm.trans hslot)
        exact .present hcontent (ih v hv htree)
  | @compound _ form name fields _ hnames _ ih =>
    obtain ⟨refs, hc, rfl⟩ := hg.cell_of_compound ht
    refine .compound hc ?_ fun z hz => ?_
    · rw [List.map_map] at hnames
      exact (List.forall₂_map_left_iff.1 (List.forall₂_map_right_iff.1 (List.forall₂_eq_eq_eq ▸ hnames)))
    · obtain ⟨i, hf, hd⟩ := mem_zip_iff.1 hz
      exact ih ((z.1.1, h.tree z.1.2), z.2) (mem_zip_iff.2 ⟨i, by simp [hf], hd⟩) rfl
  | const _ ih => exact .const (ih ht)

/-- A storable type has a zero value, if the compound that it holds has one. -/
theorem exists_zeroOf_of_held {b : BlockRef} (hb : V b) (hty : p.Storable ty)
    (hheld : ∀ form name, ty.held? = some name → ∃ t, ZeroOf p V n (.compound form name) t) :
    ∃ t, ZeroOf p V n ty t := by
  induction ty with
  | primitive k u => exact ⟨_, .number hty⟩
  | pointer target => exact ⟨_, .pointer hb⟩
  | array element size ih =>
    cases size with
    | none => exact hty.elim
    | some k =>
      obtain ⟨t, ht⟩ := ih hty hheld
      have hvalues : ∀ v ∈ List.replicate k t, ZeroOf p V n element v := fun v hv => List.eq_of_mem_replicate hv ▸ ht
      have harray := ZeroOf.array hvalues
      rw [List.length_replicate] at harray
      exact ⟨_, harray⟩
  | compound form name => exact hheld form name rfl
  | const inner ih =>
    obtain ⟨t, ht⟩ := ih hty hheld
    exact ⟨t, .const ht⟩

/-- So has a declared compound with storable fields, nested as deep as it is followed. -/
theorem exists_zeroOf_compound {b : BlockRef} {name : String} (hb : V b) (hdeclared : (p.compound? name).isSome)
    (hfields : ∀ inner, Reaches p.heldBy name inner → ∀ f ∈ p.allFields inner, p.Storable f.ty)
    (hdepth : Shallow p.heldBy n name) (form : Form) : ∃ t, ZeroOf p V n (.compound form name) t := by
  induction n generalizing name form with
  | zero => exact hdepth.elim
  | succ n ih =>
    have hzero (f : Field) (hf : f ∈ p.allFields name) : ∃ t, ZeroOf p V n f.ty t := by
      have hstorable := hfields name .refl f hf
      refine exists_zeroOf_of_held hb hstorable fun form inner hheld => ?_
      have hmem : inner ∈ p.heldBy name := List.mem_filterMap.2 ⟨f, hf, hheld⟩
      exact ih (Program.isSome_of_storable hstorable hheld) (fun x hx => hfields x (.head hmem hx))
        (hdepth inner hmem) form
    choose! tree htree using hzero
    let fields := (p.allFields name).map fun f => (f.name, tree f)
    have hnames : fields.map Prod.fst = (p.allFields name).map Field.name := by simp [fields]
    refine ⟨_, .compound hdeclared hnames fun z hz => ?_⟩
    obtain ⟨i, hf, hd⟩ := mem_zip_iff.1 hz
    rw [List.getElem?_map, hd] at hf
    rw [← Option.some.inj hf]
    exact htree z.2 (List.mem_of_getElem? hd)

/-- A new value of the type is made, without gaps. -/
def Mem.Builds (p : Program) (ty : Ty) (x : Mem Ref) : Prop :=
  ∀ h : Heap, h.Sound → Ends x h
    (fun r h' => h.Made (fun r => [r]) (¬ ·.IsSlot) r h' ∧ h'.Inhabits p False r ty)
    fun _ _ => False

/-- There is a new value of every type that is storable through and through. -/
theorem builds_createValue (hp : p.WellDeclared) (hty : p.Storable ty)
    (hfields : ∀ name, p.Contains ty name → ∀ f ∈ p.allFields name, p.Storable f.ty) :
    Builds p ty (createValue p ty) := by
  intro h hs
  obtain ⟨t, ht⟩ : ∃ t, ZeroOf p (fun _ => True) p.levels ty t :=
    exists_zeroOf_of_held (b := ⟨0⟩) trivial hty fun form name hname =>
      exists_zeroOf_compound (b := ⟨0⟩) trivial (Program.isSome_of_storable hty hname)
        (fun inner hinner => hfields inner ⟨name, hname, hinner⟩) (hp.shallow_heldBy name) form
  refine (Ends.and (makes_createValue p ty hs) (ends_createValue p ty hs.grounded)).mono ?_
    fun _ _ hE => hE.2 _ t ht
  rintro r h' ⟨hm, hminted, hz⟩
  exact ⟨hm, .of_zeroOf hz hminted.grounded rfl⟩

end Zeros

end Treewalk
