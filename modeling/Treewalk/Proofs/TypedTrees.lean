/-
  Types and shapes of value trees.

  * `ValueTree.shape`: the tree without its numbers and the places of its pointers;
  * `ValueTree.reading`: the tree as it reads: a present slot is what it holds;
  * `ValueTree.HasTy p t ty`: the tree is made the way the type says, with empty
    slots anywhere.
-/
import Treewalk.Memory.Zero
import Treewalk.Proofs.Rewrites
import Mathlib.Data.List.Forall2

namespace Treewalk

namespace ValueTree

/-! ## Shapes and readings -/

mutual

/-- The tree without its numbers and the places of its pointers. -/
def shape : ValueTree → ValueTree
  | .primitive p => .primitive (.zero p.kind p.unsigned)
  | .array element slots => .array element (shapes slots)
  | .pointer p => .pointer ⟨p.target, default, 0⟩
  | .slot ty none => .slot ty none
  | .slot ty (some t) => .slot ty (some t.shape)
  | .compound ty fields => .compound ty (fieldShapes fields)

def shapes : List ValueTree → List ValueTree
  | [] => []
  | t :: ts => t.shape :: shapes ts

def fieldShapes : List (String × ValueTree) → List (String × ValueTree)
  | [] => []
  | (name, t) :: fields => (name, t.shape) :: fieldShapes fields

end

mutual

/-- The tree as it reads: a present slot is what it holds. -/
def reading : ValueTree → ValueTree
  | .primitive p => .primitive p
  | .array element slots => .array element (readings slots)
  | .pointer p => .pointer p
  | .slot ty none => .slot ty none
  | .slot _ (some t) => t.reading
  | .compound ty fields => .compound ty (fieldReadings fields)

def readings : List ValueTree → List ValueTree
  | [] => []
  | t :: ts => t.reading :: readings ts

def fieldReadings : List (String × ValueTree) → List (String × ValueTree)
  | [] => []
  | (name, t) :: fields => (name, t.reading) :: fieldReadings fields

end

theorem shapes_eq_map (ts : List ValueTree) : shapes ts = ts.map shape := by
  induction ts with
  | nil => rfl
  | cons t ts ih => simp [shapes, ih]

theorem fieldShapes_eq_map (fields : List (String × ValueTree)) :
    fieldShapes fields = fields.map fun f => (f.1, f.2.shape) := by
  induction fields with
  | nil => rfl
  | cons f fields ih => simp [fieldShapes, ih]

theorem readings_eq_map (ts : List ValueTree) : readings ts = ts.map reading := by
  induction ts with
  | nil => rfl
  | cons t ts ih => simp [readings, ih]

theorem fieldReadings_eq_map (fields : List (String × ValueTree)) :
    fieldReadings fields = fields.map fun f => (f.1, f.2.reading) := by
  induction fields with
  | nil => rfl
  | cons f fields ih => simp [fieldReadings, ih]

def IsSlot : ValueTree → Prop
  | .slot .. => True
  | _ => False

theorem isSlot_shape (t : ValueTree) : t.shape.IsSlot ↔ t.IsSlot := by
  cases t with
  | slot ty content => cases content <;> exact Iff.rfl
  | primitive | array | pointer | compound => exact Iff.rfl

/-! ## Types -/

/-- The tree is made the way the type says; any slot may be empty. -/
inductive HasTy (p : Program) : ValueTree → Ty → Prop
  | primitive {n : Primitive} {ty : Ty} : ty.unqualified = .primitive n.kind n.unsigned →
      n.kind ≠ .void → HasTy p (.primitive n) ty
  | pointer {q : Pointer} {ty : Ty} : ty.unqualified = .pointer q.target → HasTy p (.pointer q) ty
  | array {element : Ty} {slots : List ValueTree} {ty : Ty} :
      ty.unqualified = .array element (some slots.length) → (∀ t ∈ slots, HasTy p t element) →
      HasTy p (.array element slots) ty
  | compound {form : Form} {name : String} {fields : List (String × ValueTree)} {ty : Ty} :
      ty.unqualified = .compound form name →
      fields.map Prod.fst = (p.allFields name).map Field.name →
      (∀ z ∈ fields.zip (p.allFields name), HasTy p z.1.2 z.2.ty) →
      HasTy p (.compound (.compound form name) fields) ty
  | present {declared ty : Ty} {t : ValueTree} : declared = ty.unqualified → HasTy p t ty →
      HasTy p (.slot declared (some t)) ty
  | absent {declared ty : Ty} : declared = ty.unqualified → HasTy p (.slot declared none) ty

variable {p : Program} {t s : ValueTree} {ty : Ty}

theorem mem_zip_iff {α β : Type} {l : List α} {l' : List β} {z : α × β} :
    z ∈ l.zip l' ↔ ∃ i : Nat, l[i]? = some z.1 ∧ l'[i]? = some z.2 := by
  simp only [List.mem_iff_getElem?, List.getElem?_zip_eq_some]

theorem HasTy.declared_eq {declared : Ty} {content : Option ValueTree}
    (ht : (ValueTree.slot declared content).HasTy p ty) : declared = ty.unqualified := by
  cases ht with
  | present h _ => exact h
  | absent h => exact h

theorem HasTy.of_present {declared : Ty} (ht : (ValueTree.slot declared (some t)).HasTy p ty) :
    t.HasTy p ty := by
  cases ht with
  | present _ h => exact h

theorem HasTy.exists_primitive {k : Kind} {u : Bool} (ht : t.HasTy p ty) (hslot : ¬ t.IsSlot)
    (hty : ty.unqualified = .primitive k u) :
    ∃ n, t = .primitive n ∧ n.kind = k ∧ n.unsigned = u ∧ k ≠ .void := by
  cases ht with
  | primitive h hk =>
    obtain ⟨rfl, rfl⟩ := Ty.primitive.inj (hty.symm.trans h)
    exact ⟨_, rfl, rfl, rfl, hk⟩
  | pointer h => cases hty.symm.trans h
  | array h _ => cases hty.symm.trans h
  | compound h _ _ => cases hty.symm.trans h
  | present | absent => exact absurd trivial hslot

theorem HasTy.exists_pointer {target : Ty} (ht : t.HasTy p ty) (hslot : ¬ t.IsSlot)
    (hty : ty.unqualified = .pointer target) : ∃ q, t = .pointer q ∧ q.target = target := by
  cases ht with
  | pointer h => exact ⟨_, rfl, Ty.pointer.inj (h.symm.trans hty)⟩
  | primitive h _ => cases hty.symm.trans h
  | array h _ => cases hty.symm.trans h
  | compound h _ _ => cases hty.symm.trans h
  | present | absent => exact absurd trivial hslot

theorem HasTy.exists_array {element : Ty} {n : Nat} (ht : t.HasTy p ty) (hslot : ¬ t.IsSlot)
    (hty : ty.unqualified = .array element (some n)) :
    ∃ slots, t = .array element slots ∧ slots.length = n ∧ ∀ x ∈ slots, x.HasTy p element := by
  cases ht with
  | array h hslots =>
    obtain ⟨rfl, hlength⟩ := Ty.array.inj (h.symm.trans hty)
    exact ⟨_, rfl, Option.some.inj hlength, hslots⟩
  | primitive h _ => cases hty.symm.trans h
  | pointer h => cases hty.symm.trans h
  | compound h _ _ => cases hty.symm.trans h
  | present | absent => exact absurd trivial hslot

theorem HasTy.exists_compound {form : Form} {name : String} (ht : t.HasTy p ty) (hslot : ¬ t.IsSlot)
    (hty : ty.unqualified = .compound form name) :
    ∃ fields, t = .compound (.compound form name) fields ∧
      fields.map Prod.fst = (p.allFields name).map Field.name ∧
      ∀ z ∈ fields.zip (p.allFields name), z.1.2.HasTy p z.2.ty := by
  cases ht with
  | compound h hnames hfields =>
    obtain ⟨rfl, rfl⟩ := Ty.compound.inj (h.symm.trans hty)
    exact ⟨_, rfl, hnames, hfields⟩
  | primitive h _ => cases hty.symm.trans h
  | pointer h => cases hty.symm.trans h
  | array h _ => cases hty.symm.trans h
  | present | absent => exact absurd trivial hslot

/-- Qualifiers do not count. -/
theorem HasTy.unqualified {ty' : Ty} (ht : t.HasTy p ty) (hty : ty'.unqualified = ty.unqualified) :
    t.HasTy p ty' := by
  induction ht with
  | primitive h hk => exact .primitive (hty.trans h) hk
  | pointer h => exact .pointer (hty.trans h)
  | array h hslots _ => exact .array (hty.trans h) hslots
  | compound h hnames hfields _ => exact .compound (hty.trans h) hnames hfields
  | present h _ ih => exact .present (h.trans hty.symm) (ih hty)
  | absent h => exact .absent (h.trans hty.symm)

/-- Trees of one shape have the same types. -/
theorem HasTy.of_shape (ht : t.HasTy p ty) (hs : s.shape = t.shape) : s.HasTy p ty := by
  induction ht generalizing s with
  | @primitive n ty hty hk =>
    cases s with
    | primitive m =>
      simp only [shape, Primitive.zero, Primitive.of, primitive.injEq, Primitive.mk.injEq] at hs
      exact .primitive (by rw [hty, hs.1, hs.2.1]) (hs.1 ▸ hk)
    | slot _ content => cases content <;> simp [shape] at hs
    | array | pointer | compound => simp [shape] at hs
  | @pointer q ty hty =>
    cases s with
    | pointer q' =>
      simp only [shape, pointer.injEq, Pointer.mk.injEq, and_true] at hs
      exact .pointer (by rw [hty, hs])
    | slot _ content => cases content <;> simp [shape] at hs
    | primitive | array | compound => simp [shape] at hs
  | @array element slots ty hty _ ih =>
    cases s with
    | array element' slots' =>
      simp only [shape, array.injEq, shapes_eq_map] at hs
      obtain ⟨rfl, hslots⟩ := hs
      have hlength : slots'.length = slots.length := by simpa using congrArg List.length hslots
      refine .array (by rw [hty, hlength]) fun s hs => ?_
      have hmem : s.shape ∈ slots.map shape := hslots ▸ List.mem_map_of_mem hs
      obtain ⟨t, ht, hshape⟩ := List.mem_map.1 hmem
      exact ih t ht hshape.symm
    | slot _ content => cases content <;> simp [shape] at hs
    | primitive | pointer | compound => simp [shape] at hs
  | @compound form name fields ty hty hnames _ ih =>
    cases s with
    | compound ty' fields' =>
      simp only [shape, compound.injEq, fieldShapes_eq_map] at hs
      obtain ⟨rfl, hfields⟩ := hs
      refine .compound hty ?_ ?_
      · rw [← hnames]
        simpa [Function.comp_def] using congrArg (List.map Prod.fst) hfields
      · rintro ⟨g, d⟩ hz
        obtain ⟨i, hg, hd⟩ := mem_zip_iff.1 hz
        have hi := congrArg (·[i]?) hfields
        simp only [List.getElem?_map, hg] at hi
        obtain ⟨f, hf, hfg⟩ := Option.map_eq_some_iff.1 hi.symm
        have hshape := congrArg Prod.snd hfg
        exact ih (f, d) (mem_zip_iff.2 ⟨i, hf, hd⟩) hshape.symm
    | slot _ content => cases content <;> simp [shape] at hs
    | primitive | pointer | array => simp [shape] at hs
  | @present declared ty t hdeclared _ ih =>
    cases s with
    | slot declared' content =>
      cases content with
      | none => simp [shape] at hs
      | some s =>
        simp only [shape, slot.injEq, Option.some.injEq] at hs
        exact .present (hs.1.trans hdeclared) (ih hs.2)
    | primitive | pointer | array | compound => simp [shape] at hs
  | @absent declared ty hdeclared =>
    cases s with
    | slot declared' content =>
      cases content with
      | none =>
        simp only [shape, slot.injEq] at hs
        exact .absent (hs.1.trans hdeclared)
      | some s => simp [shape] at hs
    | primitive | pointer | array | compound => simp [shape] at hs

end ValueTree

theorem Heap.Grounded.isSlot_iff {h : Heap} {r : Ref} (hg : h.Grounded) :
    h.isSlot r ↔ (h.tree r).IsSlot := by
  unfold isSlot
  rw [hg.tree_eq]
  cases h.cell r <;> exact Iff.rfl

end Treewalk
