/-
  Zero values, as trees.

  * `ValueTree.nodes t`: the tree and all trees in it, and `ValueTree.bytes t`: the sizes
    of the scalars among them, added up;
  * `ValueTree.ty t`: the type that a value which looks like `t` reports;
  * `ValueTree.inSlot t`: the tree the way a block holds it, a compound as it is and all
    else in a slot of its type;
  * `ValueTree.ZeroOf p V n ty t`: a zero value of the type looks like `t`, null pointers
    pointing into blocks in `V` and compounds nested at most `n` levels deep;
  * `ends_zeroWith`, `ends_createValue`: a zero value is made just if there is such a tree,
    and looks like one;
  * `sizeOf_measures`: the size of a type is that of the scalars in a zero value.
-/
import Treewalk.Proofs.Nesting
import Treewalk.Proofs.TypedTrees
import Mathlib.Algebra.GroupWithZero.Nat

namespace Treewalk

namespace ValueTree

/-! ## The trees in a tree -/

mutual

/-- The tree and all trees in it. -/
def nodes : ValueTree → List ValueTree
  | .primitive n => [.primitive n]
  | .array element slots => .array element slots :: slotNodes slots
  | .pointer q => [.pointer q]
  | .slot ty none => [.slot ty none]
  | .slot ty (some t) => .slot ty (some t) :: t.nodes
  | .compound ty fields => .compound ty fields :: fieldNodes fields

def slotNodes : List ValueTree → List ValueTree
  | [] => []
  | t :: ts => t.nodes ++ slotNodes ts

def fieldNodes : List (String × ValueTree) → List ValueTree
  | [] => []
  | (_, t) :: fields => t.nodes ++ fieldNodes fields

end

theorem slotNodes_eq (ts : List ValueTree) : slotNodes ts = ts.flatMap nodes := by
  induction ts with
  | nil => rfl
  | cons t ts ih => simp [slotNodes, ih]

theorem fieldNodes_eq (fields : List (String × ValueTree)) :
    fieldNodes fields = (fields.map Prod.snd).flatMap nodes := by
  induction fields with
  | nil => rfl
  | cons f fields ih => simp [fieldNodes, ih]

/-- The bytes of a number or a pointer. -/
def size? : ValueTree → Option Nat
  | .primitive n => some n.kind.size
  | .pointer _ => some 8
  | .array .. | .slot .. | .compound .. => none

/-- The bytes of all numbers and pointers in the tree. -/
def bytes (t : ValueTree) : Nat :=
  (t.nodes.filterMap size?).sum

theorem sum_flatMap_nodes (ts : List ValueTree) :
    ((ts.flatMap nodes).filterMap size?).sum = (ts.map bytes).sum := by
  induction ts with
  | nil => rfl
  | cons t ts ih => rw [List.flatMap_cons, List.filterMap_append, List.sum_append, ih]; rfl

theorem bytes_array (element : Ty) (slots : List ValueTree) :
    (array element slots).bytes = (slots.map bytes).sum := by
  rw [bytes, nodes, slotNodes_eq, ← sum_flatMap_nodes]
  rfl

theorem bytes_compound (ty : Ty) (fields : List (String × ValueTree)) :
    (compound ty fields).bytes = (fields.map fun f => f.2.bytes).sum := by
  rw [bytes, nodes, fieldNodes_eq, List.filterMap_cons_none rfl, sum_flatMap_nodes, List.map_map]
  rfl

/-! ## Slots -/

/-- The type that a value which looks like the tree reports. -/
def ty : ValueTree → Ty
  | .primitive n => n.ty
  | .array element slots => .array element (some slots.length)
  | .pointer q => .pointer q.target
  | .slot _ (some t) => t.ty
  | .slot ty none => ty
  | .compound ty _ => ty

/-- The tree the way a block holds it. -/
def inSlot : ValueTree → ValueTree
  | .compound ty fields => .compound ty fields
  | .slot ty content => .slot ty content
  | t@(.primitive _) | t@(.array ..) | t@(.pointer _) => .slot t.ty (some t)

theorem inSlot_eq {t : ValueTree} (ht : ¬ t.IsSlot) :
    (∃ ty fields, t = .compound ty fields ∧ t.inSlot = t) ∨ t.inSlot = .slot t.ty (some t) := by
  cases t with
  | compound ty fields => exact .inl ⟨ty, fields, rfl, rfl⟩
  | slot => exact absurd trivial ht
  | primitive | array | pointer => exact .inr rfl

theorem bytes_inSlot (t : ValueTree) : t.inSlot.bytes = t.bytes := by
  cases t with
  | compound | slot => rfl
  | primitive | array | pointer =>
    rw [inSlot, bytes, nodes, List.filterMap_cons_none rfl]
    rfl

theorem ty_inSlot (t : ValueTree) : t.inSlot.ty = t.ty := by
  cases t <;> simp [inSlot, ty]

/-! ## Zero values -/

/-- A zero value of the type looks like the tree, where null pointers point into blocks
    in `V` and compounds are nested at most `n` levels deep. -/
inductive ZeroOf (p : Program) (V : BlockRef → Prop) : Nat → Ty → ValueTree → Prop
  | number {n : Nat} {k : Kind} {u : Bool} : k ≠ .void →
      ZeroOf p V n (.primitive k u) (.primitive (.zero k u))
  | pointer {n : Nat} {target : Ty} {b : BlockRef} : V b →
      ZeroOf p V n (.pointer target) (.pointer ⟨target, b, 0⟩)
  | array {n : Nat} {element : Ty} {values : List ValueTree} : (∀ v ∈ values, ZeroOf p V n element v) →
      ZeroOf p V n (.array element (some values.length)) (.array element (values.map inSlot))
  | compound {n : Nat} {form : Form} {name : String} {fields : List (String × ValueTree)} :
      (p.compound? name).isSome → fields.map Prod.fst = (p.allFields name).map Field.name →
      (∀ z ∈ fields.zip (p.allFields name), ZeroOf p V n z.2.ty z.1.2) →
      ZeroOf p V (n + 1) (.compound form name) (.compound (.compound form name) fields)
  | const {n : Nat} {inner : Ty} {t : ValueTree} : ZeroOf p V n inner t → ZeroOf p V n (.const inner) t

namespace ZeroOf

variable {p : Program} {V V' : BlockRef → Prop} {n : Nat} {ty : Ty} {t : ValueTree}

theorem mono (hz : ZeroOf p V n ty t) (hV : ∀ b, V b → V' b) : ZeroOf p V' n ty t := by
  induction hz with
  | number hk => exact .number hk
  | pointer hb => exact .pointer (hV _ hb)
  | array _ ih => exact .array ih
  | compound hdeclared hnames _ ih => exact .compound hdeclared hnames ih
  | const _ ih => exact .const ih

theorem not_isSlot (hz : ZeroOf p V n ty t) : ¬ t.IsSlot := by
  induction hz with
  | number | pointer | array | compound => exact id
  | const _ ih => exact ih

theorem ty_eq (hz : ZeroOf p V n ty t) : t.ty = ty.unqualified := by
  induction hz with
  | number | pointer | compound => rfl
  | array => simp [ValueTree.ty, Ty.unqualified]
  | const _ ih => exact ih

theorem hasTy (hz : ZeroOf p V n ty t) : t.HasTy p ty := by
  induction hz with
  | number hk => exact .primitive rfl hk
  | pointer => exact .pointer rfl
  | @array n element values hvalues ih =>
    refine .array (by rw [List.length_map]; rfl) fun t ht => ?_
    obtain ⟨v, hv, rfl⟩ := List.mem_map.1 ht
    rcases inSlot_eq (hvalues v hv).not_isSlot with ⟨_, _, -, hslot⟩ | hslot
    · rw [hslot]
      exact ih v hv
    · rw [hslot]
      exact .present (hvalues v hv).ty_eq (ih v hv)
  | compound _ hnames _ ih => exact .compound rfl hnames ih
  | const _ ih => exact ih.unqualified rfl

/-- The size of the type, if it has one, is that of the scalars: both are added up over
    the same elements and fields, to the same depth. -/
theorem sizeWith_eq (hz : ZeroOf p V n ty t) {s : Nat} (hs : sizeWith (compoundSize p n) ty = some s) :
    s = t.bytes := by
  induction hz generalizing s with
  | number =>
    cases hs
    rfl
  | pointer =>
    cases hs
    rfl
  | @array n element values _ ih =>
    obtain ⟨size, hsize, rfl⟩ := Option.map_eq_some_iff.1 hs
    have hmap : (values.map inSlot).map bytes = values.map fun _ => size := by
      rw [List.map_map]
      exact List.map_congr_left fun v hv => (bytes_inSlot v).trans (ih v hv hsize).symm
    rw [bytes_array, hmap, List.map_const', List.sum_replicate_nat, Nat.mul_comm]
    rfl
  | @compound n form name fields _ hnames _ ih =>
    obtain ⟨sizes, hsizes, rfl⟩ := compoundSize_succ_eq_some_iff.1 hs
    have hlength : fields.length = (p.allFields name).length := by
      simpa using congrArg List.length hnames
    have hbytes : List.Forall₂ (fun f s => id s = f.2.bytes) fields sizes := by
      refine List.forall₂_iff_get.2 ⟨hlength.trans hsizes.length_eq, fun i hf hi => ?_⟩
      have hfield : i < (p.allFields name).length := hlength ▸ hf
      refine ih (fields[i], (p.allFields name)[i]) ?_ (hsizes.get hfield hi)
      exact mem_zip_iff.2 ⟨i, List.getElem?_eq_getElem hf, List.getElem?_eq_getElem hfield⟩
    rw [bytes_compound, ← map_eq_of_forall₂ hbytes, List.map_id]
  | const _ ih => exact ih hs

end ZeroOf

end ValueTree

open Mem ValueTree

variable {h h₁ : Heap} {p : Program} {n : Nat} {ty : Ty}

/-! ## How they are made -/

/-- The type of a value that is no slot, given its tree. -/
theorem Heap.Grounded.ty_tree {r : Ref} (hg : h.Grounded) (hr : ¬ h.isSlot r) : h.tyOf r = (h.tree r).ty := by
  unfold tyOf
  rw [flatten_of_not_isSlot hr, hg.tree_eq]
  cases hc : h.cell r with
  | primitive | pointer | compound => rfl
  | array element b => simp [cellTy, blockSize, treeOf, ValueTree.ty]
  | slot => exact absurd (hc ▸ trivial : (h.cell r).IsSlot) hr

/-- A new value is put into a slot, if it has to be. -/
theorem ends_slotFor_inSlot {v : Ref} (hm : h.Minted v h₁) {E : Halt → Heap → Prop} :
    Ends (slotFor v) h₁
      (fun x h₂ => h₁.Adds h₂ ∧ h.Minted x h₂ ∧ h₂.tree x = (h₁.tree v).inSlot) E := by
  have hrefl : h₁.Adds h₁ := Std.Refl.refl h₁
  have htree := hm.grounded.tree_eq v
  -- around what is no slot and no compound
  have hslot (hbare : ¬ h₁.isSlot v) :
      (fun x h₂ => h₁.Adds h₂ ∧ h.Minted x h₂ ∧ h₂.tree x = .slot (h₁.tree v).ty (some (h₁.tree v)))
        ⟨h₁.cells.size⟩ (h₁.alloc (.slot (h₁.tyOf v) (some v))).2 := by
    have hmem : ∀ x ∈ h₁.contents (.slot (h₁.tyOf v) (some v)), x = v := fun x => List.mem_singleton.1
    have hc := hm.toRewrites.copied (c := .slot (h₁.tyOf v) (some v))
      (fun x hx => hmem x hx ▸ hm.new) (fun x hx => hmem x hx ▸ hm.lt) (by simp)
    refine ⟨Heap.Additive.alloc h₁ _, hc.toMinted, ?_⟩
    rw [hc.tree_eq, hm.grounded.ty_tree hbare]
    rfl
  have hbare {c : Cell} (hc : h₁.cell v = c) (hnot : ¬ c.IsSlot) : ¬ h₁.isSlot v := by
    unfold Heap.isSlot
    rwa [hc]
  unfold slotFor toSlot
  refine ends_bind.2 (ends_read.2 ?_)
  cases hc : h₁.cell v with
  | compound => exact ⟨hrefl, hm, by rw [htree, hc]; rfl⟩
  | slot =>
    refine ends_bind.2 (ends_read.2 ?_)
    rw [hc]
    exact ⟨hrefl, hm, by rw [htree, hc]; rfl⟩
  | primitive | array | pointer =>
    refine ends_bind.2 (ends_read.2 ?_)
    rw [hc]
    refine ends_bind.2 (ends_read.2 (ends_alloc.2 ?_))
    have hmade := hslot (hbare hc id)
    rw [htree, hc] at hmade ⊢
    exact hmade

/-- An array of new values holds each in its slot. -/
theorem ends_arrayOf_inSlot {values : List Ref} (element : Ty) (hw : h.Rewrites (fun _ => False) h₁)
    (hv : ∀ v ∈ values, h.cells.size ≤ v.id ∧ v.id < h₁.cells.size) {E : Halt → Heap → Prop} :
    Ends (arrayOf element values) h₁
      (h.Copied (.array element (values.map fun v => (h₁.tree v).inSlot))) E := by
  have hslots := ends_mapM_minted (l := values) (g := slotFor) id
    (fun v _ tree => tree = (h₁.tree v).inSlot) (E := E) hw fun v hvm h₂ hadds hw₂ => by
      obtain ⟨hnew, hlt⟩ := hv v hvm
      have hi := hadds.intact hw.grounded hlt
      rw [← hi.tree_eq hw.grounded hw₂.grounded]
      exact ends_slotFor_inSlot ⟨hw₂, hnew, hlt.trans_le hadds.cells_le⟩
  refine ends_bind.2 (hslots.mono ?_ fun _ _ hE => hE)
  rintro slots h₂ ⟨-, hw₂, hlt, htrees⟩
  have hmap : slots.map h₂.tree = values.map fun v => (h₁.tree v).inSlot := map_eq_of_forall₂ htrees
  rw [← hmap]
  exact ends_arrayOfSlots_copied element hw₂ (by simpa using hlt)

/-- The block exists and has no slots. -/
def Heap.Vacant (h : Heap) (b : BlockRef) : Prop :=
  b.id < h.blocks.size ∧ h.block b = #[]

theorem Heap.Vacant.of_adds {b : BlockRef} (hb : h.Vacant b) (ha : h.Adds h₁) : h₁.Vacant b :=
  ⟨hb.1.trans_le ha.blocks_le, (ha.block b hb.1).trans hb.2⟩

/-- An array of values that are made one after another. It fails only if there are any
    and one of them fails. -/
theorem ends_replicateM_arrayOf {make : Mem Ref} {K : Heap → ValueTree → Prop} {F : Prop} (element : Ty)
    (size : Nat) (hg : h.Grounded) (hK : ∀ h₁ h₂ t, Heap.Adds h₁ h₂ → K h₁ t → K h₂ t)
    (hmake : ∀ h₁ : Heap, h₁.Grounded →
      Ends make h₁ (fun r h₂ => h₁.Minted r h₂ ∧ K h₂ (h₂.tree r)) fun _ _ => F) :
    Ends (do arrayOf element (← replicateM size make)) h
      (fun r h' => h.Minted r h' ∧ ∃ values : List ValueTree, values.length = size ∧
        (∀ v ∈ values, K h' v) ∧ h'.tree r = .array element (values.map inSlot))
      fun _ _ => 0 < size ∧ F := by
  rw [replicateM_eq_mapM]
  have hvalues := ends_mapM_lasting (l := List.replicate size ()) (g := fun _ => make) id
    (fun h _ r => K h (h.tree r)) (fun _ r h₂ h₃ hg₂ hg₃ hadds hlt hr => by
      rw [(hadds.intact (r := r) hg₂ hlt).tree_eq hg₂ hg₃]
      exact hK h₂ h₃ _ hadds hr)
    (E := fun _ _ => 0 < size ∧ F) (.refl hg) fun u hu h₁ _ hw => by
      have hsize : 0 < size := Nat.pos_of_ne_zero (List.mem_replicate.1 hu).1
      refine (hmake h₁ hw.grounded).mono (fun r h₂ hr => ?_) fun _ _ hF => ⟨hsize, hF⟩
      exact ⟨hr.1.toRewrites.adds, hw.minted hr.1, hr.2⟩
  refine ends_bind.2 (hvalues.mono ?_ fun _ _ hE => hE)
  rintro values h₁ ⟨-, hw, hlt, hvalues⟩
  have hadds : Ends (arrayOf element values) h₁ (fun _ h' => h₁.Adds h') fun _ _ => True :=
    (keeps_arrayOf element values h₁).mono (fun _ _ ha => ha) fun _ _ _ => trivial
  have harray := ends_arrayOf_inSlot (E := fun _ _ => 0 < size ∧ F) element hw (by simpa using hlt)
  refine (harray.and hadds).mono ?_ fun _ _ hE => hE.1
  rintro r h' ⟨hc, ha⟩
  refine ⟨hc.toMinted, values.map h₁.tree, ?_, fun t ht => ?_, ?_⟩
  · simpa using hvalues.length_eq.symm
  · obtain ⟨v, hv, rfl⟩ := List.mem_map.1 ht
    have hall := ((List.forall₂_and_left (R := fun _ _ => True) _ _).1
      (hvalues.flip.imp fun _ _ hv => ⟨hv, trivial⟩)).1
    exact hK h₁ h' _ ha (hall v hv)
  · rw [hc.tree_eq, List.map_map]
    rfl

/-- A value that looks like a zero of the type is made, just if there is one. -/
abbrev Mem.MakesZero (p : Program) (n : Nat) (ty : Ty) (x : Mem Ref) (h : Heap) : Prop :=
  Ends x h (fun r h' => h.Minted r h' ∧ ZeroOf p h'.Vacant n ty (h'.tree r)) fun _ _ =>
    ∀ V t, ¬ ZeroOf p V n ty t

/-- How compounds are made: as zeros, nested at most `n` levels deep. -/
abbrev MakesZeroCompounds (p : Program) (n : Nat) (compound : Form → String → Mem Ref) : Prop :=
  ∀ form name (h : Heap), h.Grounded → MakesZero p n (.compound form name) (compound form name) h

/-- The computation gives a zero value of the type, or none where there is none. -/
abbrev Mem.OffersZero (p : Program) (n : Nat) (ty : Ty) (x : Mem (Option Ref)) (h : Heap) : Prop :=
  Ends x h
    (fun o h' => h.Rewrites (fun _ => False) h' ∧
      match o with
      | some r => h.Minted r h' ∧ ZeroOf p h'.Vacant n ty (h'.tree r)
      | none => ∀ V t, ¬ ZeroOf p V n ty t)
    fun _ _ => ∀ V t, ¬ ZeroOf p V n ty t

theorem Mem.MakesZero.offers {x : Mem Ref} (hx : MakesZero p n ty x h) : OffersZero p n ty (some <$> x) h :=
  (ends_map some).2 (Ends.mono hx (fun _ _ hr => ⟨hr.1.toRewrites, hr⟩) fun _ _ hE => hE)

theorem Mem.OffersZero.demand {x : Mem (Option Ref)} (hx : OffersZero p n ty x h) :
    MakesZero p n ty (do demandValue ty (← x)) h := by
  refine ends_bind.2 (Ends.mono hx (fun o h' ho => ?_) fun _ _ hE => hE)
  cases o with
  | some r => exact ho.2
  | none => exact ho.2

theorem ends_zeroWith {compound : Form → String → Mem Ref} (hcompound : MakesZeroCompounds p n compound)
    (ty : Ty) (hg : h.Grounded) : OffersZero p n ty (zeroWith compound ty) h := by
  fun_induction zeroWith compound ty generalizing h with
  | case1 u =>
    refine ⟨.refl hg, fun V t ht => ?_⟩
    cases ht with
    | number hk => exact hk rfl
  | case2 k u hk =>
    have hc := (Heap.Rewrites.refl (A := fun _ => False) hg).copied_of_contents
      (c := .primitive (.zero k u)) rfl (by simp)
    refine MakesZero.offers (ends_alloc.2 ⟨hc.toMinted, ?_⟩)
    rw [hc.tree_eq]
    exact .number hk
  | case3 target =>
    have hc := ((Heap.Rewrites.refl (A := fun _ => False) hg).allocBlock #[]).copied_of_contents
      (c := .pointer ⟨target, ⟨h.blocks.size⟩, 0⟩) rfl (by simp)
    refine MakesZero.offers (ends_bind.2 (ends_allocBlock.2 (ends_alloc.2 ⟨hc.toMinted, ?_⟩)))
    rw [hc.tree_eq]
    exact .pointer ⟨by simp, h.block_allocBlock_new #[]⟩
  | case4 element size ih =>
    have hrow := ends_replicateM_arrayOf element size hg
      (fun _ _ _ ha ht => ht.mono fun _ hb => Heap.Vacant.of_adds hb ha) fun h₁ hg₁ => (ih hg₁).demand
    have hmakes : MakesZero p n (.array element (some size))
        (do arrayOf element (← replicateM size do demandValue element (← zeroWith compound element))) h := by
      refine hrow.mono ?_ ?_
      · rintro r h' ⟨hm, values, rfl, hvalues, htree⟩
        exact ⟨hm, htree ▸ .array hvalues⟩
      · rintro _ _ ⟨hsize, hnone⟩ V t ht
        cases ht with
        | array hvalues =>
          obtain ⟨v, hv⟩ := List.exists_mem_of_length_pos hsize
          exact hnone V v (hvalues v hv)
    have hoffers := hmakes.offers
    rwa [map_bind] at hoffers
  | case5 element =>
    intro V t ht
    cases ht
  | case6 form name => exact (hcompound form name h hg).offers
  | case7 inner ih =>
    refine Ends.mono (ih hg) ?_ ?_
    · rintro o h' ⟨hw, ho⟩
      refine ⟨hw, ?_⟩
      cases o with
      | some r => exact ⟨ho.1, .const ho.2⟩
      | none =>
        intro V t ht
        cases ht with
        | const ht => exact ho V t ht
    · intro _ _ hnone V t ht
      cases ht with
      | const ht => exact hnone V t ht

/-- There is no zero of a compound one of whose fields has none. -/
theorem ValueTree.ZeroOf.not_compound {form : Form} {name : String} {d : Field} (hd : d ∈ p.allFields name)
    (hnone : ∀ V t, ¬ ZeroOf p V n d.ty t) (V : BlockRef → Prop) (t : ValueTree) :
    ¬ ZeroOf p V (n + 1) (.compound form name) t := by
  intro ht
  cases ht with
  | @compound _ _ _ fields _ hnames hfields =>
    have hlength : fields.length = (p.allFields name).length := by
      simpa using congrArg List.length hnames
    rw [← List.map_snd_zip hlength.ge] at hd
    obtain ⟨z, hz, rfl⟩ := List.mem_map.1 hd
    exact hnone V z.1.2 (hfields z hz)

theorem ends_zeroCompound (p : Program) (n : Nat) : MakesZeroCompounds p n (zeroCompound p n) := by
  induction n with
  | zero =>
    intro form name h hg V t ht
    cases ht
  | succ n ih =>
    intro form name h hg
    unfold zeroCompound
    split
    · rename_i hnone
      intro V t ht
      cases ht with
      | compound hdeclared => simp [Option.isNone_iff_eq_none.1 hnone] at hdeclared
    rename_i hdeclared
    have hfields := ends_mapM_lasting (l := p.allFields name) (g := fun f => do
        return (f.name, ← demandValue f.ty (← zeroWith (zeroCompound p n) f.ty)))
      Prod.snd (fun h d f => f.1 = d.name ∧ ZeroOf p h.Vacant n d.ty (h.tree f.2))
      (fun d f h₂ h₃ hg₂ hg₃ hadds hlt hf => by
        rw [(hadds.intact hg₂ hlt).tree_eq hg₂ hg₃]
        exact ⟨hf.1, hf.2.mono fun _ hb => Heap.Vacant.of_adds hb hadds⟩)
      (E := fun _ _ => ∀ V t, ¬ ZeroOf p V (n + 1) (.compound form name) t) (.refl hg) fun d hd h₁ _ hw => by
        have hmade := ends_bind.1 (ends_zeroWith ih d.ty hw.grounded).demand
        refine ends_bind.2 (hmade.mono (fun o h₂ ho => ends_bind.2 ?_) fun _ _ hE => ZeroOf.not_compound hd hE)
        refine ho.mono (fun r h₃ hr => ?_) fun _ _ hE => ZeroOf.not_compound hd hE
        exact ⟨hr.1.toRewrites.adds, hw.minted hr.1, rfl, hr.2⟩
    refine ends_bind.2 (hfields.mono ?_ fun _ _ hE => hE)
    rintro fields h₁ ⟨-, hw, hlt, hzeros⟩
    have hc := hw.copied (c := .compound (.compound form name) fields) (fun x hx => (hlt x hx).1)
      (fun x hx => (hlt x hx).2) (by simp)
    refine ends_alloc.2 ⟨hc.toMinted, ?_⟩
    rw [hc.tree_eq]
    refine .compound (by simpa [Option.isSome_iff_ne_none] using hdeclared) ?_ ?_
    · rw [List.map_map]
      exact map_eq_of_forall₂ (hzeros.imp fun _ _ hf => hf.1)
    · rintro ⟨f, d⟩ hz
      obtain ⟨i, hf, hd⟩ := mem_zip_iff.1 hz
      rw [List.getElem?_map] at hf
      obtain ⟨g, hg, rfl⟩ := Option.map_eq_some_iff.1 hf
      exact (List.forall₂_zip hzeros (mem_zip_iff.2 ⟨i, hd, hg⟩)).2

theorem ends_zeroValue? (p : Program) (ty : Ty) (hg : h.Grounded) :
    OffersZero p p.levels ty (zeroValue? p ty) h :=
  ends_zeroWith (ends_zeroCompound p p.levels) ty hg

theorem ends_createValue (p : Program) (ty : Ty) (hg : h.Grounded) :
    MakesZero p p.levels ty (createValue p ty) h :=
  (ends_zeroValue? p ty hg).demand

/-- The size of a founded type is the sum of the sizes of all scalars in its zero value,
    and that value has the type, but for outer qualifiers. A type that is not founded may
    have a zero value, too, but has no size, however deep compounds are followed. -/
theorem sizeOf_measures {p : Program} {ty : Ty} {h h' : Heap} {r : Ref} (hg : h.Grounded)
    (hr : zeroValue? p ty h = .ok (some r) h') :
    (p.Founded ty → sizeOfTy p ty = some ((h'.tree r).nodes.filterMap size?).sum) ∧
      (¬ p.Founded ty → ∀ n, sizeWith (compoundSize p n) ty = none) ∧
      createValue p ty h = .ok r h' ∧ h'.tyOf r = ty.unqualified := by
  obtain ⟨-, hm, hz⟩ := Ends.of_ok (ends_zeroValue? p ty hg) hr
  have hbare : ¬ h'.isSlot r := hm.grounded.isSlot_iff.not.2 hz.not_isSlot
  refine ⟨fun hfounded => ?_, fun hfounded n => ?_, ?_, (hm.grounded.ty_tree hbare).trans hz.ty_eq⟩
  · obtain ⟨s, hs⟩ := Option.isSome_iff_exists.1 (sizeOfTy_isSome_iff.2 hfounded)
    rw [hs, hz.sizeWith_eq hs]
    rfl
  · by_contra hsize
    obtain ⟨s, hs⟩ := Option.ne_none_iff_exists'.1 hsize
    exact hfounded (sizeOfTy_isSome_iff.1 (Option.isSome_of_eq_some (sizeOfTy_of_levels hs)))
  · simp only [createValue, bind, EStateM.bind, hr]
    rfl

def vessel : Compound where
  name := "Vessel"
  form := .class_
  fields := [⟨"id", .int⟩, ⟨"next", .pointer (.compound .class_ "Vessel")⟩]

def tanker : Compound where
  name := "Tanker"
  form := .class_
  parent := some "Vessel"
  fields := [⟨"draught", .const .double⟩, ⟨"holds", .array (.primitive .short false) (some 3)⟩]

def fleet : Program where
  compounds := ⟨[("Vessel", vessel), ("Tanker", tanker)], by decide⟩

def convoy : Ty :=
  .const (.array (.compound .class_ "Tanker") (some 1))

/-- The heap once an array of one tanker has been made. -/
def launched : Heap :=
  leaves (zeroValue? fleet convoy) {}

theorem launched_eq : zeroValue? fleet convoy {} = .ok (some ⟨11⟩) launched :=
  eq_ok_of_outcome (by decide +kernel)

/-- A tanker has the fields of a vessel, too. -/
theorem convoy_measured : zeroValue? fleet convoy {} = .ok (some ⟨11⟩) launched ∧
    sizeOfTy fleet convoy = some (4 + 8 + 8 + 3 * 2) ∧ createValue fleet convoy {} = .ok ⟨11⟩ launched ∧
    launched.tyOf ⟨11⟩ = .array (.compound .class_ "Tanker") (some 1) := by
  have hscalars : (launched.tree ⟨11⟩).nodes.filterMap size? = [4, 8, 8, 2, 2, 2] := by
    decide +kernel
  obtain ⟨hsize, -, hmade, hty⟩ := sizeOf_measures Heap.Sound.empty.grounded launched_eq
  have hmeasured := hsize (by decide +kernel)
  rw [hscalars] at hmeasured
  exact ⟨launched_eq, hmeasured, hmade, hty⟩

/-- A compound with an array of its own kind, of no elements. -/
def shell : Compound where
  name := "Shell"
  form := .struct
  fields := [⟨"inner", .array (.compound .struct "Shell") (some 0)⟩]

def nutshell : Program where
  compounds := ⟨[("Shell", shell)], by decide⟩

/-- A zero shell is made and has no scalars, but there is no end to adding up its size. -/
theorem shell_unmeasured : ∃ r h', zeroValue? nutshell (.compound .struct "Shell") {} = .ok (some r) h' ∧
    ((h'.tree r).nodes.filterMap size?).sum = 0 ∧
    ∀ n, sizeWith (compoundSize nutshell n) (.compound .struct "Shell") = none := by
  refine ⟨⟨1⟩, _, eq_ok_of_outcome (by decide +kernel), by decide +kernel, fun n => ?_⟩
  by_contra hsize
  obtain ⟨s, hs⟩ := Option.ne_none_iff_exists'.1 hsize
  have hnone : sizeOfTy nutshell (.compound .struct "Shell") = none := by decide +kernel
  cases hnone.symm.trans (sizeOfTy_of_levels hs)

end Treewalk
