/-
  What a value looks like after another of its type was stored into it.

  * `ValueTree.Clash t s`: storing `s` into `t` does not carry `s` over: somewhere a
    value that is no slot meets an empty slot, which cannot empty it, or an empty
    slot meets an array, of which it gets a pointer only;
  * `Heap.Took h t s h'`: from `h` to `h'` the value `t` has taken over `s`: it reads
    the same unless they clash, and looks the same if they had one shape;
  * `ends_assignWithin_took`: storing does this, part by part.
-/
import Treewalk.Proofs.DeepCopy
import Treewalk.Proofs.TypedTrees

namespace Treewalk

/-! ## Where storing does not carry over -/

/-- Somewhere a value that is no slot meets an empty slot, or an empty slot meets an
    array. -/
inductive ValueTree.Clash : ValueTree → ValueTree → Prop
  | bare {t : ValueTree} {ty : Ty} : ¬ t.IsSlot → Clash t (.slot ty none)
  | decay {ty element : Ty} {slots : List ValueTree} : Clash (.slot ty none) (.array element slots)
  | element {ty ty' : Ty} {ts ss : List ValueTree} {z : ValueTree × ValueTree} : z ∈ ts.zip ss →
      Clash z.1 z.2 → Clash (.array ty ts) (.array ty' ss)
  | field {ty ty' : Ty} {fs gs : List (String × ValueTree)}
      {z : (String × ValueTree) × (String × ValueTree)} : z ∈ fs.zip gs → Clash z.1.2 z.2.2 →
      Clash (.compound ty fs) (.compound ty' gs)
  | target {ty : Ty} {t s : ValueTree} : (∀ ty', s ≠ .slot ty' none) → Clash t s →
      Clash (.slot ty (some t)) s
  | source {ty : Ty} {t s : ValueTree} : Clash t s → Clash t (.slot ty (some s))

/-! ## Taking over a value -/

namespace Heap

variable {h h' h₁ h₂ : Heap} {p : Program} {t s x y : Ref} {ty : Ty}

/-- The target has taken over the source. -/
structure Took (h : Heap) (t s : Ref) (h' : Heap) : Prop where
  /-- it is empty when the source is, if it can be -/
  absent : h'.isAbsent t ↔ h.isAbsent s ∧ h.isSlot t
  reading : ¬ (h.tree t).Clash (h.tree s) → (h'.tree t).reading = (h.tree s).reading
  /-- of one shape with the source, it looks like it, and consists of the same cells -/
  shape : (h.tree t).shape = (h.tree s).shape →
    h'.tree t = h.tree s ∧ ∀ y, Reaches h.parts t y → h'.parts y = h.parts y
  /-- what is no slot cannot be emptied -/
  stuck : ¬ h.isSlot t → h.isAbsent s → h'.tree t = h.tree t
  /-- an empty slot gets a pointer to an array -/
  decayed : h.isAbsent t → ∀ element b, h.cell (h.flatten s) = .array element b →
    ∃ declared, h'.tree t = .slot declared (some (.pointer ⟨element, b, 0⟩))

/-- The two are there and have nothing in common. -/
structure Beside (h : Heap) (t s : Ref) : Prop where
  target_lt : t.id < h.cells.size
  source_lt : s.id < h.cells.size
  apart : h.Apart t s

/-- Moreover the two have the type. -/
structure Matching (p : Program) (h : Heap) (t s : Ref) (ty : Ty) : Prop extends Beside h t s where
  target : (h.tree t).HasTy p ty
  source : (h.tree s).HasTy p ty

theorem Assigned.intact (ha : h.Assigned t h') (hs : h.Sound) (hx : x.id < h.cells.size)
    (hdisjoint : ∀ y, Reaches h.parts x y → ¬ Reaches h.parts t y) : h.Intact x h' where
  cell := fun y hy => ha.edits.cell y (hs.lt_of_reaches hx hy) (hdisjoint y hy)
  block := fun y ty b _ hb => ha.edits.block b (hs.storage_lt y ty b hb)

theorem Intact.isAbsent_eq (hi : h.Intact x h') : h'.isAbsent x = h.isAbsent x := by
  unfold isAbsent
  rw [hi.cell x .refl]

theorem isSlot_congr (hcell : h'.cell x = h.cell x) : h'.isSlot x ↔ h.isSlot x := by
  unfold isSlot
  rw [hcell]

theorem Intact.isSlot_iff (hi : h.Intact x h') : h'.isSlot x ↔ h.isSlot x :=
  isSlot_congr (hi.cell x .refl)

theorem Intact.flatten_eq (hi : h.Intact x h') : h'.flatten x = h.flatten x := by
  unfold flatten
  rw [hi.cell x .refl]

namespace Took

/-- The two may have been left alone for a while before. -/
theorem of_intact (hk : h₁.Took t s h₂) (hg : h.Grounded) (hg₁ : h₁.Grounded) (ht : h.Intact t h₁)
    (hs : h.Intact s h₁) : h.Took t s h₂ := by
  have hcell : h₁.cell (h₁.flatten s) = h.cell (h.flatten s) := by
    rw [hs.flatten_eq]
    exact hs.cell _ (h.reaches_flatten s)
  constructor
  case absent => rw [← hs.isAbsent_eq, ← ht.isSlot_iff]; exact hk.absent
  case reading => rw [← ht.tree_eq hg hg₁, ← hs.tree_eq hg hg₁]; exact hk.reading
  case shape =>
    rw [← ht.tree_eq hg hg₁, ← hs.tree_eq hg hg₁]
    intro hshape
    obtain ⟨htree, hparts⟩ := hk.shape hshape
    refine ⟨htree, fun y hy => ?_⟩
    rw [hparts y (ht.reaches_iff.2 hy), ht.parts_eq hy]
  case stuck => rw [← ht.isSlot_iff, ← hs.isAbsent_eq, ← ht.tree_eq hg hg₁]; exact hk.stuck
  case decayed => rw [← ht.isAbsent_eq, ← hcell]; exact hk.decayed

/-- The target may be left alone for a while after. -/
theorem later (hk : h.Took t s h₁) (hg₁ : h₁.Grounded) (hg₂ : h₂.Grounded) (ht : h₁.Intact t h₂) :
    h.Took t s h₂ := by
  have htree := ht.tree_eq hg₁ hg₂
  constructor
  case absent => rw [ht.isAbsent_eq]; exact hk.absent
  case reading => rw [htree]; exact hk.reading
  case shape =>
    rw [htree]
    intro hshape
    obtain ⟨htree, hparts⟩ := hk.shape hshape
    refine ⟨htree, fun y hy => ?_⟩
    rw [ht.parts_eq (Reaches.transfer hparts hy), hparts y hy]
  case stuck => rw [htree]; exact hk.stuck
  case decayed => rw [htree]; exact hk.decayed

end Took

namespace Beside

theorem ne (hb : h.Beside t s) (hy : Reaches h.parts s y) : t ≠ y :=
  fun he => hb.apart t .refl (he ▸ hy)

/-- Parts of the two that have one type match. -/
theorem matching (hb : h.Beside t s) (hg : h.Grounded) (hx : Reaches h.parts t x)
    (hy : Reaches h.parts s y) (htx : (h.tree x).HasTy p ty) (hsy : (h.tree y).HasTy p ty) :
    h.Matching p x y ty where
  target := htx
  source := hsy
  target_lt := hg.lt_of_reaches hb.target_lt hx
  source_lt := hg.lt_of_reaches hb.source_lt hy
  apart := hb.apart.of_reaches hx hy

end Beside

namespace Matching

/-- The two match while they are left alone. -/
theorem of_intact (hm : h.Matching p t s ty) (hg : h.Grounded) (hg₁ : h₁.Grounded)
    (hle : h.cells.size ≤ h₁.cells.size) (ht : h.Intact t h₁) (hs : h.Intact s h₁) :
    h₁.Matching p t s ty where
  target := ht.tree_eq hg hg₁ ▸ hm.target
  source := hs.tree_eq hg hg₁ ▸ hm.source
  target_lt := hm.target_lt.trans_le hle
  source_lt := hm.source_lt.trans_le hle
  apart := hm.apart.of_intact ht hs

end Matching

/-- A part that has not been stored into yet is as it was. -/
theorem Pending.intact {rest : List Ref} (hp : h.Pending t rest h₁) (hs : h.Sound) (hx : x ∈ rest) :
    h.Intact x h₁ where
  cell := hp.untouched x hx
  block := fun y ty b _ hb => hp.edits.block b (hs.storage_lt y ty b hb)

end Heap

open Mem

variable {h h₁ : Heap} {p : Program} {t s : Ref}

/-- What storing into one part after another comes to: `t` stays the array or
    compound that it is, and each part takes over its partner. -/
structure Heap.TookParts (h : Heap) (t : Ref) (pairs : List (Ref × Ref)) (h' : Heap) : Prop where
  assigned : h.Assigned t h'
  cell : h'.cell t = h.cell t
  took : ∀ q ∈ pairs, h.Took q.1 q.2 h'

section Parts

variable {l : List (Ref × Ref)} {g : Ref × Ref → Mem PUnit} (hs : h.Sound) (ht : ¬ h.isSlot t)
  (hsource : ∀ q ∈ l, q.2.id < h.cells.size ∧ h.Apart t q.2)
  (hg : ∀ q ∈ l, ∀ h₁ : Heap, h₁.Sound → h.cells.size ≤ h₁.cells.size → h.Intact q.1 h₁ →
    h.Intact q.2 h₁ → Ends (g q) h₁ (fun _ h₂ => h₁.Assigned q.1 h₂ ∧ h₁.Took q.1 q.2 h₂)
      fun _ _ => False)
include hs ht hsource hg

theorem ends_forM_rest (hp : h.Pending t (l.map Prod.fst) h₁) (hcell : h₁.cell t = h.cell t) :
    Ends (l.forM g) h₁
      (fun _ h' => h.TookParts t l h' ∧
        ∀ x ∈ h.parts t, x ∉ l.map Prod.fst → h₁.Intact x h')
      fun _ _ => False := by
  induction l generalizing h₁ with
  | nil => exact ⟨⟨hp.toAssigned, hcell, nofun⟩, fun x _ _ => .refl h₁ x⟩
  | cons q l ih =>
    have hq : q ∈ q :: l := List.mem_cons_self
    have hfst : q.1 ∈ (q :: l).map Prod.fst := List.mem_map_of_mem hq
    obtain ⟨hlt, hapart⟩ := hsource q hq
    have hparts : h₁.parts t = h.parts t := hp.edits.parts_of_cell_eq hs hcell
    have hslot : ¬ h₁.isSlot t := (Heap.isSlot_congr hcell).not.2 ht
    have hx₁ : q.1 ∈ h₁.parts t := hparts ▸ hp.mem q.1 hfst
    have hsrc : h.Intact q.2 h₁ := hp.toAssigned.intact hs hlt fun y hy hy' => hapart y hy' hy
    -- the other parts are left alone
    have hothers : ∀ h₂, h₁.Assigned q.1 h₂ → ∀ x ∈ h.parts t, x ≠ q.1 → h₁.Intact x h₂ := by
      intro h₂ ha x hx hne
      have hx : x ∈ h₁.parts t := hparts ▸ hx
      exact ha.intact hp.sound (hp.sound.part_lt t x hx) fun y hy =>
        hp.sound.forest.disjoint_parts hslot hx hx₁ hne hy
    refine ends_bind.2 ((hg q hq h₁ hp.sound hp.edits.cells_le (hp.intact hs hfst) hsrc).mono ?_
      fun _ _ hE => hE)
    rintro _ h₂ ⟨ha, htook⟩
    have hcell₂ : h₂.cell t = h.cell t := by
      have ht₁ : t.id < h₁.cells.size := Heap.lt_of_mem_parts hx₁
      rw [ha.edits.cell t ht₁ (hp.sound.forest.not_reaches hx₁), hcell]
    have hrest := ih (fun q' hq' => hsource q' (List.mem_cons_of_mem q hq'))
      (fun q' hq' => hg q' (List.mem_cons_of_mem q hq')) (hp.step hs ht ha) hcell₂
    refine hrest.mono ?_ fun _ _ hE => hE
    rintro _ h' ⟨hk, hdone⟩
    have hnotin : q.1 ∉ l.map Prod.fst := (List.nodup_cons.1 hp.nodup).1
    refine ⟨⟨hk.assigned, hk.cell, fun q' hq' => ?_⟩, fun x hx hxl => ?_⟩
    · rcases List.mem_cons.1 hq' with rfl | hq'
      · have hfrom := htook.of_intact hs.grounded hp.sound.grounded (hp.intact hs hfst) hsrc
        exact hfrom.later ha.sound.grounded hk.assigned.sound.grounded
          (hdone _ (hp.mem _ hfst) hnotin)
      · exact hk.took q' hq'
    · rw [List.map_cons, List.mem_cons, not_or] at hxl
      exact (hothers h₂ ha x hx hxl.1).trans (hdone x hx hxl.2)

/-- Storing into the parts of a value one after another. -/
theorem ends_forM_took (hl : l.map Prod.fst <+: h.parts t) :
    Ends (l.forM g) h (fun _ => h.TookParts t l) fun _ _ => False :=
  (ends_forM_rest hs ht hsource hg (.start hs hl) rfl).mono (fun _ _ hk => hk.1) fun _ _ hE => hE

end Parts

/-! ## Slots -/

theorem Cell.isSlot_iff {c : Cell} : c.IsSlot ↔ ∃ ty content, c = .slot ty content := by
  cases c <;> simp [Cell.IsSlot]

namespace Heap

variable {h' : Heap} {ty : Ty} {c x : Ref}

theorem Grounded.isAbsent_iff (hg : h.Grounded) : h.isAbsent t ↔ ∃ ty, h.tree t = .slot ty none := by
  unfold isAbsent
  rw [hg.tree_eq]
  cases h.cell t with
  | slot ty content => cases content <;> simp [treeOf]
  | primitive | array | pointer | compound => simp [treeOf]

/-- What a value stands for: itself, or what a slot holds. -/
theorem Grounded.tree_flatten (hg : h.Grounded) (s : Ref) :
    h.flatten s = s ∨ ∃ ty, h.tree s = .slot ty (some (h.tree (h.flatten s))) := by
  unfold flatten
  split
  · rename_i ty content hc
    exact .inr ⟨ty, hg.tree_of_cell hc⟩
  · exact .inl rfl

theorem Grounded.hasTy_flatten (hg : h.Grounded) (hs : (h.tree s).HasTy p ty) :
    (h.tree (h.flatten s)).HasTy p ty := by
  rcases hg.tree_flatten s with heq | ⟨ty', htree⟩
  · rwa [heq]
  · rw [htree] at hs
    exact hs.of_present

namespace Took

/-- What takes over the value in a slot takes over the slot, unless it is a present
    slot itself. -/
theorem of_flatten (hk : h.Took t (h.flatten s) h') (hs : h.Sound) (hpresent : ¬ h.isAbsent s)
    (ht : h.isSlot t → h.isAbsent t) : h.Took t s h' := by
  rcases hs.grounded.tree_flatten s with heq | ⟨ty, htree⟩
  · rwa [heq] at hk
  have hflat : ¬ h.isAbsent (h.flatten s) :=
    not_isAbsent_of_not_isSlot (hs.not_isSlot_flatten hpresent)
  have hcell : h.cell (h.flatten (h.flatten s)) = h.cell (h.flatten s) := by
    rw [flatten_flatten hs]
  constructor
  case absent => simp [hk.absent, hflat, hpresent]
  case reading =>
    intro hclash
    rw [htree] at hclash ⊢
    exact hk.reading fun hc => hclash (.source hc)
  case shape =>
    intro hshape
    exfalso
    have hslot : h.isSlot t := by
      rw [hs.grounded.isSlot_iff, ← ValueTree.isSlot_shape, hshape, htree]
      trivial
    obtain ⟨ty', htt⟩ := hs.grounded.isAbsent_iff.1 (ht hslot)
    simp [htt, htree, ValueTree.shape] at hshape
  case stuck => exact fun _ habsent => absurd habsent hpresent
  case decayed => rw [← hcell]; exact hk.decayed

/-- A slot takes over what its content does. -/
theorem of_content (hk : h.Took c (h.flatten s) h') (hs : h.Sound) (hs' : h'.Sound)
    (hpresent : ¬ h.isAbsent s) (hc : h.cell t = .slot ty (some c)) (hcell : h'.cell t = h.cell t) :
    h.Took t s h' := by
  have htree := hs.grounded.tree_of_cell hc
  have htree' := hs'.grounded.tree_of_cell (hcell.trans hc)
  have hslot : h.isSlot t := hs.grounded.isSlot_iff.2 (htree ▸ trivial)
  have habsent : ¬ h.isAbsent t := by simp [isAbsent, hc]
  have habsent' : ¬ h'.isAbsent t := by simp [isAbsent, hcell, hc]
  have hflat : ∀ ty', h.tree (h.flatten s) ≠ .slot ty' none := fun ty' he =>
    not_isAbsent_of_not_isSlot (hs.not_isSlot_flatten hpresent) (hs.grounded.isAbsent_iff.2 ⟨ty', he⟩)
  constructor
  case absent => simp [habsent', hpresent]
  case reading =>
    intro hclash
    rw [htree] at hclash
    rw [htree']
    have hread := hk.reading fun hc' => hclash ?_
    · rcases hs.grounded.tree_flatten s with heq | ⟨ty', hstree⟩
      · rw [← heq]
        exact hread
      · rw [hstree]
        exact hread
    · rcases hs.grounded.tree_flatten s with heq | ⟨ty', hstree⟩
      · rw [← heq]
        exact .target hflat hc'
      · rw [hstree]
        exact .source (.target hflat hc')
  case shape =>
    intro hshape
    rw [htree] at hshape
    rcases hs.grounded.tree_flatten s with heq | ⟨ty', hstree⟩
    · exfalso
      have hbare : ¬ h.isSlot s := heq ▸ hs.not_isSlot_flatten hpresent
      rw [hs.grounded.isSlot_iff, ← ValueTree.isSlot_shape, ← hshape] at hbare
      exact hbare trivial
    · rw [hstree] at hshape ⊢
      simp only [treeOf, Option.map_some, ValueTree.shape, ValueTree.slot.injEq, Option.some.injEq] at hshape
      obtain ⟨hct, hparts⟩ := hk.shape hshape.2
      refine ⟨?_, fun y hy => ?_⟩
      · rw [htree', hshape.1]
        simp [treeOf, hct]
      · rcases hy.cases_head with rfl | ⟨z, hz, hy⟩
        · rw [parts_of_cell (hcell.trans hc), parts_of_cell hc]
          rfl
        · rw [parts_of_cell hc] at hz
          obtain rfl := List.mem_singleton.1 hz
          exact hparts y hy
  case stuck => exact fun hbare => absurd hslot hbare
  case decayed => exact fun habsent' => absurd habsent' habsent

end Took

end Heap

/-- An empty slot empties a slot. -/
theorem ends_empty_took {ty : Ty} (hs : h.Sound) (hm : h.Matching p t s ty) (habsent : h.isAbsent s) :
    Ends (setContent t none) h (fun _ => h.Took t s) fun _ _ => False := by
  obtain ⟨declared, hsource⟩ := hs.grounded.isAbsent_iff.1 habsent
  have hnone : ∀ element b, h.cell (h.flatten s) ≠ .array element b := by
    simp [Heap.flatten, hs.grounded.cell_of_absent hsource]
  refine ends_change.2 ?_
  split
  · rename_i declared' content hc
    have htree := hs.grounded.tree_of_cell hc
    have hs' : (h.setCell t (.slot declared' none)).Sound :=
      (Heap.Assigned.setCell (c := .slot declared' none) hs (.refl h) (hc ▸ .slot declared' content none)
        trivial).sound
    have hcell' : (h.setCell t (.slot declared' none)).cell t = .slot declared' none := by
      rw [Heap.cell_setCell, if_pos ⟨rfl, hm.target_lt⟩]
    have htree' := hs'.grounded.tree_of_cell hcell'
    obtain rfl : declared' = declared := by
      have ht := hm.target
      have hs := hm.source
      rw [htree] at ht
      rw [hsource] at hs
      exact ht.declared_eq.trans hs.declared_eq.symm
    have hslot : h.isSlot t := by simp [Heap.isSlot, hc, Cell.IsSlot]
    constructor
    case absent =>
      have habsent' : (h.setCell t (.slot declared' none)).isAbsent t := by simp [Heap.isAbsent, hcell']
      simp [habsent', habsent, hslot]
    case reading => rw [htree', hsource]; exact fun _ => rfl
    case shape =>
      rw [htree, hsource]
      intro hshape
      cases content with
      | some x => simp [Heap.treeOf, ValueTree.shape] at hshape
      | none =>
        refine ⟨htree', fun y _ => ?_⟩
        rw [Heap.parts_setCell]
        split
        · rename_i hy
          rw [hy.1, Heap.parts_of_cell hc]
        · rfl
    case stuck => exact fun hbare => absurd hslot hbare
    case decayed => exact fun _ element b he => absurd he (hnone element b)
  · rename_i hc
    have hbare : ¬ h.isSlot t := by
      intro hslot
      obtain ⟨ty, content, hcell⟩ := Cell.isSlot_iff.1 hslot
      exact hc ty content hcell
    have hpresent := Heap.not_isAbsent_of_not_isSlot hbare
    have htree : ¬ (h.tree t).IsSlot := hs.grounded.isSlot_iff.not.1 hbare
    constructor
    case absent => simp [hpresent, hbare]
    case reading => rw [hsource]; exact fun hclash => absurd (.bare htree) hclash
    case shape =>
      rw [hsource]
      intro hshape
      refine absurd ?_ htree
      rw [← ValueTree.isSlot_shape, hshape]
      trivial
    case stuck => exact fun _ _ => rfl
    case decayed => exact fun habsent' => absurd habsent' hpresent

/-- A new value in a slot looks as it did. -/
theorem ends_setContent_tree {x : Ref} {declared : Ty} {content : Option Ref} (hm : h.Minted x h₁)
    (hc : h.cell t = .slot declared content) {E : Halt → Heap → Prop} :
    Ends (setContent t (some x)) h₁ (fun _ h' => h'.tree t = .slot declared (some (h₁.tree x))) E := by
  have hlt : t.id < h.cells.size := Heap.lt_of_isSlot (hc ▸ trivial)
  have hg' := rewrites_content (A := fun _ => True) hm hlt trivial (E := E)
  have hcell : h₁.cell t = .slot declared content := (hm.toRewrites.cell t hlt id).trans hc
  have hset : setContent t (some x) h₁ = .ok () (h₁.setCell t (.slot declared (some x))) := by
    simp only [setContent, change, hcell]
  have hg' := (hg'.of_ok hset).grounded
  rw [ends_iff_of_ok hset]
  have hcell' : (h₁.setCell t (.slot declared (some x))).cell t = .slot declared (some x) := by
    rw [Heap.cell_setCell, if_pos ⟨rfl, hlt.trans_le hm.cells_le⟩]
  -- what is new does not lead to the slot
  have hi : h₁.Intact x (h₁.setCell t (.slot declared (some x))) := by
    refine ⟨fun y hy => Heap.cell_setCell_of_ne _ _ ?_, fun _ _ _ _ _ => rfl⟩
    rintro rfl
    exact absurd hlt (Nat.not_lt_of_le (hm.part.le_of_reaches hm.new hy))
  rw [hg'.tree_of_cell hcell', ← hi.tree_eq hm.grounded hg']
  rfl

theorem Ty.unqualified_unqualified (ty : Ty) : ty.unqualified.unqualified = ty.unqualified := by
  induction ty with
  | const inner ih => exact ih
  | primitive | pointer | array | compound => rfl

/-- What is stored into an empty slot of a scalar type is cast first. -/
theorem fill_scalar {ty : Ty} (hty : ty.IsScalar) (hpresent : ¬ h.isAbsent s) :
    fill t ty s h = (copyForBinding s >>= fun fresh =>
      castTo fresh ty >>= fun fresh => setContent t (some fresh)) h := by
  unfold fill
  rw [read_bind]
  simp only [hpresent]
  rcases Ty.isScalar_iff.1 hty with ⟨k, u, hu, hk⟩ | ⟨target, hu⟩
  · rw [hu]
    cases k with
    | void => exact absurd rfl hk
    | char | short | int | long | float | double => rfl
  · rw [hu]
    rfl

/-- What is stored into an empty slot of another type is not. -/
theorem fill_unconverted {ty : Ty} (hty : ¬ ty.IsScalar) (hpresent : ¬ h.isAbsent s) :
    fill t ty s h = (copyForBinding s >>= fun fresh => setContent t (some fresh)) h := by
  unfold fill
  rw [read_bind]
  simp only [hpresent]
  cases hu : ty.unqualified with
  | primitive k u =>
    cases k with
    | void => rfl
    | char | short | int | long | float | double =>
      exact absurd (Ty.isScalar_iff.2 (.inl ⟨_, _, hu, by decide⟩)) hty
  | pointer target => exact absurd (Ty.isScalar_iff.2 (.inr ⟨_, hu⟩)) hty
  | array | compound | const => rfl

/-- Is the value a number or pointer? -/
def ValueTree.IsLeaf : ValueTree → Prop
  | .primitive _ | .pointer _ => True
  | _ => False

theorem ValueTree.HasTy.isLeaf {p : Program} {ty : Ty} {t : ValueTree} (ht : t.HasTy p ty)
    (hslot : ¬ t.IsSlot) (hty : ty.IsScalar) : t.IsLeaf := by
  rcases Ty.isScalar_iff.1 hty with ⟨k, u, hu, -⟩ | ⟨target, hu⟩
  · obtain ⟨n, rfl, -⟩ := ht.exists_primitive hslot hu
    trivial
  · obtain ⟨q, rfl, -⟩ := ht.exists_pointer hslot hu
    trivial

/-- In a block, numbers and pointers are in slots. -/
theorem Heap.Sound.isSlot_of_scalar {p : Program} {element : Ty} {x : Ref} {b : BlockRef} (hs : h.Sound)
    (hx : x ∈ h.block b) (hty : (h.tree x).HasTy p element) (hscalar : element.IsScalar) : h.isSlot x := by
  refine (hs.entry b x hx).resolve_right fun hcompound => ?_
  cases hc : h.cell x with
  | compound ty fields =>
    rw [hs.grounded.tree_of_cell hc] at hty
    exact hty.isLeaf id hscalar
  | primitive | array | pointer | slot =>
    rw [hc] at hcompound
    exact hcompound

/-- Is the cell a number or pointer? -/
def Cell.IsLeaf : Cell → Prop
  | .primitive _ | .pointer _ => True
  | _ => False

/-- The copy of a number or pointer is one new cell. -/
theorem copyForBinding_leaf (hs : (h.cell s).IsLeaf) :
    copyForBinding s h = .ok ⟨h.cells.size⟩ (h.alloc (h.cell s)).2 := by
  unfold copyForBinding
  cases hc : h.cell s with
  | primitive | pointer =>
    have hflat : h.flatten s = s := by simp [Heap.flatten, hc]
    rw [read_bind, hflat, read_bind, hc]
    dsimp only [copy]
    rw [read_bind]
    unfold Heap.levels
    rw [copyWithin, read_bind, hc]
    rfl
  | array | slot | compound =>
    rw [hc] at hs
    exact hs.elim

/-- A cast to the scalar type that a value has changes nothing. -/
theorem Heap.Matching.casted_eq {ty declared : Ty} {x : Ref} (hm : h.Matching p t s ty) (hs : h.Sound)
    (hbare : ¬ h.isSlot s) (hdeclared : declared.unqualified = ty.unqualified)
    (hscalar : declared.IsScalar) (hx : h.Copied (h.boundTree s) x h₁) :
    ∃ c, h₁.casted (h₁.cell (h₁.flatten x)) declared = .ok (.cell c) ∧
      ∀ (h₂ : Heap) y, h₂.Grounded → h₂.cell y = c → h₂.tree y = h.boundTree s := by
  have hflat := flatten_of_not_isSlot hbare
  have hslot : ¬ (h.tree s).IsSlot := hs.grounded.isSlot_iff.not.1 hbare
  rcases Ty.isScalar_iff.1 hscalar with ⟨k, u, hu, hk⟩ | ⟨target, hu⟩
  · obtain ⟨n, htree, rfl, rfl, -⟩ := hm.source.exists_primitive hslot (hdeclared.symm.trans hu)
    have hn := hs.grounded.cell_of_primitive htree
    have hbound : h.boundTree s = .primitive n := by simp [boundTree, hflat, hn, htree]
    have hcell := hx.grounded.cell_of_primitive (hx.tree_eq.trans hbound)
    have hfits : n.converted n.kind n.unsigned = n := Primitive.fits_of_inRange (hs.number s n hn)
    refine ⟨.primitive n, ?_, fun h₂ y hg hy => ?_⟩
    · rw [casted_number hu hk]
      simp [flatten, hcell, hfits]
    · rw [hg.tree_of_cell hy, hbound]
      rfl
  · obtain ⟨q, htree, rfl⟩ := hm.source.exists_pointer hslot (hdeclared.symm.trans hu)
    have hq := hs.grounded.cell_of_pointer htree
    have hbound : h.boundTree s = .pointer q := by simp [boundTree, hflat, hq, htree]
    have hcell := hx.grounded.cell_of_pointer (hx.tree_eq.trans hbound)
    refine ⟨.pointer q, ?_, fun h₂ y hg hy => ?_⟩
    · rw [casted_pointer hu]
      simp [flatten, hcell, Pointer.retargeted]
    · rw [hg.tree_of_cell hy, hbound]
      rfl

/-- An empty slot is filled with a value of its type, with a pointer if that is an
    array. -/
theorem ends_fill_tree {ty declared : Ty} (hs : h.Sound) (hm : h.Matching p t s ty)
    (hbare : ¬ h.isSlot s) (hc : h.cell t = .slot declared none) :
    Ends (fill t declared s) h (fun _ h' => h'.tree t = .slot declared (some (h.boundTree s)))
      fun _ _ => False := by
  have hpresent := Heap.not_isAbsent_of_not_isSlot hbare
  have hdeclared : declared.unqualified = ty.unqualified := by
    have ht := hm.target
    rw [hs.grounded.tree_of_cell hc] at ht
    rw [ht.declared_eq, Ty.unqualified_unqualified]
  by_cases hscalar : declared.IsScalar
  · rw [ends_congr (fill_scalar hscalar hpresent)]
    refine ends_bind.2 ((ends_copyForBinding hs.grounded s).mono ?_ fun _ _ hE => hE)
    intro fresh h₁ hcopied
    obtain ⟨c, hcasted, htree⟩ := hm.casted_eq hs hbare hdeclared hscalar hcopied
    refine ends_bind.2 ((ends_castTo hcopied.grounded fresh declared).mono ?_ ?_)
    · rintro x h₂ ⟨hm₂, k, hk, hx⟩
      obtain rfl : k = .cell c := Except.ok.inj (hk.symm.trans hcasted)
      rw [← htree h₂ x hm₂.grounded hx]
      exact ends_setContent_tree (hcopied.toRewrites.minted hm₂) hc
    · rintro _ h₂ ⟨-, c, -, he⟩
      cases he.symm.trans hcasted
  · rw [ends_congr (fill_unconverted hscalar hpresent)]
    refine ends_bind.2 ((ends_copyForBinding hs.grounded s).mono ?_ fun _ _ hE => hE)
    intro fresh h₁ hcopied
    rw [← hcopied.tree_eq]
    exact ends_setContent_tree hcopied.toMinted hc

theorem ends_fill_took {ty declared : Ty} (hs : h.Sound) (hm : h.Matching p t s ty)
    (hbare : ¬ h.isSlot s) (hc : h.cell t = .slot declared none) :
    Ends (fill t declared s) h (fun _ => h.Took t s) fun _ _ => False := by
  have hpresent := Heap.not_isAbsent_of_not_isSlot hbare
  have hflat := Heap.flatten_of_not_isSlot hbare
  have htree := hs.grounded.tree_of_cell hc
  have hslot : h.isSlot t := hs.grounded.isSlot_iff.2 (htree ▸ trivial)
  have hsound := assigns_fill hs (hc ▸ trivial : (h.cell t).IsSlot) declared s
  refine (hsound.and (ends_fill_tree hs hm hbare hc)).mono ?_ fun _ _ hE => hE.2
  rintro _ h' ⟨ha, htree'⟩
  constructor
  case absent =>
    rw [ha.sound.grounded.isAbsent_iff]
    simp [htree', hpresent]
  case reading =>
    intro hclash
    rw [htree']
    suffices hbound : h.boundTree s = h.tree s by rw [hbound]; rfl
    unfold Heap.boundTree
    rw [hflat]
    split
    · rename_i element b hb
      rw [htree, hs.grounded.tree_of_cell hb] at hclash
      exact absurd .decay hclash
    · rfl
  case shape =>
    intro hshape
    have hs' : (h.tree s).shape.IsSlot := by
      rw [← hshape, ValueTree.isSlot_shape]
      exact htree ▸ trivial
    exact absurd (hs.grounded.isSlot_iff.2 ((ValueTree.isSlot_shape _).1 hs')) hbare
  case stuck => exact fun hbare' => absurd hslot hbare'
  case decayed =>
    intro _ element b hb
    refine ⟨declared, ?_⟩
    rw [htree']
    simp [Heap.boundTree, hb]

/-! ## Values that are no slots -/

/-- Rows of one length, compared in their places. -/
theorem map_eq_map_iff_zip {α β γ : Type} {l : List α} {l' : List β} {f : α → γ} {g : β → γ}
    (hlength : l.length = l'.length) : l.map f = l'.map g ↔ ∀ z ∈ l.zip l', f z.1 = g z.2 := by
  rw [← List.forall₂_eq_eq_eq, List.forall₂_map_left_iff, List.forall₂_map_right_iff,
    List.forall₂_iff_zip]
  exact ⟨fun h z hz => h.2 hz, fun h => ⟨hlength, fun {a b} hz => h (a, b) hz⟩⟩

namespace Heap

variable {h' : Heap}

/-- Neither is a slot, before or after. -/
theorem Took.of_bare (ht : ¬ h.isSlot t) (hs : ¬ h.isSlot s) (ht' : ¬ h'.isSlot t)
    (hreading : ¬ (h.tree t).Clash (h.tree s) → (h'.tree t).reading = (h.tree s).reading)
    (hshape : (h.tree t).shape = (h.tree s).shape →
      h'.tree t = h.tree s ∧ ∀ y, Reaches h.parts t y → h'.parts y = h.parts y) : h.Took t s h' where
  absent := by simp [not_isAbsent_of_not_isSlot ht', ht]
  reading := hreading
  shape := hshape
  stuck := fun _ habsent => absurd habsent (not_isAbsent_of_not_isSlot hs)
  decayed := fun habsent => absurd habsent (not_isAbsent_of_not_isSlot ht)

/-- A number or pointer is replaced. -/
theorem took_setCell {c : Cell} (hs : h.Sound) (hlt : t.id < h.cells.size)
    (halike : (h.cell t).Alike c) (hc : h.cell s = c)
    (hleaf : (∃ n, c = .primitive n) ∨ ∃ q, c = .pointer q) : h.Took t s (h.setCell t c) := by
  have hsimple : c.Simple := by
    rcases hleaf with ⟨n, rfl⟩ | ⟨q, rfl⟩
    · exact hs.number s n hc
    · trivial
  have hslot : ¬ c.IsSlot ∧ h.contents c = [] := by
    rcases hleaf with ⟨n, rfl⟩ | ⟨q, rfl⟩ <;> exact ⟨id, rfl⟩
  have hold : ¬ h.isSlot t ∧ h.parts t = [] := by
    unfold isSlot parts
    generalize h.cell t = old at halike
    rcases hleaf with ⟨n, rfl⟩ | ⟨q, rfl⟩ <;> cases halike <;> exact ⟨id, rfl⟩
  have hs' : (h.setCell t c).Sound := (Assigned.setCell hs (.refl h) halike hsimple).sound
  have hcell : (h.setCell t c).cell t = c := by rw [cell_setCell, if_pos ⟨rfl, hlt⟩]
  have htree : (h.setCell t c).tree t = h.tree s := by
    rw [hs'.grounded.tree_of_cell hcell, hs.grounded.tree_of_cell hc]
    rcases hleaf with ⟨n, rfl⟩ | ⟨q, rfl⟩ <;> rfl
  refine .of_bare hold.1 ?_ ?_ (fun _ => by rw [htree]) fun _ => ⟨htree, fun y hy => ?_⟩
  · unfold isSlot; rw [hc]; exact hslot.1
  · unfold isSlot; rw [hcell]; exact hslot.1
  · rcases hy.cases_head with rfl | ⟨z, hz, -⟩
    · rw [hold.2, parts_setCell, if_pos ⟨rfl, hlt⟩, hslot.2]
    · rw [hold.2] at hz
      cases hz

namespace TookParts

variable {pairs : List (Ref × Ref)}

/-- Where all parts have the shapes of their partners, no part is replaced. -/
theorem parts_eq (hk : h.TookParts t pairs h') (hs : h.Sound) (hall : pairs.map Prod.fst = h.parts t)
    (hshape : ∀ q ∈ pairs, (h.tree q.1).shape = (h.tree q.2).shape) {y : Ref}
    (hy : Reaches h.parts t y) : h'.parts y = h.parts y := by
  rcases hy.cases_head with rfl | ⟨x, hx, hy⟩
  · exact hk.assigned.edits.parts_of_cell_eq hs hk.cell
  · rw [← hall] at hx
    obtain ⟨q, hq, rfl⟩ := List.mem_map.1 hx
    exact ((hk.took q hq).shape (hshape q hq)).2 y hy

theorem not_isSlot (hk : h.TookParts t pairs h') (ht : ¬ h.isSlot t) : ¬ h'.isSlot t :=
  (isSlot_congr hk.cell).not.2 ht

/-- An array takes over another in each place. -/
theorem took_array {element : Ty} {b c : BlockRef} (hs : h.Sound)
    (ht : h.cell t = .array element b) (hsource : h.cell s = .array element c)
    (hlength : (h.block b).toList.length = (h.block c).toList.length)
    (hk : h.TookParts t ((h.block b).toList.zip (h.block c).toList) h') : h.Took t s h' := by
  have hbare : ¬ h.isSlot t := by simp [isSlot, ht, Cell.IsSlot]
  have htree : h.tree t = .array element ((h.block b).toList.map h.tree) := hs.grounded.tree_of_cell ht
  have hstree : h.tree s = .array element ((h.block c).toList.map h.tree) :=
    hs.grounded.tree_of_cell hsource
  have htree' : h'.tree t = .array element ((h.block b).toList.map h'.tree) := by
    rw [← hk.assigned.edits.block b (hs.storage_lt t element b ht)]
    exact hk.assigned.sound.grounded.tree_of_cell (hk.cell.trans ht)
  refine .of_bare hbare (by simp [isSlot, hsource, Cell.IsSlot]) (hk.not_isSlot hbare) ?_ ?_
  · intro hclash
    rw [htree', hstree]
    simp only [ValueTree.reading, ValueTree.readings_eq_map, List.map_map, ValueTree.array.injEq,
      true_and]
    refine (map_eq_map_iff_zip hlength).2 fun z hz => (hk.took z hz).reading fun hz' => hclash ?_
    rw [htree, hstree]
    refine .element (z := (h.tree z.1, h.tree z.2)) ?_ hz'
    rw [List.zip_map]
    exact List.mem_map_of_mem hz
  · rw [htree, hstree]
    simp only [ValueTree.shape, ValueTree.shapes_eq_map, List.map_map, ValueTree.array.injEq, true_and]
    intro hshape
    have hshape := (map_eq_map_iff_zip hlength).1 hshape
    refine ⟨?_, fun y hy => hk.parts_eq hs ?_ hshape hy⟩
    · rw [htree']
      congr 1
      exact (map_eq_map_iff_zip hlength).2 fun z hz => ((hk.took z hz).shape (hshape z hz)).1
    · rw [parts_of_cell ht, List.map_fst_zip (Nat.le_of_eq hlength)]
      rfl

/-- A compound takes over another field by field. -/
theorem took_compound {ty : Ty} {fs gs : List (String × Ref)} (hs : h.Sound)
    (ht : h.cell t = .compound ty fs) (hsource : h.cell s = .compound ty gs)
    (hnames : fs.map Prod.fst = gs.map Prod.fst)
    (hk : h.TookParts t ((fs.map Prod.snd).zip (gs.map Prod.snd)) h') : h.Took t s h' := by
  have hbare : ¬ h.isSlot t := by simp [isSlot, ht, Cell.IsSlot]
  have htree : h.tree t = .compound ty (fs.map fun f => (f.1, h.tree f.2)) := hs.grounded.tree_of_cell ht
  have hstree : h.tree s = .compound ty (gs.map fun g => (g.1, h.tree g.2)) :=
    hs.grounded.tree_of_cell hsource
  have htree' : h'.tree t = .compound ty (fs.map fun f => (f.1, h'.tree f.2)) :=
    hk.assigned.sound.grounded.tree_of_cell (hk.cell.trans ht)
  have hlength : fs.length = gs.length := by simpa using congrArg List.length hnames
  have hname := (map_eq_map_iff_zip hlength).1 hnames
  have hpair : ∀ z ∈ fs.zip gs, (z.1.2, z.2.2) ∈ (fs.map Prod.snd).zip (gs.map Prod.snd) := by
    intro z hz
    rw [List.zip_map]
    exact List.mem_map_of_mem hz
  refine .of_bare hbare (by simp [isSlot, hsource, Cell.IsSlot]) (hk.not_isSlot hbare) ?_ ?_
  · intro hclash
    rw [htree', hstree]
    simp only [ValueTree.reading, ValueTree.fieldReadings_eq_map, List.map_map,
      ValueTree.compound.injEq, true_and]
    refine (map_eq_map_iff_zip hlength).2 fun z hz => Prod.ext (hname z hz) ?_
    refine (hk.took _ (hpair z hz)).reading fun hz' => hclash ?_
    rw [htree, hstree]
    refine .field (z := ((z.1.1, h.tree z.1.2), (z.2.1, h.tree z.2.2))) ?_ hz'
    rw [List.zip_map]
    exact List.mem_map_of_mem hz
  · rw [htree, hstree]
    simp only [ValueTree.shape, ValueTree.fieldShapes_eq_map, List.map_map, ValueTree.compound.injEq,
      true_and]
    intro hshape
    have hshape := (map_eq_map_iff_zip hlength).1 hshape
    refine ⟨?_, fun y hy => hk.parts_eq hs ?_ ?_ hy⟩
    · rw [htree']
      congr 1
      refine (map_eq_map_iff_zip hlength).2 fun z hz => Prod.ext (hname z hz) ?_
      exact ((hk.took _ (hpair z hz)).shape (congrArg Prod.snd (hshape z hz))).1
    · rw [parts_of_cell ht, List.map_fst_zip (by simp [hlength])]
      rfl
    · intro q hq
      rw [List.zip_map] at hq
      obtain ⟨z, hz, rfl⟩ := List.mem_map.1 hq
      exact congrArg Prod.snd (hshape z hz)

end TookParts

end Heap

theorem fieldPairs?_of_find {fs gs all : List (String × Ref)}
    (hnames : fs.map Prod.fst = gs.map Prod.fst) (hfind : ∀ g ∈ gs, Dict.find? g.1 all = some g.2) :
    fieldPairs? fs all = some ((fs.map Prod.snd).zip (gs.map Prod.snd)) := by
  unfold fieldPairs?
  induction fs generalizing gs with
  | nil => rfl
  | cons f fs ih =>
    cases gs with
    | nil => simp at hnames
    | cons g gs =>
      obtain ⟨hname, hnames⟩ := List.cons.inj hnames
      have hrest := ih hnames fun g hg => hfind g (List.mem_cons_of_mem _ hg)
      simp [hname, hfind g List.mem_cons_self, hrest]

/-- Fields of the same distinct names are paired in their order. -/
theorem fieldPairs?_eq {fs gs : List (String × Ref)} (hnames : fs.map Prod.fst = gs.map Prod.fst)
    (hdistinct : (gs.map Prod.fst).Nodup) :
    fieldPairs? fs gs = some ((fs.map Prod.snd).zip (gs.map Prod.snd)) :=
  fieldPairs?_of_find hnames fun _ hg => Dict.find?_of_mem hdistinct hg

/-- Paired fields have one type. -/
theorem exists_ty_of_fields {fs gs : List (String × Ref)} {fields : List Field} {q : Ref × Ref}
    (hnames : fs.map Prod.fst = fields.map Field.name)
    (hfs : ∀ z ∈ (fs.map fun f => (f.1, h.tree f.2)).zip fields, z.1.2.HasTy p z.2.ty)
    (hgs : ∀ z ∈ (gs.map fun g => (g.1, h.tree g.2)).zip fields, z.1.2.HasTy p z.2.ty)
    (hq : q ∈ (fs.map Prod.snd).zip (gs.map Prod.snd)) :
    ∃ ty, (h.tree q.1).HasTy p ty ∧ (h.tree q.2).HasTy p ty := by
  obtain ⟨i, hi, hi'⟩ := ValueTree.mem_zip_iff.1 hq
  simp only [List.getElem?_map, Option.map_eq_some_iff] at hi hi'
  obtain ⟨f, hf, hf₂⟩ := hi
  obtain ⟨g, hg, hg₂⟩ := hi'
  have hfield : (fields.map Field.name)[i]? = some f.1 := by
    rw [← hnames, List.getElem?_map, hf, Option.map_some]
  rw [List.getElem?_map, Option.map_eq_some_iff] at hfield
  obtain ⟨field, hfield, -⟩ := hfield
  refine ⟨field.ty, ?_, ?_⟩
  · rw [← hf₂]
    refine hfs ((f.1, h.tree f.2), field) (ValueTree.mem_zip_iff.2 ⟨i, ?_, hfield⟩)
    rw [List.getElem?_map, hf, Option.map_some]
  · rw [← hg₂]
    refine hgs ((g.1, h.tree g.2), field) (ValueTree.mem_zip_iff.2 ⟨i, ?_, hfield⟩)
    rw [List.getElem?_map, hg, Option.map_some]

/-! ## Storing -/

/-- What storing does once the update is known. -/
def Update.carryOut (fuel : Nat) (target : Ref) : Update → Mem Unit
  | .nothing => return
  | .primitive p => setPrimitive target p
  | .place b offset => setPlace target b offset
  | .null => do
    let b ← allocBlock #[]
    setPlace target b 0
  | .pairs l =>
    l.forM fun q => do
      if ← read (·.isAbsent q.2) then
        setContent q.1 none
      else
        assignWithin fuel q.1 q.2

theorem assignWithin_bare {k : Nat} (ht : ¬ h.isSlot t) (hne : t ≠ h.flatten s) :
    assignWithin (k + 1) t s h =
      (answer (h.update (h.cell t) (h.cell (h.flatten s))) >>= Update.carryOut k t) h := by
  rw [assignWithin, read_bind, if_neg hne, read_bind]
  unfold Heap.isSlot at ht
  cases hc : h.cell t with
  | slot =>
    rw [hc] at ht
    exact absurd trivial ht
  | primitive | array | pointer | compound =>
    dsimp only
    rw [read_bind]
    cases h.update _ (h.cell (h.flatten s)) with
    | error => rfl
    | ok u => cases u <;> rfl

/-- Values nested at most `n` levels deep are stored with the bound `k`. -/
def Mem.Stores (p : Program) (n k : Nat) : Prop :=
  ∀ (h : Heap) (t s : Ref) (ty : Ty), h.Sound → h.Matching p t s ty → ¬ h.isAbsent s →
    Shallow h.parts n t →
    Ends (assignWithin k t s) h (fun _ h' => h.Assigned t h' ∧ h.Took t s h') fun _ _ => False

section Bare

variable {n k : Nat} (ih : Stores p n k) (hs : h.Sound) (hn : Shallow h.parts (n + 1) t)
include ih hs hn

/-- Pairs of parts that have one type. -/
theorem ends_pairs_took {l : List (Ref × Ref)} (ht : ¬ h.isSlot t) (hb : h.Beside t s)
    (hl : l.map Prod.fst <+: h.parts t) (hsource : ∀ q ∈ l, q.2 ∈ h.parts s)
    (hty : ∀ q ∈ l, ∃ ty, (h.tree q.1).HasTy p ty ∧ (h.tree q.2).HasTy p ty) :
    Ends ((Update.pairs l).carryOut k t) h (fun _ => h.TookParts t l) fun _ _ => False := by
  have htarget : ∀ q ∈ l, q.1 ∈ h.parts t := fun q hq => hl.subset (List.mem_map_of_mem hq)
  refine ends_forM_took hs ht (fun q hq => ⟨?_, ?_⟩) ?_ hl
  · exact hs.part_lt s q.2 (hsource q hq)
  · exact hb.apart.of_reaches .refl (.single (hsource q hq))
  intro q hq h₁ hs₁ hle hix hiy
  obtain ⟨ty, htx, hsy⟩ := hty q hq
  have hm := hb.matching hs.grounded (.single (htarget q hq)) (.single (hsource q hq)) htx hsy
  have hm₁ := hm.of_intact hs.grounded hs₁.grounded hle hix hiy
  refine ends_bind.2 (ends_read.2 ?_)
  split
  · rename_i habsent
    exact ((assigns_empty hs₁ q.1).and (ends_empty_took hs₁ hm₁ habsent)).mono
      (fun _ _ hk => hk) fun _ _ hE => hE.2
  · rename_i hpresent
    exact ih h₁ q.1 q.2 ty hs₁ hm₁ hpresent (hix.shallow (hn q.1 (htarget q hq)))

/-- Arrays of one element type, of any lengths. -/
theorem ends_array_took {element : Ty} {b c : BlockRef} (hb : h.Beside t s)
    (ht : h.cell t = .array element b) (hsource : h.cell s = .array element c)
    (htargets : ∀ x ∈ (h.block b).toList, (h.tree x).HasTy p element)
    (hsources : ∀ y ∈ (h.block c).toList, (h.tree y).HasTy p element) :
    Ends (assignWithin (k + 1) t s) h
      (fun _ => h.TookParts t ((h.block b).toList.zip (h.block c).toList)) fun _ _ => False := by
  have hbare : ¬ h.isSlot t := by simp [Heap.isSlot, ht, Cell.IsSlot]
  have hflat : h.flatten s = s := by simp [Heap.flatten, hsource]
  rw [ends_congr (assignWithin_bare hbare (hb.ne (h.reaches_flatten s))), hflat, ht, hsource]
  refine ends_bind.2 (ends_answer.2 ?_)
  by_cases hbc : b = c
  · -- arrays in one block have nothing in common only if they are empty
    subst hbc
    have hempty : (h.block b).toList = [] := by
      refine List.eq_nil_iff_forall_not_mem.2 fun x hx => ?_
      have hx := Array.mem_toList_iff.1 hx
      exact hb.apart x (.single (Heap.mem_parts_of_array ht hx)) (.single (Heap.mem_parts_of_array hsource hx))
    simp only [Heap.update, if_pos]
    exact ⟨.refl hs, rfl, by simp [hempty]⟩
  · simp only [Heap.update, if_neg hbc]
    refine ends_pairs_took ih hs hn hbare hb ?_ ?_ ?_
    · rw [Heap.parts_of_cell ht]
      exact Heap.isPrefix_map_fst_zip ..
    · intro q hq
      rw [Heap.parts_of_cell hsource]
      exact (List.of_mem_zip hq).2
    · exact fun q hq => ⟨element, htargets _ (List.of_mem_zip hq).1, hsources _ (List.of_mem_zip hq).2⟩

/-- Two values of one type, neither of them a slot. -/
theorem ends_bare_took {ty : Ty} (hnames : ∀ name, ((p.allFields name).map Field.name).Nodup)
    (hm : h.Matching p t s ty) (ht : ¬ h.isSlot t) (hbare : ¬ h.isSlot s) :
    Ends (assignWithin (k + 1) t s) h (fun _ => h.Took t s) fun _ _ => False := by
  have hslot : ¬ (h.tree s).IsSlot := hs.grounded.isSlot_iff.not.1 hbare
  have hopen {P : Unit → Heap → Prop} := ends_congr (P := P) (E := fun _ _ => False)
    (assignWithin_bare (k := k) ht (hm.ne (h.reaches_flatten s)))
  rw [Heap.flatten_of_not_isSlot hbare] at hopen
  have htarget := hm.target
  generalize htree : h.tree t = tree at htarget
  cases htarget with
  | @primitive m _ hty hk =>
    obtain ⟨n, hstree, hkind, hsign, -⟩ := hm.source.exists_primitive hslot hty
    have hc := hs.grounded.cell_of_primitive htree
    have hsource := hs.grounded.cell_of_primitive hstree
    have hfits : n.converted m.kind m.unsigned = n := by
      rw [← hkind, ← hsign]
      exact Primitive.fits_of_inRange (hs.number _ _ hsource)
    have halike : (h.cell t).Alike (.primitive n) := hc ▸ .primitive hkind hsign
    rw [hopen, hc, hsource]
    refine ends_bind.2 (ends_answer.2 ?_)
    simp only [Heap.update, hfits]
    exact ends_change.2 (Heap.took_setCell hs hm.target_lt halike hsource (.inl ⟨n, rfl⟩))
  | @pointer q _ hty =>
    obtain ⟨q', hstree, htarget⟩ := hm.source.exists_pointer hslot hty
    have hc := hs.grounded.cell_of_pointer htree
    have hsource := hs.grounded.cell_of_pointer hstree
    have halike : (h.cell t).Alike (.pointer q') := hc ▸ .pointer htarget
    rw [hopen, hc, hsource]
    refine ends_bind.2 (ends_answer.2 (ends_change.2 ?_))
    simp only [hc, ← htarget]
    exact Heap.took_setCell hs hm.target_lt halike hsource (.inr ⟨q', rfl⟩)
  | @array element slots _ hty hslots =>
    obtain ⟨slots', hstree, hlength, hslots'⟩ := hm.source.exists_array hslot hty
    obtain ⟨b, hc, rfl⟩ := hs.grounded.cell_of_array htree
    obtain ⟨c, hsource, rfl⟩ := hs.grounded.cell_of_array hstree
    have hstore := ends_array_took ih hs hn hm.toBeside hc hsource
      (fun x hx => hslots _ (List.mem_map_of_mem hx)) fun y hy => hslots' _ (List.mem_map_of_mem hy)
    refine hstore.mono (fun _ h' hk => ?_) fun _ _ hE => hE
    exact hk.took_array hs hc hsource (by simpa using hlength.symm)
  | @compound form name fields _ hty hfields hall =>
    obtain ⟨fields', hstree, hfields', hall'⟩ := hm.source.exists_compound hslot hty
    obtain ⟨fs, hc, rfl⟩ := hs.grounded.cell_of_compound htree
    obtain ⟨gs, hsource, rfl⟩ := hs.grounded.cell_of_compound hstree
    have hfs : fs.map Prod.fst = (p.allFields name).map Field.name := by
      rw [List.map_map] at hfields
      exact hfields
    have hgs : gs.map Prod.fst = (p.allFields name).map Field.name := by
      rw [List.map_map] at hfields'
      exact hfields'
    have hpairs := fieldPairs?_eq (hfs.trans hgs.symm) (hgs ▸ hnames name)
    rw [hopen, hc, hsource]
    refine ends_bind.2 (ends_answer.2 ?_)
    simp only [Heap.update, hpairs]
    have hstore := ends_pairs_took ih hs hn ht hm.toBeside (l := (fs.map Prod.snd).zip (gs.map Prod.snd))
    refine (hstore ?_ ?_ ?_).mono (fun _ h' hk => ?_) fun _ _ hE => hE
    · rw [Heap.parts_of_cell hc]
      exact Heap.isPrefix_map_fst_zip ..
    · intro q hq
      rw [Heap.parts_of_cell hsource]
      exact (List.of_mem_zip hq).2
    · exact fun q hq => exists_ty_of_fields hfs hall hall' hq
    · exact hk.took_compound hs hc hsource (hfs.trans hgs.symm)
  | present | absent =>
    refine absurd ?_ (hs.grounded.isSlot_iff.not.1 ht)
    rw [htree]
    trivial

end Bare

/-- A value takes over what is stored into it. -/
theorem ends_assignWithin_took (hnames : ∀ name, ((p.allFields name).map Field.name).Nodup)
    (n k : Nat) (hk : n ≤ k) : Stores p n k := by
  induction n generalizing k with
  | zero => exact fun _ _ _ _ _ _ _ hn => hn.elim
  | succ n ih =>
    obtain ⟨k, rfl, hle⟩ := exists_of_succ_le hk
    have ih := ih k hle
    intro h t s ty hs hm hpresent hn
    have hne := hm.ne (h.reaches_flatten s)
    have hbare := hs.not_isSlot_flatten hpresent
    have hsource : (h.tree (h.flatten s)).HasTy p ty := hs.grounded.hasTy_flatten hm.source
    have hm' : h.Matching p t (h.flatten s) ty :=
      hm.matching hs.grounded .refl (h.reaches_flatten s) hm.target hsource
    suffices htook : Ends (assignWithin (k + 1) t s) h (fun _ => h.Took t s) fun _ _ => False from
      ((assigns_assignWithin (k + 1) t s hs).and htook).mono (fun _ _ hk => hk) fun _ _ hE => hE.2
    by_cases ht : h.isSlot t
    · obtain ⟨declared, content, hc⟩ := Cell.isSlot_iff.1 ht
      refine ends_bind.2 (ends_read.2 ?_)
      rw [if_neg hne]
      refine ends_bind.2 (ends_read.2 ?_)
      rw [hc]
      cases content with
      | none =>
        refine (ends_fill_took hs hm' hbare hc).mono (fun _ h' hk => ?_) fun _ _ hE => hE
        exact hk.of_flatten hs hpresent fun _ => by simp [Heap.isAbsent, hc]
      | some c =>
        have hpart : c ∈ h.parts t := Heap.mem_parts_of_slot hc
        have hcontent : (h.tree c).HasTy p ty := by
          have htarget := hm.target
          rw [hs.grounded.tree_of_cell hc] at htarget
          exact htarget.of_present
        have hstore := ih h c (h.flatten s) ty hs
          (hm'.matching hs.grounded (.single hpart) .refl hcontent hsource)
          (Heap.not_isAbsent_of_not_isSlot hbare) (hn c hpart)
        refine hstore.mono ?_ fun _ _ hE => hE
        rintro _ h' ⟨ha, hk⟩
        -- the slot is not part of what it holds
        have hcell := ha.edits.cell t hm.target_lt (hs.forest.not_reaches hpart)
        exact hk.of_content hs ha.sound hpresent hc hcell
    · have hopen : assignWithin (k + 1) t s h = assignWithin (k + 1) t (h.flatten s) h := by
        have hflat := flatten_flatten hs s
        rw [assignWithin_bare ht hne, assignWithin_bare ht (by rwa [hflat]), hflat]
      rw [ends_congr hopen]
      refine (ends_bare_took ih hs hn hnames hm' ht hbare).mono (fun _ h' hk => ?_) fun _ _ hE => hE
      exact hk.of_flatten hs hpresent fun hslot => absurd hslot ht

end Treewalk
