/-
  New values.

  * `Heap.Adjoins h h'`: from `h` to `h'` only new cells and blocks were added,
    and what is new contains only what is new;
  * `Heap.Fresh h h' l`: the values `l` are new, distinct, and contained in
    nothing;
  * `Mem.Makes refs K x h`: what `x` makes is fresh, whatever else it adds is new,
    too, and the heap stays sound. Copies, casts and zero values are made this
    way; a copy in depth because nothing is nested deeper than the levels it
    follows.
-/
import Treewalk.Proofs.Rules
import Treewalk.Proofs.Sound

namespace Treewalk

namespace Heap

variable {h h' h₁ h₂ : Heap} {l rest : List Ref} {r x : Ref} {c : Cell}

/-- Cells and blocks were added, and the new cells contain new ones only. -/
structure Adjoins (h h' : Heap) : Prop extends Adds h h' where
  part : ∀ r, h.cells.size ≤ r.id → ∀ x ∈ h'.parts r, h.cells.size ≤ x.id

/-- The values are new, distinct, and contained in nothing. -/
structure Fresh (h h' : Heap) (l : List Ref) : Prop where
  new : ∀ x ∈ l, h.cells.size ≤ x.id
  lt : ∀ x ∈ l, x.id < h'.cells.size
  solo : ∀ x ∈ l, Solo h'.parts x
  nodup : l.Nodup

namespace Adjoins

theorem refl (h : Heap) : h.Adjoins h where
  toAdds := Std.Refl.refl h
  part := fun r hr x hx => by rw [parts_of_le hr] at hx; cases hx

/-- What was there contains what it did. -/
theorem parts_eq (ha : h.Adjoins h') (hs : h.Sound) (hr : r.id < h.cells.size) :
    h'.parts r = h.parts r := by
  unfold parts
  rw [ha.cell r hr]
  exact contents_congr fun ty b hb => ha.block b (hs.storage_lt r ty b hb)

theorem trans (ha : h.Adjoins h₁) (hs : h₁.Sound) (ha' : h₁.Adjoins h₂) : h.Adjoins h₂ where
  toAdds := IsTrans.trans _ _ _ ha.toAdds ha'.toAdds
  part := fun r hr x hx => by
    by_cases hlt : r.id < h₁.cells.size
    · rw [ha'.parts_eq hs hlt] at hx
      exact ha.part r hr x hx
    · exact ha.cells_le.trans (ha'.part r (Nat.le_of_not_lt hlt) x hx)

theorem alloc (ha : h.Adjoins h₁) (hc : ∀ x ∈ h₁.contents c, h.cells.size ≤ x.id) :
    h.Adjoins (h₁.alloc c).2 where
  toAdds := IsTrans.trans _ _ _ ha.toAdds (Additive.alloc h₁ c)
  part := fun r hr x hx => by
    rw [parts_alloc] at hx
    split at hx
    · exact hc x hx
    · exact ha.part r hr x hx

theorem allocBlock (ha : h.Adjoins h₁) (hs : h₁.Sound) (slots : Array Ref) :
    h.Adjoins (h₁.allocBlock slots).2 where
  toAdds := IsTrans.trans _ _ _ ha.toAdds (Additive.allocBlock h₁ slots)
  part := by rw [hs.parts_allocBlock]; exact ha.part

/-- What nothing contained is still contained in nothing. -/
theorem solo (ha : h.Adjoins h') (hs : h.Sound) (hx : x.id < h.cells.size) (hsolo : Solo h.parts x) :
    Solo h'.parts x := by
  have hold : ∀ y c, y.id < h.cells.size → y ∈ h'.parts c → y ∈ h.parts c := by
    intro y c hy hc
    by_cases hlt : c.id < h.cells.size
    · rwa [ha.parts_eq hs hlt] at hc
    · exact absurd hy (Nat.not_lt_of_le (ha.part c (Nat.le_of_not_lt hlt) y hc))
  refine ⟨fun c hc => hsolo.1 c (hold x c hx hc), fun y hy c hc => ?_⟩
  rw [ha.parts_eq hs hx] at hy
  exact hsolo.2 y hy c (hold y c (hs.part_lt x y hy) hc)

/-- What is new leads only to what is new. -/
theorem le_of_reaches (ha : h.Adjoins h') (hx : h.cells.size ≤ x.id) (hr : Reaches h'.parts x r) :
    h.cells.size ≤ r.id := by
  induction hr with
  | refl => exact hx
  | tail _ hz ih => exact ha.part _ ih _ hz

end Adjoins

namespace Fresh

theorem nil (h h' : Heap) : Fresh h h' [] :=
  ⟨nofun, nofun, nofun, List.nodup_nil⟩

theorem perm {l' : List Ref} (hf : Fresh h h' l) (hp : l.Perm l') : Fresh h h' l' where
  new := fun x hx => hf.new x (hp.mem_iff.2 hx)
  lt := fun x hx => hf.lt x (hp.mem_iff.2 hx)
  solo := fun x hx => hf.solo x (hp.mem_iff.2 hx)
  nodup := hp.nodup_iff.1 hf.nodup

/-- Fresh values stay so while others are made, and are other than those. -/
theorem append (hf : Fresh h h₁ l) (ha : h.Adjoins h₁) (hs : h₁.Sound) (ha' : h₁.Adjoins h₂)
    (hf' : Fresh h₁ h₂ rest) : Fresh h h₂ (l ++ rest) where
  new := fun x hx => (List.mem_append.1 hx).elim (hf.new x) fun hx =>
    ha.cells_le.trans (hf'.new x hx)
  lt := fun x hx => (List.mem_append.1 hx).elim (fun hx => (hf.lt x hx).trans_le ha'.cells_le)
    (hf'.lt x)
  solo := fun x hx => (List.mem_append.1 hx).elim
    (fun hx => ha'.solo hs (hf.lt x hx) (hf.solo x hx)) (hf'.solo x)
  nodup := List.nodup_append.2 ⟨hf.nodup, hf'.nodup, fun x hx y hy he =>
    absurd (hf.lt x hx) (Nat.not_lt_of_le (he ▸ hf'.new y hy))⟩

/-- A new cell around fresh values is fresh itself, and so is what it leaves. -/
theorem alloc (hf : Fresh h h₁ (h₁.contents c ++ rest)) (ha : h.Adjoins h₁) (hs : h₁.Sound) :
    Fresh h (h₁.alloc c).2 (⟨h₁.cells.size⟩ :: rest) := by
  have hc : ∀ x ∈ h₁.contents c, Solo h₁.parts x := fun x hx =>
    hf.solo x (List.mem_append_left rest hx)
  have hdisjoint : ∀ x ∈ rest, x ∉ h₁.contents c := fun x hx hx' =>
    (List.nodup_append.1 hf.nodup).2.2 x hx' x hx rfl
  have hrest : ∀ x ∈ rest, x.id < h₁.cells.size := fun x hx =>
    hf.lt x (List.mem_append_right _ hx)
  refine ⟨?_, ?_, ?_, ?_⟩
  · rintro x hx
    rcases List.mem_cons.1 hx with rfl | hx
    · exact ha.cells_le
    · exact hf.new x (List.mem_append_right _ hx)
  · rintro x hx
    rw [cells_size_alloc]
    rcases List.mem_cons.1 hx with rfl | hx
    · exact Nat.lt_succ_self _
    · exact Nat.lt_succ_of_lt (hrest x hx)
  · rintro x hx
    rcases List.mem_cons.1 hx with rfl | hx
    · refine ⟨fun a hm => ?_, fun y hy a hm => ?_⟩
      · rw [parts_alloc] at hm
        split at hm
        · exact absurd (hf.lt _ (List.mem_append_left rest hm)) (Nat.lt_irrefl _)
        · exact hs.not_mem_parts_of_le (Nat.le_refl _) a hm
      · rw [parts_alloc, if_pos rfl] at hy
        rw [parts_alloc] at hm
        split at hm
        · rename_i hid
          exact Ref.ext_id hid
        · exact absurd hm ((hc y hy).1 a)
    · have hsolo := hf.solo x (List.mem_append_right _ hx)
      refine ⟨fun a hm => ?_, fun y hy a hm => ?_⟩
      · rw [parts_alloc] at hm
        split at hm
        · exact hdisjoint x hx hm
        · exact hsolo.1 a hm
      · rw [parts_alloc, if_neg (Nat.ne_of_lt (hrest x hx))] at hy
        rw [parts_alloc] at hm
        split at hm
        · exact absurd hy ((hc y hm).1 x)
        · exact hsolo.2 y hy a hm
  · refine List.nodup_cons.2 ⟨fun hx => absurd (hrest _ hx) (Nat.lt_irrefl _), ?_⟩
    exact (List.nodup_append.1 hf.nodup).2.1

/-- A new block changes nothing about fresh values. -/
theorem allocBlock (hf : Fresh h h₁ l) (hs : h₁.Sound) (slots : Array Ref) :
    Fresh h (h₁.allocBlock slots).2 l where
  new := hf.new
  lt := hf.lt
  solo := by rw [hs.parts_allocBlock]; exact hf.solo
  nodup := hf.nodup

end Fresh

/-- From `h` on, the values `refs a` were made, their cells as `K` says, and
    nothing that was there has changed. -/
structure Made {β : Type} (h : Heap) (refs : β → List Ref) (K : Cell → Prop) (a : β) (h' : Heap) :
    Prop where
  sound : h'.Sound
  adjoins : h.Adjoins h'
  fresh : h.Fresh h' (refs a)
  kind : ∀ r ∈ refs a, K (h'.cell r)

end Heap

/-- A cell that contains nothing, its number in range. -/
def Cell.Simple : Cell → Prop
  | .primitive p => p.InRange
  | .pointer _ => True
  | .slot _ none => True
  | _ => False

theorem Cell.Simple.contents {c : Cell} (hc : c.Simple) (h : Heap) : h.contents c = [] := by
  cases c with
  | primitive | pointer => rfl
  | slot ty content =>
    cases content with
    | none => rfl
    | some x => exact hc.elim
  | array | compound => exact hc.elim

theorem Cell.Simple.admits {c : Cell} (hc : c.Simple) (h : Heap) : h.Admits c :=
  .of_contents (hc.contents h) (fun p he => by rw [he] at hc; exact hc)
    fun ty b he => by rw [he] at hc; exact hc

namespace Mem

variable {α β : Type} {h h₁ : Heap} {refs : α → List Ref} {K : Cell → Prop}

/-- However the computation ends, the heap is sound and only new cells were
    added, among them what it makes. -/
def Makes (refs : α → List Ref) (K : Cell → Prop) (x : Mem α) (h : Heap) : Prop :=
  Ends x h (h.Made refs K) fun _ h' => h'.Sound ∧ h.Adjoins h'

/-- A single value. -/
abbrev MakesOne (K : Cell → Prop) (x : Mem Ref) (h : Heap) : Prop :=
  Makes (fun r => [r]) K x h

theorem Makes.mono {x : Mem α} {K' : Cell → Prop} (hx : Makes refs K x h) (hK : ∀ c, K c → K' c) :
    Makes refs K' x h :=
  Ends.mono hx (fun _ _ hm => ⟨hm.sound, hm.adjoins, hm.fresh, fun r hr => hK _ (hm.kind r hr)⟩)
    fun _ _ h => h

theorem Makes.bind {x : Mem α} {f : α → Mem β} {refs' : β → List Ref} {K' : Cell → Prop}
    (hx : Makes refs K x h)
    (hf : ∀ a h₁, h.Made refs K a h₁ →
      Ends (f a) h₁ (h.Made refs' K') fun _ h' => h'.Sound ∧ h.Adjoins h') :
    Makes refs' K' (x >>= f) h :=
  ends_bind.2 (Ends.mono hx hf fun _ _ h => h)

/-! ## Cells around fresh values -/

/-- A new cell around all the values made so far. -/
theorem ends_alloc_made {c : Cell} (hs : h₁.Sound) (ha : h.Adjoins h₁)
    (hf : h.Fresh h₁ (h₁.contents c)) (hadmits : h₁.Admits c) (hK : K c)
    {E : Halt → Heap → Prop} : Ends (alloc c) h₁ (h.Made (fun r => [r]) K) E where
  sound := hs.alloc hadmits
  adjoins := ha.alloc hf.new
  fresh := Heap.Fresh.alloc (by rwa [List.append_nil]) ha hs
  kind := fun r hr => by
    rw [List.mem_singleton.1 hr]
    exact (h₁.cell_alloc_new c).symm ▸ hK

theorem ends_alloc_simple {c : Cell} (hs : h₁.Sound) (ha : h.Adjoins h₁) (hc : c.Simple) (hK : K c)
    {E : Halt → Heap → Prop} : Ends (alloc c) h₁ (h.Made (fun r => [r]) K) E :=
  ends_alloc_made (E := E) hs ha (by rw [hc.contents]; exact .nil _ _) (hc.admits _) hK

theorem makes_alloc {c : Cell} (hs : h.Sound) (hc : c.Simple) (hK : K c) : MakesOne K (alloc c) h :=
  ends_alloc_simple hs (.refl h) hc hK

theorem ends_alloc_slot {ty : Ty} {x : Ref} (hm : h.Made (fun r => [r]) (¬ ·.IsSlot) x h₁)
    (hK : K (.slot ty (some x))) {E : Halt → Heap → Prop} :
    Ends (alloc (.slot ty (some x))) h₁ (h.Made (fun r => [r]) K) E := by
  have hadmits : h₁.Admits (.slot ty (some x)) :=
    { number := nofun
      nested := fun ty' x' he => by cases he; exact hm.kind x (List.mem_singleton_self x)
      storage_lt := nofun
      part_lt := hm.fresh.lt
      nodup := hm.fresh.nodup
      solo := .inl trivial }
  exact ends_alloc_made (c := .slot ty (some x)) (E := E) hm.sound hm.adjoins hm.fresh hadmits hK

theorem ends_alloc_compound {ty : Ty} {fields : List (String × Ref)}
    {K' : Cell → Prop} (hm : h.Made (List.map Prod.snd) K' fields h₁) (hK : K (.compound ty fields))
    {E : Halt → Heap → Prop} :
    Ends (alloc (.compound ty fields)) h₁ (h.Made (fun r => [r]) K) E := by
  have hadmits : h₁.Admits (.compound ty fields) :=
    { number := nofun
      nested := nofun
      storage_lt := nofun
      part_lt := hm.fresh.lt
      nodup := hm.fresh.nodup
      solo := .inr hm.fresh.solo }
  exact ends_alloc_made (c := .compound ty fields) (E := E) hm.sound hm.adjoins hm.fresh hadmits hK

theorem ends_arrayOfSlots {element : Ty} {slots : List Ref}
    (hm : h.Made id (fun c => c.IsSlot ∨ c.IsCompound) slots h₁) (hK : ∀ b, K (.array element b))
    {E : Halt → Heap → Prop} :
    Ends (arrayOfSlots element slots) h₁ (h.Made (fun r => [r]) K) E := by
  have hs : (h₁.allocBlock slots.toArray).2.Sound :=
    hm.sound.allocBlock fun x hx => hm.kind x (List.mem_toArray.1 hx)
  have hcontents : (h₁.allocBlock slots.toArray).2.contents (.array element ⟨h₁.blocks.size⟩) = slots :=
    congrArg Array.toList (h₁.block_allocBlock_new slots.toArray)
  have hf : h.Fresh (h₁.allocBlock slots.toArray).2
      ((h₁.allocBlock slots.toArray).2.contents (.array element ⟨h₁.blocks.size⟩)) := by
    rw [hcontents]
    exact hm.fresh.allocBlock hm.sound _
  have hadmits : (h₁.allocBlock slots.toArray).2.Admits (.array element ⟨h₁.blocks.size⟩) :=
    { number := nofun
      nested := nofun
      storage_lt := fun ty b he => by
        cases he
        rw [Heap.blocks_size_allocBlock]
        exact Nat.lt_succ_self _
      part_lt := hf.lt
      nodup := hf.nodup
      solo := .inr hf.solo }
  unfold arrayOfSlots
  rw [ends_bind]
  exact ends_alloc_made (E := E) hs (hm.adjoins.allocBlock hm.sound _) hf hadmits (hK _)

/-! ## Many values -/

theorem makes_mapM {l : List α} {g : α → Mem β} (ref : β → Ref) (hs : h.Sound)
    (hg : ∀ a ∈ l, ∀ h₁ : Heap, h₁.Sound → h.Adjoins h₁ → Makes (fun b => [ref b]) K (g a) h₁) :
    Makes (List.map ref) K (l.mapM g) h := by
  induction l generalizing h with
  | nil => exact ⟨hs, .refl h, .nil h h, nofun⟩
  | cons a l ih =>
    rw [List.mapM_cons]
    refine .bind (hg a (by simp) h hs (.refl h)) fun b h₁ hb => ?_
    rw [ends_bind]
    have hl : Makes (List.map ref) K (l.mapM g) h₁ :=
      ih hb.sound fun a' ha' h₂ hs₂ ha₂ =>
        hg a' (by simp [ha']) h₂ hs₂ (hb.adjoins.trans hb.sound ha₂)
    refine Ends.mono hl (fun bs h₂ hbs => ⟨hbs.sound, ?_, ?_, ?_⟩) fun _ h₂ hE => ⟨hE.1, ?_⟩
    · exact hb.adjoins.trans hb.sound hbs.adjoins
    · exact hb.fresh.append hb.adjoins hb.sound hbs.adjoins hbs.fresh
    · intro r hr
      rcases List.mem_cons.1 hr with rfl | hr
      · rw [hbs.adjoins.cell _ (hb.fresh.lt _ (by simp))]
        exact hb.kind _ (by simp)
      · exact hbs.kind r hr
    · exact hb.adjoins.trans hb.sound hE.2

theorem makes_mapM_id {l : List α} {g : α → Mem Ref} (hs : h.Sound)
    (hg : ∀ a ∈ l, ∀ h₁ : Heap, h₁.Sound → h.Adjoins h₁ → MakesOne K (g a) h₁) :
    Makes id K (l.mapM g) h := by
  have hm := makes_mapM id hs hg
  rwa [show (List.map id : List Ref → List Ref) = id from funext List.map_id] at hm

theorem replicateM_eq_mapM (make : Mem α) (n : Nat) :
    replicateM n make = (List.replicate n ()).mapM fun _ => make := by
  induction n with
  | zero => rfl
  | succ n ih => rw [List.replicate_succ, List.mapM_cons, ← ih]; rfl

theorem makes_replicateM {make : Mem Ref} (hmake : ∀ h₁ : Heap, h₁.Sound → MakesOne K make h₁)
    (hs : h.Sound) (n : Nat) : Makes id K (replicateM n make) h := by
  rw [replicateM_eq_mapM]
  exact makes_mapM_id hs fun _ _ h₁ hs₁ _ => hmake h₁ hs₁

/-- Of two heaps the second has the cells of the first. -/
def KeepsCells (h₁ h₂ : Heap) : Prop :=
  ∀ r : Ref, r.id < h₁.cells.size → r.id < h₂.cells.size ∧ h₂.cell r = h₁.cell r

/-- A fresh value is put into a slot, if it has to be; the others stay fresh. -/
theorem ends_slotFor {v : Ref} (rest : List Ref) (hs : h₁.Sound) (ha : h.Adjoins h₁)
    (hf : h.Fresh h₁ (v :: rest)) (hv : ¬ (h₁.cell v).IsSlot) {E : Halt → Heap → Prop} :
    Ends (slotFor v) h₁
      (fun s h₂ => h₂.Sound ∧ h.Adjoins h₂ ∧ h.Fresh h₂ (s :: rest) ∧
        ((h₂.cell s).IsSlot ∨ (h₂.cell s).IsCompound) ∧ KeepsCells h₁ h₂)
      E := by
  have halloc : ∀ ty, Ends (alloc (.slot ty (some v))) h₁
      (fun s h₂ => h₂.Sound ∧ h.Adjoins h₂ ∧ h.Fresh h₂ (s :: rest) ∧
        ((h₂.cell s).IsSlot ∨ (h₂.cell s).IsCompound) ∧ KeepsCells h₁ h₂) E := by
    intro ty
    have hadmits : h₁.Admits (.slot ty (some v)) :=
      { number := nofun
        nested := fun ty' x' he => by cases he; exact hv
        storage_lt := nofun
        part_lt := fun x hx => hf.lt x (List.mem_singleton.1 hx ▸ List.mem_cons_self)
        nodup := List.nodup_singleton v
        solo := .inl trivial }
    have hnew : ∀ x ∈ h₁.contents (.slot ty (some v)), h.cells.size ≤ x.id := fun x hx =>
      hf.new x (List.mem_singleton.1 hx ▸ List.mem_cons_self)
    refine ⟨hs.alloc hadmits, ha.alloc hnew, Heap.Fresh.alloc (c := .slot ty (some v)) hf ha hs, ?_, ?_⟩
    · exact .inl ((h₁.cell_alloc_new (.slot ty (some v))).symm ▸ trivial)
    · have hle : h₁.cells.size ≤ (h₁.alloc (.slot ty (some v))).2.cells.size := by simp
      exact fun r hr => ⟨hr.trans_le hle, Heap.cell_alloc_of_lt _ hr⟩
  unfold slotFor
  rw [ends_bind, ends_read]
  split
  · rename_i hc
    exact ⟨hs, ha, hf, .inr (hc ▸ trivial), fun r hr => ⟨hr, rfl⟩⟩
  · unfold toSlot
    rw [ends_bind, ends_read]
    split
    · rename_i hc
      rw [hc] at hv
      exact absurd trivial hv
    · exact halloc _

/-- Fresh values are put into slots one by one. -/
theorem ends_mapM_slotFor {values : List Ref} (rest : List Ref) (hs : h₁.Sound) (ha : h.Adjoins h₁)
    (hf : h.Fresh h₁ (values ++ rest)) (hv : ∀ r ∈ values, ¬ (h₁.cell r).IsSlot)
    {E : Halt → Heap → Prop} :
    Ends (values.mapM slotFor) h₁
      (fun slots h₂ => h₂.Sound ∧ h.Adjoins h₂ ∧ h.Fresh h₂ (slots ++ rest) ∧
        (∀ r ∈ slots, (h₂.cell r).IsSlot ∨ (h₂.cell r).IsCompound) ∧ KeepsCells h₁ h₂)
      E := by
  induction values generalizing rest h₁ with
  | nil => exact ⟨hs, ha, hf, nofun, fun r hr => ⟨hr, rfl⟩⟩
  | cons v values ih =>
    rw [List.mapM_cons, ends_bind]
    refine (ends_slotFor (values ++ rest) hs ha hf (hv v (by simp))).mono ?_ fun _ _ h => h
    rintro s h₂ ⟨hs₂, ha₂, hf₂, hk₂, hc₂⟩
    have hv₂ : ∀ r ∈ values, ¬ (h₂.cell r).IsSlot := fun r hr => by
      rw [(hc₂ r (hf.lt r (by simp [hr]))).2]
      exact hv r (by simp [hr])
    rw [ends_bind]
    refine (ih (s :: rest) hs₂ ha₂ (hf₂.perm List.perm_middle.symm) hv₂).mono ?_ fun _ _ h => h
    rintro slots h₃ ⟨hs₃, ha₃, hf₃, hk₃, hc₃⟩
    refine ⟨hs₃, ha₃, hf₃.perm List.perm_middle, ?_, fun r hr => ?_⟩
    · intro r hr
      rcases List.mem_cons.1 hr with rfl | hr
      · rw [(hc₃ r (hf₂.lt r (by simp))).2]
        exact hk₂
      · exact hk₃ r hr
    · obtain ⟨hlt₂, hr₂⟩ := hc₂ r hr
      obtain ⟨hlt₃, hr₃⟩ := hc₃ r hlt₂
      exact ⟨hlt₃, hr₃.trans hr₂⟩

theorem ends_arrayOf {element : Ty} {values : List Ref} (hm : h.Made id (¬ ·.IsSlot) values h₁)
    (hK : ∀ b, K (.array element b)) {E : Halt → Heap → Prop} :
    Ends (arrayOf element values) h₁ (h.Made (fun r => [r]) K) E := by
  unfold arrayOf
  rw [ends_bind]
  refine (ends_mapM_slotFor [] hm.sound hm.adjoins (by simpa using hm.fresh) hm.kind).mono ?_
    fun _ _ h => h
  rintro slots h₂ ⟨hs, ha, hf, hk, -⟩
  exact ends_arrayOfSlots ⟨hs, ha, by simpa using hf, hk⟩ hK

end Mem

end Treewalk
