/-
  Copies, casts and zero values are made of new cells.

  * `makes_copyWithin`: a copy that follows enough levels is new in depth, and a
    slot or compound exactly when the value is one; `makes_copy`: the number of
    levels a copy follows is always enough;
  * `makes_castTo`, `makes_createValue`, `makes_createArray` and
    `makes_createString` say the same of the other ways to make values.
-/
import Treewalk.Memory.Zero
import Treewalk.Proofs.Fresh

namespace Treewalk

open Mem

/-- A slot or compound exactly when the other is. -/
def Cell.Akin (c c' : Cell) : Prop :=
  (c'.IsSlot ↔ c.IsSlot) ∧ (c'.IsCompound ↔ c.IsCompound)

theorem Cell.Akin.refl (c : Cell) : c.Akin c :=
  ⟨Iff.rfl, Iff.rfl⟩

variable {h h₁ : Heap} {r : Ref}

/-! ## Copies -/

/-- In a sound heap nothing is nested deeper than a copy follows. -/
theorem Heap.Sound.shallow (hs : h.Sound) (r : Ref) : Shallow h.parts h.levels r :=
  hs.grounded.shallow r

/-- New cells do not make old values deeper. -/
theorem Heap.Adjoins.shallow (ha : h.Adjoins h₁) (hs : h.Sound) {n : Nat}
    (hr : r.id < h.cells.size) (hn : Shallow h.parts n r) : Shallow h₁.parts n r :=
  hn.congr fun _ hb => ha.parts_eq hs (hs.lt_of_reaches hr hb)

theorem makes_copyWithin {fuel : Nat} (hs : h.Sound) (hr : Shallow h.parts fuel r) :
    MakesOne (h.cell r).Akin (copyWithin fuel r) h := by
  induction fuel generalizing h r with
  | zero => exact hr.elim
  | succ fuel ih =>
    -- a part is copied while the parts before it already have been
    have hpart : ∀ x ∈ h.parts r, ∀ h₁ : Heap, h₁.Sound → h.Adjoins h₁ →
        MakesOne (h.cell x).Akin (copyWithin fuel x) h₁ := by
      intro x hx h₁ hs₁ ha₁
      have hlt := hs.part_lt r x hx
      rw [← ha₁.cell x hlt]
      exact ih hs₁ (ha₁.shallow hs hlt (hr x hx))
    have hparts : h.parts r = h.contents (h.cell r) := rfl
    unfold copyWithin
    refine ends_bind.2 (ends_read.2 ?_)
    split
    · rename_i element b hc
      rw [hc] at hparts ⊢
      have hslots : Makes id (fun c => c.IsSlot ∨ c.IsCompound)
          ((h.block b).toList.mapM (copyWithin fuel)) h :=
        makes_mapM_id hs fun x hx h₁ hs₁ ha₁ => (hpart x (hparts ▸ hx) h₁ hs₁ ha₁).mono
          fun c hc => (hs.entry b x (Array.mem_toList_iff.1 hx)).imp hc.1.2 hc.2.2
      refine ends_bind.2 (ends_read.2 (hslots.bind fun slots h₁ hm => ?_))
      exact ends_arrayOfSlots hm fun b => .refl (.array element b)
    · rename_i ty content hc
      rw [hc] at hparts ⊢
      have hcontent := hpart content (by rw [hparts]; exact List.mem_singleton_self content) h hs (.refl h)
      refine (hcontent.mono fun c hc' => ?_).bind fun x h₁ hm => ends_alloc_slot hm ⟨Iff.rfl, Iff.rfl⟩
      exact fun hslot => hs.nested r ty content hc (hc'.1.1 hslot)
    · rename_i ty fields hc
      rw [hc] at hparts ⊢
      have hfields : Makes (List.map Prod.snd) (fun _ => True)
          (fields.mapM fun f => return (f.1, ← copyWithin fuel f.2)) h := by
        refine makes_mapM Prod.snd hs fun f hf h₁ hs₁ ha₁ => ?_
        have hx : f.2 ∈ h.parts r := by rw [hparts]; exact List.mem_map_of_mem hf
        refine (hpart f.2 hx h₁ hs₁ ha₁).bind fun x h₂ hm => ?_
        exact ⟨hm.sound, hm.adjoins, hm.fresh, fun _ _ => trivial⟩
      exact hfields.bind fun copies h₁ hm => ends_alloc_compound hm ⟨Iff.rfl, Iff.rfl⟩
    · rename_i harray hslot hcompound
      refine makes_alloc hs ?_ (.refl _)
      cases hc : h.cell r with
      | primitive p => exact hs.number r p hc
      | pointer p => trivial
      | slot ty content =>
        cases content with
        | none => trivial
        | some x => exact hslot ty x hc
      | array element b => exact harray element b hc
      | compound ty fields => exact hcompound ty fields hc

theorem makes_copy (hs : h.Sound) (r : Ref) : MakesOne (h.cell r).Akin (copy r) h :=
  ends_bind.2 (ends_read.2 (makes_copyWithin hs (hs.shallow r)))

/-- The copy that a parameter gets is a slot only if the value is absent. -/
theorem makes_copyForBinding (hs : h.Sound) (r : Ref) :
    MakesOne (fun c => c.IsSlot → (h.cell (h.flatten r)).IsSlot) (copyForBinding r) h := by
  refine ends_bind.2 (ends_read.2 (ends_bind.2 (ends_read.2 ?_)))
  split
  · exact makes_alloc hs trivial nofun
  · exact (makes_copy hs _).mono fun c hc => hc.1.1

/-! ## Casts -/

theorem makes_nullPointer (hs : h.Sound) (target : Ty) :
    MakesOne (¬ ·.IsSlot) (nullPointer target) h := by
  have hempty : (h.allocBlock #[]).2.Sound :=
    hs.allocBlock fun x hx => absurd hx (Array.not_mem_empty x)
  refine ends_bind.2 (ends_allocBlock.2 ?_)
  exact ends_alloc_simple (c := .pointer _) hempty (.allocBlock (.refl h) hs _) trivial id

/-- What a cast makes is no slot, and a number in range if it is one. -/
theorem Heap.simple_casted {c c' : Cell} {target : Ty} (hc : h.casted c target = .ok (.cell c')) :
    c'.Simple ∧ ¬ c'.IsSlot := by
  have hof (k : Kind) (u : Bool) (p : Payload) :
      (Cell.primitive (.of k u p)).Simple ∧ ¬ (Cell.primitive (.of k u p)).IsSlot :=
    ⟨Primitive.inRange_of k u p, id⟩
  unfold Heap.casted at hc
  dsimp only at hc
  split at hc
  · cases hc
  · cases hc; exact hof ..
  · split at hc <;> cases hc
  · cases hc; exact ⟨trivial, id⟩
  · split at hc
    · cases hc; exact hof ..
    · cases hc
  · cases hc; exact ⟨trivial, id⟩
  · cases hc; exact hof ..
  · cases hc
  · cases hc

theorem makes_castTo (hs : h.Sound) (r : Ref) (target : Ty) :
    MakesOne (¬ ·.IsSlot) (castTo r target) h := by
  refine ends_bind.2 (ends_read.2 (ends_bind.2 (ends_answer.2 ?_)))
  cases hc : h.casted (h.cell (h.flatten r)) target with
  | error c => exact ⟨hs, .refl h⟩
  | ok x =>
    cases x with
    | cell c =>
      obtain ⟨hsimple, hslot⟩ := Heap.simple_casted hc
      exact makes_alloc hs hsimple hslot
    | null t => exact makes_nullPointer hs t

/-! ## Zero values -/

theorem ends_demandValue {ty : Ty} {o : Option Ref} {K : Cell → Prop}
    (hm : h.Made Option.toList K o h₁) :
    Ends (demandValue ty o) h₁ (h.Made (fun r => [r]) K) fun _ h' => h'.Sound ∧ h.Adjoins h' := by
  cases o with
  | some r => exact ⟨hm.sound, hm.adjoins, hm.fresh, hm.kind⟩
  | none => exact ⟨hm.sound, hm.adjoins⟩

/-- How compounds are made: each is new, and no slot. -/
abbrev MakesCompounds (compound : Form → String → Mem Ref) : Prop :=
  ∀ form name (h : Heap), h.Sound → MakesOne (¬ ·.IsSlot) (compound form name) h

theorem makes_some {x : Mem Ref} {K : Cell → Prop} (hx : MakesOne K x h) :
    Makes Option.toList K (some <$> x) h :=
  (ends_map some).2 (Ends.mono hx (fun _ _ hm => ⟨hm.sound, hm.adjoins, hm.fresh, hm.kind⟩)
    fun _ _ h => h)

theorem makes_zeroWith {compound : Form → String → Mem Ref} (hc : MakesCompounds compound) (ty : Ty)
    (hs : h.Sound) : Makes Option.toList (¬ ·.IsSlot) (zeroWith compound ty) h := by
  fun_induction zeroWith compound ty generalizing h with
  | case1 => exact ⟨hs, .refl h, .nil h h, by simp⟩
  | case2 k u => exact makes_some (makes_alloc hs (Primitive.inRange_of ..) id)
  | case3 target => exact makes_some (makes_nullPointer hs target)
  | case4 element n ih =>
    have hvalues : Makes id (¬ ·.IsSlot) (replicateM n do
        demandValue element (← zeroWith compound element)) h :=
      makes_replicateM (fun h₁ hs₁ => (ih hs₁).bind fun o h₂ hm => ends_demandValue hm) hs n
    refine hvalues.bind fun values h₁ hm => (ends_map some).2 ?_
    have harray : Ends (arrayOf element values) h₁ (h.Made (fun r => [r]) (¬ ·.IsSlot))
        fun _ h' => h'.Sound ∧ h.Adjoins h' := ends_arrayOf hm fun _ => id
    exact harray.mono (fun _ _ hm => ⟨hm.sound, hm.adjoins, hm.fresh, hm.kind⟩) fun _ _ h => h
  | case5 => exact ⟨hs, .refl h⟩
  | case6 form name => exact makes_some (hc form name h hs)
  | case7 inner ih => exact ih hs

theorem makes_zeroCompound (program : Program) (fuel : Nat) :
    MakesCompounds (zeroCompound program fuel) := by
  induction fuel with
  | zero => exact fun form name h hs => ⟨hs, .refl h⟩
  | succ fuel ih =>
    intro form name h hs
    have hfields : Makes (List.map Prod.snd) (¬ ·.IsSlot) ((program.allFields name).mapM fun f => do
        return (f.name, ← demandValue f.ty (← zeroWith (zeroCompound program fuel) f.ty))) h := by
      refine makes_mapM Prod.snd hs fun f _ h₁ hs₁ _ => ?_
      refine (makes_zeroWith ih f.ty hs₁).bind fun o h₂ hm => ends_bind.2 ?_
      exact (ends_demandValue hm).mono
        (fun _ _ hm => ⟨hm.sound, hm.adjoins, hm.fresh, hm.kind⟩) fun _ _ h => h
    unfold zeroCompound
    split
    · exact ⟨hs, .refl h⟩
    · exact hfields.bind fun fields h₁ hm => ends_alloc_compound hm id

theorem makes_createValue (program : Program) (ty : Ty) (hs : h.Sound) :
    MakesOne (¬ ·.IsSlot) (createValue program ty) h :=
  (makes_zeroWith (makes_zeroCompound program _) ty hs).bind fun _ _ hm => ends_demandValue hm

theorem makes_createArray (program : Program) (element : Ty) (sizes : List Nat) (hs : h.Sound) :
    MakesOne (¬ ·.IsSlot) (createArray program element sizes) h := by
  fun_induction createArray program element sizes generalizing h with
  | case1 element => exact makes_createValue program element hs
  | case2 element size element' _ _ next _ ih =>
    exact (makes_replicateM (fun _ hs₁ => ih hs₁) hs size).bind fun _ _ hm => ends_arrayOf hm fun _ => id
  | case3 element size =>
    exact (makes_replicateM (fun _ hs₁ => makes_createValue program element hs₁) hs size).bind
      fun _ _ hm => ends_arrayOf hm fun _ => id

/-- A character in a slot of its own. -/
theorem makes_charSlot (hs : h.Sound) (c : UInt8) :
    MakesOne (fun c => c.IsSlot ∨ c.IsCompound)
      (do slotFor (← alloc (.primitive (.char c)))) h := by
  have hc : (Primitive.char c).InRange := Primitive.inRange_of ..
  have hchar : MakesOne (¬ ·.IsSlot) (alloc (.primitive (.char c))) h := makes_alloc hs hc id
  refine hchar.bind fun r h₁ hm => ?_
  refine (ends_slotFor [] hm.sound hm.adjoins hm.fresh (hm.kind r (by simp))).mono ?_ fun _ _ h => h
  rintro s h₂ ⟨hs₂, ha₂, hf₂, hk₂, -⟩
  exact ⟨hs₂, ha₂, hf₂, fun x hx => List.mem_singleton.1 hx ▸ hk₂⟩

theorem makes_createString (hs : h.Sound) (text : String) :
    MakesOne (¬ ·.IsSlot) (createString text) h := by
  have hchars : Makes id (fun c => c.IsSlot ∨ c.IsCompound)
      (text.toUTF8.toList.mapM fun c => do slotFor (← alloc (.primitive (.char c)))) h :=
    makes_mapM_id hs fun c _ h₁ hs₁ _ => makes_charSlot hs₁ c
  refine hchars.bind fun chars h₁ hm => ends_bind.2 (ends_alloc.2 ?_)
  have hterminator : (Cell.slot Ty.char none).Simple := trivial
  have hs₂ := hm.sound.alloc (hterminator.admits h₁)
  have ha₂ : h.Adjoins (h₁.alloc (.slot .char none)).2 := hm.adjoins.alloc nofun
  refine ends_bind.2 (ends_allocBlock.2 ?_)
  refine ends_alloc_simple (c := .pointer _) (hs₂.allocBlock fun x hx => ?_) (ha₂.allocBlock hs₂ _)
    trivial id
  rcases List.mem_append.1 (List.mem_toArray.1 hx) with hx | hx
  · rw [Heap.cell_alloc_of_lt _ (hm.fresh.lt x hx)]
    exact hm.kind x hx
  · rw [List.mem_singleton.1 hx]
    exact .inl ((h₁.cell_alloc_new (.slot .char none)).symm ▸ trivial)

end Treewalk
