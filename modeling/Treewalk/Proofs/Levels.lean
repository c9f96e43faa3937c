/-
  The bounds on levels are never reached.

  Looking through slots, copies, assignment and texts follow containment, and
  stop after a number of levels that depends on the size of the heap. In a sound
  heap nothing is nested that deep, so that any larger bound gives the same:

  * `flatten_flatten`, `copyWithin_eq_copy`, `assignWithin_eq_assign`,
    `textWithin_eq_text`.

  For copies and assignment, two bounds are compared while the heap changes: what
  has still to be followed is as deep as it was, since only new cells were added,
  or only parts that have been dealt with were changed.
-/
import Treewalk.Memory.Text
import Treewalk.Proofs.Assigned

namespace Treewalk

open Mem

/-! ## Equal computations -/

section Equal

variable {ε σ α β : Type} {s : σ} {I : σ → Prop}

theorem bind_congr_left {x y : EStateM ε σ α} (f : α → EStateM ε σ β) (hxy : x s = y s) :
    (x >>= f) s = (y >>= f) s := by
  simp only [bind, EStateM.bind, hxy]

theorem bind_congr_ends {x y : EStateM ε σ α} {f g : α → EStateM ε σ β} {P : α → σ → Prop}
    {E : ε → σ → Prop} (hxy : x s = y s) (hx : Ends x s P E)
    (hfg : ∀ a s', P a s' → f a s' = g a s') : (x >>= f) s = (y >>= g) s := by
  rw [bind_congr_left g hxy.symm]
  simp only [bind, EStateM.bind]
  cases hs : x s with
  | ok a s' => exact hfg a s' (hx.of_ok hs)
  | error e s' => rfl

/-- The two agree on the state, and the first leaves it as `I` says. -/
def Agree (f g : EStateM ε σ α) (I : σ → Prop) (s : σ) : Prop :=
  f s = g s ∧ Ends f s (fun _ => I) fun _ => I

theorem mapM_congr_ends {l : List α} {f g : α → EStateM ε σ β}
    (hl : ∀ a ∈ l, ∀ s, I s → Agree (f a) (g a) I s) (hs : I s) : l.mapM f s = l.mapM g s := by
  induction l generalizing s with
  | nil => rfl
  | cons a l ih =>
    obtain ⟨heq, hends⟩ := hl a (by simp) s hs
    rw [List.mapM_cons, List.mapM_cons]
    refine bind_congr_ends heq hends fun b s' hs' => bind_congr_left _ ?_
    exact ih (fun a' ha' => hl a' (by simp [ha'])) hs'

/-- What holds may depend on what is still to be done. -/
theorem forM_congr_ends {l : List α} {f g : α → EStateM ε σ PUnit} (I : List α → σ → Prop)
    (hl : ∀ a rest s, I (a :: rest) s → Agree (f a) (g a) (I rest) s) (hs : I l s) :
    l.forM f s = l.forM g s := by
  induction l generalizing s with
  | nil => rfl
  | cons a l ih =>
    obtain ⟨heq, hends⟩ := hl a l s hs
    exact bind_congr_ends heq hends fun _ s' hs' => ih hs'

end Equal

variable {h : Heap} {r : Ref} {n k k' : Nat}

/-! ## Slots -/

theorem flatten_flatten (hs : h.Sound) (r : Ref) : h.flatten (h.flatten r) = h.flatten r := by
  by_cases habsent : h.isAbsent r
  · unfold Heap.isAbsent at habsent
    split at habsent
    · rename_i hc
      have hr : h.flatten r = r := by unfold Heap.flatten; rw [hc]
      rw [hr, hr]
    · cases habsent
  · have hslot := hs.not_isSlot_flatten habsent
    generalize h.flatten r = x at hslot
    unfold Heap.flatten
    split
    · rename_i hc
      rw [hc] at hslot
      exact absurd trivial hslot
    · rfl

/-! ## Copies -/

theorem copyWithin_congr (hs : h.Sound) (hr : Shallow h.parts n r) (hk : n ≤ k) (hk' : n ≤ k') :
    copyWithin k r h = copyWithin k' r h := by
  induction n generalizing h r k k' with
  | zero => exact hr.elim
  | succ n ih =>
    obtain ⟨k, rfl, hle⟩ := exists_of_succ_le hk
    obtain ⟨k', rfl, hle'⟩ := exists_of_succ_le hk'
    -- a part is as deep after other parts have been copied
    have hpart : ∀ x ∈ h.parts r, ∀ h₁ : Heap, h₁.Sound ∧ h.Adjoins h₁ →
        Agree (copyWithin k x) (copyWithin k' x) (fun h₂ => h₂.Sound ∧ h.Adjoins h₂) h₁ := by
      rintro x hx h₁ ⟨hs₁, ha₁⟩
      have hx₁ : Shallow h₁.parts n x := ha₁.shallow hs (hs.part_lt r x hx) (hr x hx)
      refine ⟨ih hs₁ hx₁ hle hle', Ends.mono (makes_copyWithin hs₁ (hx₁.mono hle)) ?_ ?_⟩
      · exact fun _ h₂ hm => ⟨hm.sound, ha₁.trans hs₁ hm.adjoins⟩
      · exact fun _ h₂ hE => ⟨hE.1, ha₁.trans hs₁ hE.2⟩
    have hparts : h.parts r = h.contents (h.cell r) := rfl
    rw [copyWithin, copyWithin, read_bind, read_bind]
    cases hc : h.cell r with
    | primitive | pointer => rfl
    | array element b =>
      rw [hc] at hparts
      refine bind_congr_left _ (mapM_congr_ends (fun x hx => hpart x (hparts ▸ hx)) ?_)
      exact ⟨hs, .refl h⟩
    | slot ty content =>
      cases content with
      | none => rfl
      | some x =>
        rw [hc] at hparts
        refine bind_congr_left _ (hpart x ?_ h ⟨hs, .refl h⟩).1
        exact hparts ▸ List.mem_singleton_self x
    | compound ty fields =>
      rw [hc] at hparts
      have hfield : ∀ f ∈ fields, ∀ h₁ : Heap, h₁.Sound ∧ h.Adjoins h₁ →
          Agree (do return (f.1, ← copyWithin k f.2)) (do return (f.1, ← copyWithin k' f.2))
            (fun h₂ => h₂.Sound ∧ h.Adjoins h₂) h₁ := by
        intro f hf h₁ hI
        obtain ⟨heq, hends⟩ := hpart f.2 (hparts ▸ List.mem_map_of_mem hf) h₁ hI
        exact ⟨bind_congr_left _ heq, ends_bind.2 hends⟩
      exact bind_congr_left _ (mapM_congr_ends hfield ⟨hs, .refl h⟩)

theorem copyWithin_eq_copy (hs : h.Sound) (hk : h.levels ≤ k) (r : Ref) :
    copyWithin k r h = copy r h :=
  copyWithin_congr hs (hs.shallow r) hk (Nat.le_refl _)

/-! ## Assignment -/

/-- One part is stored into the same way if storing values is. -/
theorem agree_store {t source : Ref} {I : Heap → Prop} (hs : h.Sound)
    (heq : assignWithin k t source h = assignWithin k' t source h)
    (hI : ∀ h', h.Assigned t h' → I h') :
    Agree (do if ← read (·.isAbsent source) then setContent t none else assignWithin k t source)
      (do if ← read (·.isAbsent source) then setContent t none else assignWithin k' t source)
      I h := by
  unfold Agree
  rw [read_bind, read_bind, ends_bind, ends_read]
  split
  · exact ⟨rfl, Ends.mono (assigns_empty hs t) (fun _ => hI) fun _ => hI⟩
  · exact ⟨heq, Ends.mono (assigns_assignWithin k t source hs) (fun _ => hI) fun _ => hI⟩

theorem assignWithin_congr {t source : Ref} (hs : h.Sound) (ht : Shallow h.parts n t) (hk : n ≤ k)
    (hk' : n ≤ k') : assignWithin k t source h = assignWithin k' t source h := by
  induction n generalizing h t source k k' with
  | zero => exact ht.elim
  | succ n ih =>
    obtain ⟨k, rfl, hle⟩ := exists_of_succ_le hk
    obtain ⟨k', rfl, hle'⟩ := exists_of_succ_le hk'
    rw [assignWithin, assignWithin, read_bind, read_bind]
    generalize h.flatten source = source
    dsimp only
    split
    · rfl
    rw [read_bind, read_bind]
    cases hc : h.cell t with
    | slot ty content =>
      cases content with
      | none => rfl
      | some x =>
        refine ih hs (ht x ?_) hle hle'
        unfold Heap.parts
        rw [hc]
        exact List.mem_singleton_self x
    | primitive | pointer | array | compound =>
      dsimp only
      rw [read_bind, read_bind, ← hc]
      cases hu : h.update (h.cell t) (h.cell source) with
      | error c => rfl
      | ok u =>
        cases u with
        | nothing | primitive | place | null => rfl
        | pairs pairs =>
          obtain ⟨hfirst, hslot⟩ := Heap.prefix_of_update hu
          refine forM_congr_ends (fun rest h₁ => h.Pending t (rest.map Prod.fst) h₁) ?_
            (.start hs hfirst)
          rintro ⟨x, y⟩ rest h₁ hp
          have hx : x ∈ ((x, y) :: rest).map Prod.fst := by simp
          have hx₁ : Shallow h₁.parts n x := (ht x (hp.mem x hx)).congr fun _ hb => hp.parts_eq hs hx hb
          refine agree_store hp.sound (ih hp.sound hx₁ hle hle') ?_
          exact fun h₂ ha => hp.step hs hslot ha

theorem assignWithin_eq_assign (hs : h.Sound) (hk : h.levels ≤ k) (t source : Ref) :
    assignWithin k t source h = assign t source h :=
  assignWithin_congr hs (hs.shallow t) hk (by omega)

/-! ## Texts -/

theorem textWithin_congr (hr : Shallow h.parts n r) (hk : n ≤ k) (hk' : n ≤ k') :
    h.textWithin k r = h.textWithin k' r := by
  induction n generalizing r k k' with
  | zero => exact hr.elim
  | succ n ih =>
    obtain ⟨k, rfl, hle⟩ := exists_of_succ_le hk
    obtain ⟨k', rfl, hle'⟩ := exists_of_succ_le hk'
    have hpart : ∀ x ∈ h.parts r, h.textWithin k x = h.textWithin k' x := fun x hx =>
      ih (hr x hx) hle hle'
    unfold Heap.parts at hpart
    rw [Heap.textWithin, Heap.textWithin]
    cases hc : h.cell r with
    | primitive | pointer => rfl
    | array element b =>
      rw [hc] at hpart
      have hshown : ((h.block b).toList.take shownElements).map (h.textWithin k) =
          ((h.block b).toList.take shownElements).map (h.textWithin k') :=
        List.map_congr_left fun x hx => hpart x (List.mem_of_mem_take hx)
      simp only [hshown]
    | slot ty content =>
      cases content with
      | none => rfl
      | some x =>
        rw [hc] at hpart
        exact hpart x (List.mem_singleton_self x)
    | compound ty fields =>
      rw [hc] at hpart
      have hshown : (fields.map fun f => f.1 ++ " = " ++ h.textWithin k f.2) =
          fields.map fun f => f.1 ++ " = " ++ h.textWithin k' f.2 :=
        List.map_congr_left fun f hf => by rw [hpart f.2 (List.mem_map_of_mem hf)]
      simp only [hshown]

theorem textWithin_eq_text (hs : h.Sound) (hk : h.levels ≤ k) (r : Ref) :
    h.textWithin k r = h.text r :=
  textWithin_congr (hs.shallow r) hk (Nat.le_refl _)

end Treewalk
