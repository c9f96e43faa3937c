/-
  What keeps its shape.

  * `Heap.Retains.cellTy_eq`: in a retained heap values keep their types, arrays
    their lengths among them;
  * `Heap.place_release`: a release puts an empty slot in the place of a bare
    value, and leaves all other places alone;
  * `evaluate_shape`: evaluation leaves the static part of every value and the
    length of every block alone, and what stands in blocks, unless a compound is
    released.
-/
import Treewalk.Proofs.Discipline
import Treewalk.Proofs.Sound

namespace Treewalk

/-! ## Types and places -/

namespace Heap

variable {h h' : Heap} {r r' : Ref}

/-- The type of a value does not change; that of an array includes its length. -/
theorem Retains.cellTy_eq (hh : h.Retains h') (hr : r.id < h.cells.size)
    (hb : ∀ element b, h.cell r = .array element b → b.id < h.blocks.size) :
    h'.cellTy (h'.cell r) = h.cellTy (h.cell r) := by
  have ha := hh.cell r hr
  generalize h.cell r = c at ha hb
  generalize h'.cell r = c' at ha
  cases ha with
  | primitive hk hu => simp only [cellTy, Primitive.ty, hk, hu]
  | array element b => simp only [cellTy, blockSize, hh.size b (hb element b rfl)]
  | pointer ht => simp only [cellTy, ht]
  | slot => rfl
  | compound => rfl

/-- A slot keeps its place; a compound keeps it or leaves it to a slot of its
    type. -/
theorem Retains.place_of_entry (hh : h.Retains h') {b : BlockRef} {i : Nat}
    (hb : b.id < h.blocks.size) (hr : (h.block b)[i]? = some r) (hr' : (h'.block b)[i]? = some r')
    (hentry : (h.cell r).IsSlot ∨ (h.cell r).IsCompound) :
    r' = r ∨ ∃ ty fields content, h.cell r = .compound ty fields ∧ h'.cell r' = .slot ty content := by
  rcases hh.place b i r r' hb hr hr' with heq | hv
  · exact .inl heq
  · obtain ⟨ty, content, hslot, hty⟩ := hv.slot
    rcases hentry with hs | hc
    · exact absurd hs hv.bare
    · cases hcell : h.cell r with
      | compound ty' fields =>
        rw [hty ty' fields hcell] at hslot
        exact .inr ⟨ty', fields, content, rfl, hslot⟩
      | _ => rw [hcell] at hc; exact hc.elim

/-- What a release puts in the place of a bare value is an empty slot of its
    type. -/
theorem place_release (p : Pointer) {b : BlockRef} {i : Nat} (hr : (h.block b)[i]? = some r)
    (hr' : ((leaves (release p) h).block b)[i]? = some r') :
    r' = r ∨ ¬ (h.cell r).IsSlot ∧ (leaves (release p) h).cell r' = .slot (h.tyOf r) none := by
  have hsame {h₁ : Heap} (hblock : h₁.block b = h.block b) (hr₁ : (h₁.block b)[i]? = some r') :
      r' = r ∨ ¬ (h.cell r).IsSlot ∧ h₁.cell r' = .slot (h.tyOf r) none := by
    rw [hblock, hr] at hr₁
    exact .inl (Option.some.inj hr₁).symm
  suffices hends : Ends (release p) h
      (fun _ h₁ => (h₁.block b)[i]? = some r' →
        r' = r ∨ ¬ (h.cell r).IsSlot ∧ h₁.cell r' = .slot (h.tyOf r) none)
      fun _ h₁ => (h₁.block b)[i]? = some r' →
        r' = r ∨ ¬ (h.cell r).IsSlot ∧ h₁.cell r' = .slot (h.tyOf r) none from hends.leaves hr'
  refine ends_bind.2 (Mem.ends_read.2 ?_)
  split
  · exact hsame rfl
  refine ends_bind.2 (Mem.ends_read.2 (ends_bind.2 (Mem.ends_answer.2 ?_)))
  cases hslot : h.slotOf p with
  | error c => exact hsame rfl
  | ok x =>
    refine ends_bind.2 (Mem.ends_read.2 ?_)
    split
    · refine Mem.ends_change.2 ?_
      split
      · exact hsame rfl
      · exact hsame rfl
    · rename_i hbare
      rw [ends_bind, Mem.ends_read, absent, ends_bind, Mem.ends_alloc, Mem.ends_change]
      intro hr₁
      rw [block_setSlot, block_alloc] at hr₁
      split at hr₁
      · rename_i hb
        subst hb
        rw [Array.getElem?_setIfInBounds] at hr₁
        split at hr₁
        · -- the place that the pointer refers to
          rename_i hi
          subst hi
          have hx : x = r := Option.some.inj ((getElem?_of_slotOf hslot).symm.trans hr)
          subst hx
          split at hr₁
          · refine .inr ⟨Cell.not_isSlot_of fun ty content => hbare ty content, ?_⟩
            rw [← Option.some.inj hr₁, cell_setSlot]
            exact h.cell_alloc_new _
          · cases hr₁
        · exact .inl (Option.some.inj (hr₁.symm.trans hr))
      · exact .inl (Option.some.inj (hr₁.symm.trans hr))

end Heap

/-! ## Shape -/

namespace Eval

/-- However the evaluation of a node ends, every value that was there has kept its
    variant, its static part and its type, every block its length, and every
    place of a block its value, but for compounds that have left their place to a
    slot of their type. Only `free` does that: without a call of it all blocks
    are as they were, and what it puts in the place is an empty slot. -/
theorem evaluate_shape (e : Engine) (fuel : Nat) (node : Node) (m : Machine) :
    m.heap.Retains (leaves (evaluate e fuel node) m).heap ∧
    (∀ r, r.id < m.heap.cells.size →
      (∀ element b, m.heap.cell r = .array element b → b.id < m.heap.blocks.size) →
      (leaves (evaluate e fuel node) m).heap.cellTy ((leaves (evaluate e fuel node) m).heap.cell r) =
        m.heap.cellTy (m.heap.cell r)) ∧
    (∀ b (i : Nat) r r', b.id < m.heap.blocks.size → (m.heap.block b)[i]? = some r →
      ((leaves (evaluate e fuel node) m).heap.block b)[i]? = some r' →
      (m.heap.cell r).IsSlot ∨ (m.heap.cell r).IsCompound →
      r' = r ∨ ∃ ty fields content, m.heap.cell r = .compound ty fields ∧
        (leaves (evaluate e fuel node) m).heap.cell r' = .slot ty content) ∧
    (e.program.ReleaseFree → node.ReleaseFree →
      m.heap.SameBlocks (leaves (evaluate e fuel node) m).heap) ∧
    ∀ (h : Heap) p b (i : Nat) r r', (h.block b)[i]? = some r →
      ((leaves (release p) h).block b)[i]? = some r' →
      r' = r ∨ ¬ (h.cell r).IsSlot ∧ (leaves (release p) h).cell r' = .slot (h.tyOf r) none := by
  have hretains : m.heap.Retains (leaves (evaluate e fuel node) m).heap :=
    ((orderly_evaluate e fuel node).leaves m).heap
  refine ⟨hretains, fun r hr hb => hretains.cellTy_eq hr hb, ?_, fun hp hn => ?_, ?_⟩
  · intro b i r r' hb hr hr' hentry
    exact hretains.place_of_entry hb hr hr' hentry
  · have hfits : e.program.Fits Heap.SameBlocks := fun r hr => .inr (hp r hr)
    exact ((orderly_evaluate_of hfits fuel (.inr hn)).leaves m).heap
  · intro h p b i r r' hr hr'
    exact Heap.place_release p hr hr'

/-- A machine with a compound that stands in a block, and a pointer to it. -/
def pointedMachine : Machine where
  heap :=
    { cells := #[.compound (.compound .struct "point") [], .pointer ⟨.compound .struct "point", ⟨0⟩, 0⟩]
      blocks := #[#[⟨0⟩]] }
  state := { frame := .ofList [("p", ⟨1⟩)] }

/-- A release of what the pointer refers to. -/
def releaseCall : Node :=
  .mk (.call { image := "free" } [.mk (.id "p") (.pointer (.compound .struct "point")) none]) .void none

/-- The compound leaves its place to a slot; a call of a function that releases
    nothing leaves it there. -/
theorem releaseCall_shape :
    (∃ fields content, pointedMachine.heap.cell ⟨0⟩ = .compound (.compound .struct "point") fields ∧
      (leaves (evaluate { program := oneProgram } 3 releaseCall) pointedMachine).heap.cell ⟨2⟩ =
        .slot (.compound .struct "point") content) ∧
    pointedMachine.heap.SameBlocks
      (leaves (evaluate { program := oneProgram } 9 oneCall) pointedMachine).heap := by
  constructor
  · have hr : (pointedMachine.heap.block ⟨0⟩)[0]? = some ⟨0⟩ := by decide +kernel
    have hr' : ((leaves (evaluate { program := oneProgram } 3 releaseCall) pointedMachine).heap.block
        ⟨0⟩)[0]? = some ⟨2⟩ := by decide +kernel
    have hcell : pointedMachine.heap.cell ⟨0⟩ = .compound (.compound .struct "point") [] := by
      decide +kernel
    have hshape := (evaluate_shape { program := oneProgram } 3 releaseCall pointedMachine).2.2.1
      ⟨0⟩ 0 ⟨0⟩ ⟨2⟩ (by decide +kernel) hr hr' (.inr (hcell ▸ trivial))
    rcases hshape with heq | ⟨ty, fields, content, hold, hnew⟩
    · cases heq
    · rw [hcell] at hold
      cases hold
      exact ⟨[], content, hcell, hnew⟩
  · have hbody : oneFunction.body.ReleaseFree := by
      refine .mk nofun fun c hc => ?_
      obtain rfl := List.mem_singleton.1 hc
      refine .mk nofun fun d hd => ?_
      obtain rfl := List.mem_singleton.1 hd
      exact .mk nofun nofun
    have hp : oneProgram.ReleaseFree := by
      intro r hr
      obtain rfl : r = oneFunction := List.mem_singleton.1 hr
      exact ⟨hbody, nofun⟩
    have hn : oneCall.ReleaseFree := by
      refine .mk (fun name args he => ?_) nofun
      cases he
      decide
    exact (evaluate_shape { program := oneProgram } 9 oneCall pointedMachine).2.2.2.1 hp hn

end Eval

end Treewalk
