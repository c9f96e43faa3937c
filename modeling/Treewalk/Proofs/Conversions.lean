/-
  The ways to convert a value to a number or pointer.

  A value is converted by a cast, by assignment into a new value of the type, when it
  is bound to a parameter, and when it is stored into an empty slot.

  * `update_number`, `update_pointer`: assignment into a number or pointer refuses
    what a cast refuses, and otherwise writes what the cast makes;
  * `Heap.SameScalar R h x h₁ y h₂`: conversions that both started from `h` gave the
    same number, or pointers to the same place, or null pointers, the types of their
    targets being related by `R`;
  * `conversions_agree`: all four end alike, where the last two are used at all.
-/
import Treewalk.Proofs.Numbers
import Treewalk.Proofs.Stored
import Treewalk.Proofs.Zeros

namespace Treewalk

open Mem

variable {p : Program} {h h₁ h₂ : Heap} {r v x y : Ref} {ty : Ty}

/-! ## Casts and updates -/

namespace Heap

/-- A number is written exactly where a cast makes one, and it is that. -/
theorem update_number {m : Primitive} (hty : ty.unqualified = .primitive m.kind m.unsigned)
    (hk : m.kind ≠ .void) (c : Cell) :
    (∃ n, h.casted c ty = .ok (.cell (.primitive n)) ∧
      h.update (.primitive m) c = .ok (.primitive n)) ∨
    h.casted c ty = .error (.invalidCast (h.cellTy c) ty) ∧
      h.update (.primitive m) c = .error (.invalidCast (h.cellTy c) ty.unqualified) := by
  rw [casted_number hty hk, hty]
  cases c with
  | primitive n => exact .inl ⟨_, rfl, rfl⟩
  | slot => exact .inl ⟨_, rfl, rfl⟩
  | pointer q =>
    cases hnull : h.isNull q with
    | true => exact .inl ⟨.zero m.kind m.unsigned, by simp [hnull], by simp [update, hnull]⟩
    | false => exact .inr ⟨by simp [hnull], by simp [update, hnull, cellTy, Primitive.ty]⟩
  | array | compound => exact .inr ⟨rfl, rfl⟩

/-- A pointer is moved exactly where a cast makes one, and to the same place. -/
theorem update_pointer {q : Pointer} (hty : ty.unqualified = .pointer q.target) (c : Cell) :
    (∃ b i, h.casted c ty = .ok (.cell (.pointer ⟨q.target, b, i⟩)) ∧
      h.update (.pointer q) c = .ok (.place b i)) ∨
    (h.casted c ty = .ok (.null q.target) ∧ h.update (.pointer q) c = .ok .null) ∨
    h.casted c ty = .error (.invalidCast (h.cellTy c) ty) ∧
      h.update (.pointer q) c = .error (.invalidCast (h.cellTy c) ty.unqualified) := by
  rw [casted_pointer hty, hty]
  cases c with
  | primitive n =>
    cases hnull : n.isNullConstant with
    | true => exact .inr (.inl ⟨by simp [hnull], by simp [update, hnull]⟩)
    | false => exact .inr (.inr ⟨by simp [hnull], by simp [update, hnull, cellTy]⟩)
  | pointer q' => exact .inl ⟨q'.block, q'.offset, rfl, rfl⟩
  | array element b => exact .inl ⟨b, 0, rfl, rfl⟩
  | slot => exact .inr (.inl ⟨rfl, rfl⟩)
  | compound => exact .inr (.inr ⟨rfl, rfl⟩)

theorem isNull_alloc (hs : h.Sound) (c : Cell) (q : Pointer) : (h.alloc c).2.isNull q = h.isNull q := by
  have hslots : ∀ x, slotAt? (h.block q.block) q.offset = some x →
      (h.alloc c).2.isAbsent x = h.isAbsent x := by
    intro x hx
    unfold slotAt? at hx
    split at hx
    · cases hx
    · unfold isAbsent
      rw [cell_alloc_of_lt c (hs.entry_lt (Array.mem_of_getElem? hx))]
  have hblock : (h.alloc c).2.block q.block = h.block q.block := rfl
  have hstorage : (h.alloc c).2.hasNoStorage q = h.hasNoStorage q := rfl
  unfold isNull
  rw [hblock, hstorage]
  cases hslot : slotAt? (h.block q.block) q.offset with
  | none => rfl
  | some x =>
    dsimp only
    rw [hslots x hslot]

/-- What a cast to a number makes of a value does not depend on values made since. -/
theorem Sound.casted_alloc (hs : h.Sound) {k : Kind} {u : Bool} (hty : ty.unqualified = .primitive k u)
    (hk : k ≠ .void) (c' c : Cell) : (h.alloc c').2.casted c ty = h.casted c ty := by
  rw [casted_number hty hk, casted_number hty hk]
  cases c with
  | pointer q =>
    dsimp only
    rw [isNull_alloc hs]
    rfl
  | primitive | array | slot | compound => rfl

/-- What a cast to a pointer makes of a value does not depend on the heap. -/
theorem casted_pointer_congr {target : Ty} (hty : ty.unqualified = .pointer target) (c : Cell) :
    h₁.casted c ty = h.casted c ty := by
  rw [casted_pointer hty, casted_pointer hty]
  cases c <;> rfl

/-! ## Equal results -/

/-- A null pointer that was made since. -/
structure NewNull (h : Heap) (q : Pointer) (h' : Heap) : Prop where
  new : h.blocks.size ≤ q.block.id
  empty : h'.block q.block = #[]
  first : q.offset = 0

/-- From `h` two conversions gave the same number, or pointers to the same place, or
    null pointers; the types that these point at are related by `R`. -/
inductive SameScalar (R : Ty → Ty → Prop) (h : Heap) (x : Ref) (h₁ : Heap) (y : Ref) (h₂ : Heap) : Prop
  | number {n : Primitive} : h₁.cell x = .primitive n → h₂.cell y = .primitive n → SameScalar R h x h₁ y h₂
  | place {q q' : Pointer} : h₁.cell x = .pointer q → h₂.cell y = .pointer q' → R q.target q'.target →
      q.block = q'.block → q.offset = q'.offset → SameScalar R h x h₁ y h₂
  | null {q q' : Pointer} : h₁.cell x = .pointer q → h₂.cell y = .pointer q' → R q.target q'.target →
      h.NewNull q h₁ → h.NewNull q' h₂ → SameScalar R h x h₁ y h₂

/-- A cast to a scalar type makes a number or pointer, or is refused. -/
theorem casted_scalar (hty : ty.IsScalar) (c : Cell) :
    (∃ k, h.casted c ty = .ok k ∧
      ((∃ n, k = .cell (.primitive n)) ∨ (∃ q, k = .cell (.pointer q)) ∨ ∃ target, k = .null target)) ∨
    h.casted c ty = .error (.invalidCast (h.cellTy c) ty) := by
  rcases Ty.isScalar_iff.1 hty with ⟨kind, u, hu, hvoid⟩ | ⟨target, hu⟩
  · rcases h.update_number (m := .zero kind u) hu hvoid c with ⟨n, hn, -⟩ | ⟨he, -⟩
    · exact .inl ⟨_, hn, .inl ⟨n, rfl⟩⟩
    · exact .inr he
  · rcases h.update_pointer (q := ⟨target, default, 0⟩) hu c with ⟨b, i, hq, -⟩ | ⟨hn, -⟩ | ⟨he, -⟩
    · exact .inl ⟨_, hq, .inr (.inl ⟨_, rfl⟩)⟩
    · exact .inl ⟨_, hn, .inr (.inr ⟨target, rfl⟩)⟩
    · exact .inr he

theorem casted_error (hty : ty.IsScalar) {c : Cell} {e : Cause} (he : h.casted c ty = .error e) :
    e = .invalidCast (h.cellTy c) ty := by
  rcases casted_scalar (h := h) hty c with ⟨k, hk, -⟩ | he'
  · cases he.symm.trans hk
  · exact Except.error.inj (he.symm.trans he')

/-- Two values that are what one cast makes are the same. -/
theorem SameScalar.of_holds {c : Cell} {k : Casted} (hty : ty.IsScalar) (hk : h.casted c ty = .ok k)
    (hx : h.Holds x h₁ k) (hy : h.Holds y h₂ k) : h.SameScalar Eq x h₁ y h₂ := by
  obtain ⟨k', hk', hcases⟩ := (casted_scalar hty c).resolve_right fun he => by cases he.symm.trans hk
  obtain rfl : k = k' := Except.ok.inj (hk.symm.trans hk')
  rcases hcases with ⟨n, rfl⟩ | ⟨q, rfl⟩ | ⟨target, rfl⟩
  · exact .number hx hy
  · exact .place hx hy rfl rfl rfl
  · obtain ⟨b, hb, hempty, hx⟩ := hx
    obtain ⟨b', hb', hempty', hy⟩ := hy
    exact .null hx hy rfl ⟨hb, hempty, rfl⟩ ⟨hb', hempty', rfl⟩

theorem SameScalar.mono {R R' : Ty → Ty → Prop} (hsame : h.SameScalar R x h₁ y h₂)
    (hR : ∀ a b, R a b → R' a b) : h.SameScalar R' x h₁ y h₂ := by
  cases hsame with
  | number hx hy => exact .number hx hy
  | place hx hy ht hb hi => exact .place hx hy (hR _ _ ht) hb hi
  | null hx hy ht hn hn' => exact .null hx hy (hR _ _ ht) hn hn'

end Heap

/-- A cast and another conversion end alike: both give a result, and the two are
    related; or both refuse the value, the other one keeping what `kept` says. -/
inductive EndsAlike {β : Type} (same : Ref → Heap → β → Heap → Prop) (kept : Heap → Prop) :
    EStateM.Result Halt Heap Ref → EStateM.Result Halt Heap β → Prop
  | ok {x : Ref} {b : β} {h₁ h₂ : Heap} : same x h₁ b h₂ → EndsAlike same kept (.ok x h₁) (.ok b h₂)
  | refused {s t s' t' : Ty} {h₁ h₂ : Heap} : kept h₂ →
      EndsAlike same kept (.error (.of (.invalidCast s t)) h₁) (.error (.of (.invalidCast s' t')) h₂)

/-- The computation gives a result where a cast of `v` on `h` does, and `made` says
    what it is; where the cast is refused, so is the computation, which then keeps
    what `kept` says. -/
def EndsAsCast {β : Type} (h : Heap) (v : Ref) (ty : Ty) (made : Casted → β → Heap → Prop)
    (kept : Heap → Prop) (x : Mem β) (h₁ : Heap) : Prop :=
  Ends x h₁
    (fun b h₂ => ∃ k, h.casted (h.cell (h.flatten v)) ty = .ok k ∧ made k b h₂)
    fun e h₂ => kept h₂ ∧ (∃ s t, e = .of (.invalidCast s t)) ∧
      ∃ e', h.casted (h.cell (h.flatten v)) ty = .error e'

/-- Such a computation ends like the cast. -/
theorem EndsAsCast.alike {β : Type} {same : Ref → Heap → β → Heap → Prop} {kept : Heap → Prop}
    {made : Casted → β → Heap → Prop} {other : Mem β}
    (hother : EndsAsCast h v ty made kept other h₁) (hg : h.Grounded) (hty : ty.IsScalar)
    (hsame : ∀ k x h' b h₂, h.casted (h.cell (h.flatten v)) ty = .ok k → h.Holds x h' k →
      made k b h₂ → same x h' b h₂) :
    EndsAlike same kept (castTo v ty h) (other h₁) := by
  have hcast := ends_castTo hg v ty
  cases hx : castTo v ty h with
  | ok x h' =>
    obtain ⟨-, k, hk, hx⟩ := hcast.of_ok hx
    cases hy : other h₁ with
    | ok b h₂ =>
      obtain ⟨k', hk', hmade⟩ := Ends.of_ok hother hy
      obtain rfl : k = k' := Except.ok.inj (hk.symm.trans hk')
      exact .ok (hsame k x h' b h₂ hk hx hmade)
    | error e h₂ =>
      obtain ⟨-, -, e', he⟩ := Ends.of_error hother hy
      cases he.symm.trans hk
  | error halt h' =>
    obtain ⟨-, c, rfl, hc⟩ := hcast.of_error hx
    obtain rfl := Heap.casted_error hty hc
    cases hy : other h₁ with
    | ok b h₂ =>
      obtain ⟨k', hk', -⟩ := Ends.of_ok hother hy
      cases hc.symm.trans hk'
    | error e h₂ =>
      obtain ⟨hkept, ⟨s, t, rfl⟩, -⟩ := Ends.of_error hother hy
      exact .refused hkept

/-! ## Assignment into a new value -/

theorem createValue_pointer (program : Program) {target : Ty} (hty : ty.unqualified = .pointer target) :
    createValue program ty = nullPointer target := by
  unfold createValue
  rw [zeroValue?_unqualified, hty]
  rfl

theorem ends_assign_bare {P : Unit → Heap → Prop} {E : Halt → Heap → Prop} (hr : ¬ h.isSlot r)
    (hne : r ≠ h.flatten v) : Ends (assign r v) h P E ↔
      Ends (answer (h.update (h.cell r) (h.cell (h.flatten v))) >>=
        Update.carryOut (2 * h.cells.size + 1) r) h P E :=
  ends_congr (assignWithin_bare hr hne)

/-- What a new value is converted from is as it was. -/
theorem Heap.Minted.flatten_eq (hm : h.Minted r h₁) (hg : h.Grounded) (hv : v.id < h.cells.size) :
    h₁.flatten v = h.flatten v ∧ h₁.cell (h.flatten v) = h.cell (h.flatten v) ∧ r ≠ h.flatten v := by
  have hi := hm.toRewrites.adds.intact hg hv
  refine ⟨hi.flatten_eq, hi.cell _ (h.reaches_flatten v), fun he => ?_⟩
  have hlt := hg.lt_of_reaches hv (h.reaches_flatten v)
  exact absurd hm.new (Nat.not_le_of_lt (he ▸ hlt))

section New

variable (hg : h.Grounded) (hv : v.id < h.cells.size) (hm : h.Minted r h₁)
  (hcasted : ∀ c, h₁.casted c ty = h.casted c ty)
include hg hv hm hcasted

/-- Assignment into a new number ends as the cast does. -/
theorem ends_assign_newNumber {m : Primitive} (hr : h₁.cell r = .primitive m)
    (hty : ty.unqualified = .primitive m.kind m.unsigned) (hk : m.kind ≠ .void) :
    EndsAsCast h v ty (fun k _ h₂ => h.Holds r h₂ k) (· = h₁) (assign r v) h₁ := by
  unfold EndsAsCast
  obtain ⟨hflat, hcell, hne⟩ := hm.flatten_eq hg hv
  have hbare : ¬ h₁.isSlot r := by simp [Heap.isSlot, hr, Cell.IsSlot]
  rw [ends_assign_bare hbare (hflat ▸ hne), hflat, hcell, hr, ← hcasted]
  refine ends_bind.2 (ends_answer.2 ?_)
  rcases h₁.update_number hty hk (h.cell (h.flatten v)) with ⟨n, hk, hu⟩ | ⟨he, hu⟩
  · rw [hu]
    refine ends_change.2 ⟨_, hk, ?_⟩
    exact (Heap.cell_setCell ..).trans (if_pos ⟨rfl, hm.lt⟩)
  · rw [hu]
    exact ⟨rfl, ⟨_, _, rfl⟩, _, he⟩

/-- Assignment into a new pointer ends as the cast does. -/
theorem ends_assign_newPointer {q : Pointer} (hr : h₁.cell r = .pointer q)
    (hty : ty.unqualified = .pointer q.target) :
    EndsAsCast h v ty (fun k _ h₂ => h.Holds r h₂ k) (· = h₁) (assign r v) h₁ := by
  unfold EndsAsCast
  obtain ⟨hflat, hcell, hne⟩ := hm.flatten_eq hg hv
  have hbare : ¬ h₁.isSlot r := by simp [Heap.isSlot, hr, Cell.IsSlot]
  have hplace : ∀ h₂ b i, h₂.cell r = .pointer q → r.id < h₂.cells.size →
      Ends (setPlace r b i) h₂ (fun _ h₃ => h₃.cell r = .pointer ⟨q.target, b, i⟩ ∧
        h₃.blocks = h₂.blocks) fun _ _ => False := by
    intro h₂ b i hr hlt
    refine ends_change.2 ?_
    rw [hr]
    exact ⟨(Heap.cell_setCell ..).trans (if_pos ⟨rfl, hlt⟩), rfl⟩
  rw [ends_assign_bare hbare (hflat ▸ hne), hflat, hcell, hr, ← hcasted]
  refine ends_bind.2 (ends_answer.2 ?_)
  rcases h₁.update_pointer hty (h.cell (h.flatten v)) with ⟨b, i, hk, hu⟩ | ⟨hk, hu⟩ | ⟨he, hu⟩
  · rw [hu]
    refine (hplace h₁ b i hr hm.lt).mono (fun _ h₂ hr₂ => ?_) fun _ _ => False.elim
    exact ⟨_, hk, hr₂.1⟩
  · rw [hu]
    refine ends_bind.2 (ends_allocBlock.2 ?_)
    refine (hplace (h₁.allocBlock #[]).2 _ 0 hr hm.lt).mono (fun _ h₂ hr₂ => ?_) fun _ _ => False.elim
    refine ⟨_, hk, _, hm.blocks_le, ?_, hr₂.1⟩
    unfold Heap.block
    rw [hr₂.2]
    exact (Heap.block_allocBlock ..).trans (if_pos rfl)
  · rw [hu]
    exact ⟨rfl, ⟨_, _, rfl⟩, _, he⟩

end New

theorem ends_assign_zero (p : Program) (hs : h.Sound) (hv : v.id < h.cells.size) (hty : ty.IsScalar) :
    ∃ r h₁, createValue p ty h = .ok r h₁ ∧
      EndsAsCast h v ty (fun k _ h₂ => h.Holds r h₂ k) (· = h₁) (assign r v) h₁ := by
  rcases Ty.isScalar_iff.1 hty with ⟨k, u, hu, hk⟩ | ⟨target, hu⟩
  · have hmade : createValue p ty h = .ok ⟨h.cells.size⟩ (h.alloc (.primitive (.zero k u))).2 := by
      rw [createValue_eq p (u := u) (by simp [Ty.primitive?, hu]) hk]
      rfl
    have hminted := (Ends.of_ok (ends_createValue p ty hs.grounded) hmade).1
    refine ⟨_, _, hmade, ends_assign_newNumber (m := .zero k u) hs.grounded hv hminted
      (hs.casted_alloc hu hk _) ?_ hu hk⟩
    exact (Heap.cell_alloc ..).trans (if_pos rfl)
  · have hmade : createValue p ty h = .ok ⟨h.cells.size⟩
        ((h.allocBlock #[]).2.alloc (.pointer ⟨target, ⟨h.blocks.size⟩, 0⟩)).2 := by
      rw [createValue_pointer p hu]
      rfl
    have hminted := (Ends.of_ok (ends_createValue p ty hs.grounded) hmade).1
    refine ⟨_, _, hmade, ends_assign_newPointer (q := ⟨target, ⟨h.blocks.size⟩, 0⟩) hs.grounded hv
      hminted (Heap.casted_pointer_congr hu) ?_ hu⟩
    exact (Heap.cell_alloc ..).trans (if_pos rfl)

/-! ## Values that the type accepts -/

/-- A compound has the type of a compound. -/
def Cell.Named : Cell → Prop
  | .compound ty _ => ∃ form name, ty = .compound form name
  | _ => True

/-- The pointer itself, or the array that starts there. -/
def Cell.Decays (c : Cell) (q : Pointer) : Prop :=
  c = .pointer q ∨ c = .array q.target q.block ∧ q.offset = 0

namespace Heap

variable {c : Cell} {q : Pointer} {target : Ty}

/-- A scalar type accepts numbers and absent values and, where it is a pointer,
    pointers and arrays. -/
theorem accepted_cases (hty : ty.IsScalar) (ha : p.accepts ty (h.cellTy c)) (hc : c.Named) :
    c.IsPlain ∨ ∃ target q, ty.unqualified = .pointer target ∧ c.Decays q := by
  rcases Ty.isScalar_iff.1 hty with ⟨k, u, hu, -⟩ | ⟨target, hu⟩
  · cases c with
    | primitive | slot => exact .inl trivial
    | pointer | array => simp [Program.accepts, hu, cellTy, Ty.unqualified] at ha
    | compound =>
      obtain ⟨form, name, rfl⟩ := hc
      simp [Program.accepts, hu, cellTy, Ty.unqualified] at ha
  · cases c with
    | primitive | slot => exact .inl trivial
    | pointer q => exact .inr ⟨target, q, hu, .inl rfl⟩
    | array element b => exact .inr ⟨target, ⟨element, b, 0⟩, hu, .inr ⟨rfl, rfl⟩⟩
    | compound =>
      obtain ⟨form, name, rfl⟩ := hc
      simp [Program.accepts, hu, cellTy, Ty.unqualified] at ha

theorem casted_decays (hty : ty.unqualified = .pointer target) (hc : c.Decays q) :
    h.casted c ty = .ok (.cell (.pointer (q.retargeted target))) := by
  rw [casted_pointer hty]
  rcases hc with rfl | ⟨rfl, hzero⟩
  · rfl
  · simp [Pointer.retargeted, hzero]

theorem Grounded.boundTree_eq (hg : h.Grounded) (hv : (h.cell (h.flatten v)).Decays q) :
    h.boundTree v = .pointer q := by
  unfold boundTree
  rcases hv with hv | ⟨hv, hzero⟩
  · rw [hv]
    exact hg.tree_of_cell hv
  · rw [hv, ← hzero]

section Accepted

variable (hs : h.Sound) (hty : ty.IsScalar) (ha : p.accepts ty (h.tyOf v))
  (hv : (h.cell (h.flatten v)).Named)
include hs hty ha hv

/-- The copy for binding is cast as the value itself. -/
theorem Copied.casted_eq (hm : h.Copied (h.boundTree v) x h₁) :
    h₁.casted (h₁.cell (h₁.flatten x)) ty = h.casted (h.cell (h.flatten v)) ty := by
  rcases accepted_cases hty ha hv with hplain | ⟨target, q, hu, hq⟩
  · obtain ⟨hcell, hflat⟩ := hm.cell_eq hs (.inl hplain)
    rw [hflat, hcell]
    exact casted_congr hplain hty
  · have hx := hm.grounded.cell_of_pointer (hm.tree_eq.trans (hs.grounded.boundTree_eq hq))
    have hflat : h₁.flatten x = x := by simp [flatten, hx]
    rw [hflat, hx, casted_decays hu (.inl rfl), casted_decays hu hq]

/-- Conforming to the type makes the same of the value, for all but the target of a
    pointer. -/
theorem Conformed.same (hc : h.Conformed v ty y h₂) (hm : h.Minted y h₂) :
    ∃ k, h.casted (h.cell (h.flatten v)) ty = .ok k ∧
      ∀ x h', h.Holds x h' k → h.SameScalar (fun _ _ => True) x h' y h₂ := by
  by_cases hconv : h.Converts v ty
  · obtain ⟨k, hk, hy⟩ := hc.converted hconv
    exact ⟨k, hk, fun x h' hx => (SameScalar.of_holds hty hk hx hy).mono fun _ _ _ => trivial⟩
  · rcases accepted_cases hty ha hv with hplain | ⟨target, q, hu, hq⟩
    · exact absurd ⟨hty, hplain⟩ hconv
    · have hy := hm.grounded.cell_of_pointer ((hc.kept hconv).trans (hs.grounded.boundTree_eq hq))
      exact ⟨_, casted_decays hu hq, fun x h' hx => .place hx hy trivial rfl rfl⟩

end Accepted

theorem Holds.setCell {k : Casted} {s : Ref} (hx : h₁.Holds x h₂ k)
    (hle : h.blocks.size ≤ h₁.blocks.size) (hne : x ≠ s) : h.Holds x (h₂.setCell s c) k := by
  cases k with
  | cell c' => exact (cell_setCell_of_ne _ _ hne).trans hx
  | null target =>
    obtain ⟨b, hb, hempty, hx⟩ := hx
    exact ⟨b, hle.trans hb, hempty, (cell_setCell_of_ne _ _ hne).trans hx⟩

end Heap

/-- Binding a value that the type accepts. -/
theorem ends_conform_accepted (hs : h.Sound) (hty : ty.IsScalar) (ha : p.accepts ty (h.tyOf v))
    (hv : (h.cell (h.flatten v)).Named) :
    EndsAsCast h v ty
      (fun k y h₂ => ∀ x h', h.Holds x h' k → h.SameScalar (fun _ _ => True) x h' y h₂) h.Adds
      (conform v ty) h := by
  refine (ends_conform hs v ty).mono ?_ ?_
  · rintro y h₂ ⟨hm, hc⟩
    exact hc.same hs hty ha hv hm
  · rintro _ h₂ ⟨hw, -, c, rfl, hc⟩
    exact ⟨hw.adds, ⟨_, _, congrArg Halt.of (Heap.casted_error hty hc)⟩, c, hc⟩

/-- Storing a value into an empty slot fills the slot. -/
theorem assign_vacant {s : Ref} (hs : h.Sound) (hpresent : ¬ h.isAbsent v) (hslot : h.cell s = .slot ty none) :
    assign s v h = fill s ty (h.flatten v) h := by
  have hbare := hs.not_isSlot_flatten hpresent
  have hne : s ≠ h.flatten v := fun he => hbare (he ▸ hslot ▸ trivial : (h.cell (h.flatten v)).IsSlot)
  have hwithin (k : Nat) : assignWithin (k + 1) s v h = fill s ty (h.flatten v) h := by
    rw [assignWithin, read_bind, if_neg hne, read_bind, hslot]
  exact hwithin (2 * h.cells.size + 1)

/-- An empty slot of a scalar type is filled as a cast would do it, if the copy of the
    value is cast like the value. -/
theorem ends_fill_cast {s : Ref} (hs : h.Sound) (hty : ty.IsScalar) (hpresent : ¬ h.isAbsent v)
    (hslot : h.cell s = .slot ty none)
    (hcasted : ∀ x h₁, copyForBinding (h.flatten v) h = .ok x h₁ →
      h₁.casted (h₁.cell (h₁.flatten x)) ty = h.casted (h.cell (h.flatten v)) ty) :
    EndsAsCast h v ty (fun k _ h₂ => ∃ y, h₂.cell s = .slot ty (some y) ∧ h.Holds y h₂ k)
      (·.cell s = h.cell s) (fill s ty (h.flatten v)) h := by
  unfold EndsAsCast
  have hbare := hs.not_isSlot_flatten hpresent
  have hlt : s.id < h.cells.size := Heap.lt_of_isSlot (hslot ▸ trivial)
  obtain ⟨x, h₁, hcopy, hm⟩ := (ends_copyForBinding hs.grounded (h.flatten v)).exists_ok
  have hcasted := hcasted x h₁ hcopy
  rw [ends_congr (fill_scalar hty (Heap.not_isAbsent_of_not_isSlot hbare)), ends_bind, ends_iff_of_ok hcopy]
  refine ends_bind.2 ((ends_castTo hm.grounded x ty).mono ?_ ?_)
  · rintro y h₂ ⟨hm', k, hk, hy⟩
    have hnew := hm.toRewrites.minted hm'
    have hcell : h₂.cell s = .slot ty none := (hnew.cell s hlt id).trans hslot
    have hys : y ≠ s := fun he => absurd hnew.new (Nat.not_le_of_lt (he ▸ hlt))
    refine ends_change.2 ?_
    rw [hcell]
    refine ⟨k, hcasted ▸ hk, y, ?_, hy.setCell hm.blocks_le hys⟩
    exact (Heap.cell_setCell ..).trans (if_pos ⟨rfl, hlt.trans_le hnew.cells_le⟩)
  · rintro _ h₂ ⟨rfl, c, rfl, hc⟩
    exact ⟨hm.cell s hlt id, ⟨_, _, congrArg Halt.of (Heap.casted_error hty hc)⟩, c, hcasted ▸ hc⟩

/-- Storing a value that the type accepts into an empty slot of the type. -/
theorem ends_assign_absent {s : Ref} (hs : h.Sound) (hty : ty.IsScalar)
    (ha : p.accepts ty (h.tyOf v)) (hv : (h.cell (h.flatten v)).Named) (hpresent : ¬ h.isAbsent v)
    (hslot : h.cell s = .slot ty none) :
    EndsAsCast h v ty (fun k _ h₂ => ∃ y, h₂.cell s = .slot ty (some y) ∧ h.Holds y h₂ k)
      (·.cell s = h.cell s) (assign s v) h := by
  have hbound : h.boundTree (h.flatten v) = h.boundTree v := by
    unfold Heap.boundTree
    rw [flatten_flatten hs]
  have hcasted : ∀ x h₁, copyForBinding (h.flatten v) h = .ok x h₁ →
      h₁.casted (h₁.cell (h₁.flatten x)) ty = h.casted (h.cell (h.flatten v)) ty := by
    intro x h₁ hcopy
    have hm := (ends_copyForBinding hs.grounded (h.flatten v)).of_ok hcopy
    rw [hbound] at hm
    exact hm.casted_eq hs hty ha hv
  exact (ends_congr (assign_vacant hs hpresent hslot)).2 (ends_fill_cast hs hty hpresent hslot hcasted)

/-! ## All conversions -/

/-- Conversions of a value to a scalar type. A cast and the assignment into a new
    value of the type give the same, or both refuse the value and leave the new one
    alone. If the type accepts the value, so does binding, for all but the type that
    a pointer points at, and so does storing it into an empty slot of the type,
    unless it is absent. -/
theorem conversions_agree (p : Program) (hs : h.Sound) (hlt : v.id < h.cells.size)
    (hty : ty.IsScalar) :
    (∃ r h₁, createValue p ty h = .ok r h₁ ∧
      EndsAlike (fun x h' _ h₂ => h.SameScalar Eq x h' r h₂) (· = h₁) (castTo v ty h) (assign r v h₁)) ∧
    (p.accepts ty (h.tyOf v) → (h.cell (h.flatten v)).Named →
      EndsAlike (fun x h' y h₂ => h.SameScalar (fun _ _ => True) x h' y h₂) h.Adds (castTo v ty h)
        (conform v ty h) ∧
      (¬ h.isAbsent v → ∀ s, h.cell s = .slot ty none →
        EndsAlike (fun x h' _ h₂ => ∃ y, h₂.cell s = .slot ty (some y) ∧ h.SameScalar Eq x h' y h₂)
          (·.cell s = h.cell s) (castTo v ty h) (assign s v h))) := by
  have hg := hs.grounded
  refine ⟨?_, fun ha hv => ⟨?_, fun hpresent s hslot => ?_⟩⟩
  · obtain ⟨r, h₁, hmade, hassign⟩ := ends_assign_zero p hs hlt hty
    exact ⟨r, h₁, hmade, hassign.alike hg hty fun k x h' _ h₂ hk hx hr => .of_holds hty hk hx hr⟩
  · exact (ends_conform_accepted hs hty ha hv).alike hg hty fun k x h' y h₂ _ hx hsame => hsame x h' hx
  · refine (ends_assign_absent hs hty ha hv hpresent hslot).alike hg hty ?_
    rintro k x h' _ h₂ hk hx ⟨y, hy, hholds⟩
    exact ⟨y, hy, .of_holds hty hk hx hholds⟩

/-- A heap with an array of numbers, and an empty slot for a pointer. -/
def arrayAndSlot : Heap :=
  leaves (do
    let _ ← createValue {} (.array .int (some 2))
    absent (.pointer .int)) {}

/-- The array is stored into the slot as a pointer to its first element, which is
    what a cast gives. -/
theorem array_converted : arrayAndSlot.cell ⟨4⟩ = .array .int ⟨0⟩ ∧
    arrayAndSlot.cell ⟨5⟩ = .slot (.pointer .int) none ∧
    ∃ h' h₂ y, castTo ⟨4⟩ (.pointer .int) arrayAndSlot = .ok ⟨6⟩ h' ∧
      h'.cell ⟨6⟩ = .pointer ⟨.int, ⟨0⟩, 0⟩ ∧ assign ⟨5⟩ ⟨4⟩ arrayAndSlot = .ok () h₂ ∧
      h₂.cell ⟨5⟩ = .slot (.pointer .int) (some y) ∧ h₂.cell y = .pointer ⟨.int, ⟨0⟩, 0⟩ := by
  have hmade : createValue {} (.array .int (some 2)) {} = .ok ⟨4⟩
      (leaves (createValue {} (.array .int (some 2))) {}) := rfl
  have hsimple : (Cell.slot (.pointer .int) none).Simple := trivial
  have hs : arrayAndSlot.Sound :=
    ((makes_createValue {} _ .empty).of_ok hmade).sound.alloc (hsimple.admits _)
  have hcast : castTo ⟨4⟩ (.pointer .int) arrayAndSlot = .ok ⟨6⟩
      (leaves (castTo ⟨4⟩ (.pointer .int)) arrayAndSlot) := rfl
  have halike := ((conversions_agree {} hs (v := ⟨4⟩) (by decide)
    (Ty.isScalar_iff.2 (.inr ⟨.int, rfl⟩))).2 (by decide) trivial).2 (by decide) ⟨5⟩ rfl
  rw [hcast] at halike
  generalize assign ⟨5⟩ ⟨4⟩ arrayAndSlot = result at halike ⊢
  cases halike with
  | ok hsame =>
    obtain ⟨y, hy, hsame⟩ := hsame
    have hplace : (leaves (castTo ⟨4⟩ (.pointer .int)) arrayAndSlot).cell ⟨6⟩ =
      .pointer ⟨.int, ⟨0⟩, 0⟩ := rfl
    refine ⟨rfl, rfl, _, _, y, hcast, hplace, rfl, hy, ?_⟩
    cases hsame with
    | number hx _ => cases hplace.symm.trans hx
    | @place q q' hx hy' htarget hblock hoffset =>
      obtain rfl : ⟨.int, ⟨0⟩, 0⟩ = q := Cell.pointer.inj (hplace.symm.trans hx)
      cases q'
      cases htarget
      cases hblock
      cases hoffset
      exact hy'
    | @null q q' hx _ _ hnew _ =>
      obtain rfl : ⟨.int, ⟨0⟩, 0⟩ = q := Cell.pointer.inj (hplace.symm.trans hx)
      exact absurd hnew.new (by decide)

end Treewalk
