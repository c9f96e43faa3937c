/-
  Computations that keep the heap sound.

  * `Safe I N n x V`: from a state in which `I` holds and there are at least `n`
    values, `x` leaves such a state with no fewer values however it ends, and
    gives a result that is valid, in the sense of `V`, for the number of values
    there then are. `N` is that number;
  * `Mem.Safe` is this for soundness of the heap. Slots are put only around
    values that are there, which is why results are kept track of.
-/
import Treewalk.Memory.Operand
import Treewalk.Eval.Access
import Treewalk.Eval.Statement
import Treewalk.Proofs.Assigned

namespace Treewalk

/-- The value is one of the first `n`. -/
def Ref.In (n : Nat) (r : Ref) : Prop :=
  r.id < n

theorem Ref.In.mono {n n' : Nat} {r : Ref} (h : r.In n) (hn : n ≤ n') : r.In n' :=
  Nat.lt_of_lt_of_le h hn

/-- Any result will do. -/
abbrev Anything {α : Type} (_ : Nat) (_ : α) : Prop :=
  True

/-- The value, if there is one, is one of the first `n`. -/
def MaybeIn (n : Nat) (o : Option Ref) : Prop :=
  ∀ r ∈ o, r.In n

theorem MaybeIn.mono {n n' : Nat} {o : Option Ref} (h : MaybeIn n o) (hn : n ≤ n') : MaybeIn n' o :=
  fun r hr => (h r hr).mono hn

theorem MaybeIn.some {n : Nat} {r : Ref} (h : r.In n) : MaybeIn n (some r) :=
  fun _ hx => Option.some.inj hx ▸ h

section Safe

variable {ε σ α β : Type} {I : σ → Prop} {N : σ → Nat} {n : Nat} {x : EStateM ε σ α}
  {f : α → EStateM ε σ β} {V V' : Nat → α → Prop} {W : Nat → β → Prop}

/-- From states in which `I` holds and there are at least `n` values, the
    computation keeps `I`, loses no values, and gives a valid result. -/
def Safe (I : σ → Prop) (N : σ → Nat) (n : Nat) (x : EStateM ε σ α) (V : Nat → α → Prop) : Prop :=
  ∀ s, I s → n ≤ N s →
    Ends x s (fun a s' => I s' ∧ N s ≤ N s' ∧ V (N s') a) fun _ s' => I s' ∧ N s ≤ N s'

namespace Safe

theorem pure {a : α} (ha : ∀ n', n ≤ n' → V n' a) : Safe I N n (Pure.pure a : EStateM ε σ α) V :=
  fun s hs hn => ⟨hs, Nat.le_refl _, ha (N s) hn⟩

theorem throw (e : ε) : Safe I N n (MonadExcept.throw e : EStateM ε σ α) V :=
  fun _ hs _ => ⟨hs, Nat.le_refl _⟩

theorem mono (hx : Safe I N n x V) (hV : ∀ n' a, V n' a → V' n' a) : Safe I N n x V' :=
  fun s hs hn => (hx s hs hn).mono (fun a _ h => ⟨h.1, h.2.1, hV _ a h.2.2⟩) fun _ _ h => h

theorem weaken {n' : Nat} (hx : Safe I N n x V) (hn' : n ≤ n') : Safe I N n' x V :=
  fun s hs hn => hx s hs (hn'.trans hn)

/-- What the first step gives is valid where the second starts. -/
theorem bind (hx : Safe I N n x V) (hf : ∀ n', n ≤ n' → ∀ a, V n' a → Safe I N n' (f a) W) :
    Safe I N n (x >>= f) W := by
  intro s hs hn
  refine ends_bind.2 ((hx s hs hn).mono ?_ fun _ _ h => h)
  rintro a s₁ ⟨hs₁, hle, hV⟩
  refine (hf (N s₁) (hn.trans hle) a hV s₁ hs₁ (Nat.le_refl _)).mono ?_ ?_
  · rintro b s₂ ⟨hs₂, hle₂, hW⟩
    exact ⟨hs₂, hle.trans hle₂, hW⟩
  · rintro e s₂ ⟨hs₂, hle₂⟩
    exact ⟨hs₂, hle.trans hle₂⟩

theorem map (g : α → β) (hx : Safe I N n x V) (hV : ∀ n' a, V n' a → W n' (g a)) :
    Safe I N n (g <$> x) W :=
  fun s hs hn => (ends_map g).2 ((hx.mono hV) s hs hn)

theorem discard (hx : Safe I N n x V) : Safe I N n (Functor.discard x) Anything :=
  hx.map _ fun _ _ _ => trivial

theorem forM {l : List α} {g : α → EStateM ε σ PUnit} (hg : ∀ a ∈ l, Safe I N n (g a) Anything) :
    Safe I N n (l.forM g) Anything := by
  induction l with
  | nil => exact .pure fun _ _ => trivial
  | cons a l ih =>
    refine .bind (hg a (by simp)) fun n' hn' _ _ => ?_
    exact weaken (ih fun a' ha' => hg a' (by simp [ha'])) hn'

theorem mapM {l : List α} {g : α → EStateM ε σ β} (hg : ∀ a ∈ l, Safe I N n (g a) Anything) :
    Safe I N n (l.mapM g) Anything := by
  induction l with
  | nil => exact .pure fun _ _ => trivial
  | cons a l ih =>
    rw [List.mapM_cons]
    refine .bind (hg a (by simp)) fun n' hn' b _ => ?_
    refine .bind (weaken (ih fun a' ha' => hg a' (by simp [ha'])) hn') fun _ _ bs _ => ?_
    exact .pure fun _ _ => trivial

end Safe

end Safe

/-! ## On the heap -/

open Mem

section Heap

variable {α β : Type} {I : Heap → Prop} {N : Heap → Nat} {n : Nat} {V : Nat → α → Prop} {W : Nat → β → Prop}

theorem safe_read {f : Heap → α} (hf : ∀ h : Heap, I h → n ≤ N h → V (N h) (f h)) : Safe I N n (read f) V :=
  fun h hs hn => ⟨hs, Nat.le_refl _, hf h hs hn⟩

/-- A question to the heap; what depends on the answer may look at the heap, too. -/
theorem safe_read_bind {f : Heap → α} {g : α → Mem β}
    (hg : ∀ h : Heap, I h → n ≤ N h →
      Ends (g (f h)) h (fun b h' => I h' ∧ N h ≤ N h' ∧ W (N h') b) fun _ h' => I h' ∧ N h ≤ N h') :
    Safe I N n (read f >>= g) W :=
  fun h hs hn => ends_bind.2 (ends_read.2 (hg h hs hn))

/-- A question to the heap that may be a fault. -/
theorem safe_answer_bind {f : Heap → Except Cause α} {g : α → Mem β}
    (hf : ∀ h : Heap, I h → n ≤ N h → ∀ a, f h = .ok a → V (N h) a)
    (hg : ∀ n', n ≤ n' → ∀ a, V n' a → Safe I N n' (g a) W) :
    Safe I N n (do g (← answer (← read f))) W := by
  refine safe_read_bind fun h hs hn => ends_bind.2 (ends_answer.2 ?_)
  cases hx : f h with
  | ok a => exact hg (N h) hn a (hf h hs hn a hx) h hs (Nat.le_refl _)
  | error c => exact ⟨hs, Nat.le_refl _⟩

theorem safe_answer (x : Except Cause α) : Safe I N n (answer x : Mem α) Anything := by
  cases x with
  | ok a => exact .pure fun _ _ => trivial
  | error c => exact .throw _

theorem safe_truthOf (r : Ref) : Safe I N n (truthOf r) Anything :=
  .bind (V := Anything) (safe_read fun _ _ _ => trivial) fun _ _ x _ => safe_answer x

end Heap

/-- The heap stays sound, and the result is there. -/
abbrev Mem.Safe {α : Type} (n : Nat) (x : Mem α) (V : Nat → α → Prop) : Prop :=
  Treewalk.Safe Heap.Sound (·.cells.size) n x V

variable {α : Type} {n : Nat} {r : Ref} {V : Nat → α → Prop}

theorem safe_of_makes {x : Mem Ref} {K : Cell → Prop} (hx : ∀ h : Heap, h.Sound → MakesOne K x h) :
    Mem.Safe n x fun n r => r.In n := by
  intro h hs _
  refine Ends.mono (hx h hs) ?_ ?_
  · intro r h' hm
    exact ⟨hm.sound, hm.adjoins.cells_le, hm.fresh.lt r (by simp)⟩
  · intro c h' hm
    exact ⟨hm.1, hm.2.cells_le⟩

theorem safe_of_assigns {x : Mem α} {t : Ref} (hx : ∀ h : Heap, h.Sound → Assigns t x h) :
    Mem.Safe n x Anything := by
  intro h hs _
  refine Ends.mono (hx h hs) ?_ ?_
  · intro _ h' ha
    exact ⟨ha.sound, ha.edits.cells_le, trivial⟩
  · intro _ h' ha
    exact ⟨ha.sound, ha.edits.cells_le⟩

/-! ## New values -/

theorem safe_alloc {c : Cell} (hc : c.Simple) : Mem.Safe n (alloc c) fun n r => r.In n :=
  safe_of_makes (K := fun _ => True) fun _ hs => makes_alloc hs hc trivial

theorem safe_copy (r : Ref) : Mem.Safe n (copy r) fun n r => r.In n := by
  intro h hs hn
  refine safe_of_makes (K := fun _ => True) (fun h hs => ?_) h hs hn
  exact (makes_copy hs r).mono fun _ _ => trivial

theorem safe_copyForBinding (r : Ref) : Mem.Safe n (copyForBinding r) fun n r => r.In n := by
  intro h hs hn
  refine safe_of_makes (K := fun _ => True) (fun h hs => ?_) h hs hn
  exact (makes_copyForBinding hs r).mono fun _ _ => trivial

theorem safe_castTo (r : Ref) (target : Ty) : Mem.Safe n (castTo r target) fun n r => r.In n :=
  safe_of_makes fun _ hs => makes_castTo hs r target

theorem safe_createValue (program : Program) (ty : Ty) :
    Mem.Safe n (createValue program ty) fun n r => r.In n :=
  safe_of_makes fun _ hs => makes_createValue program ty hs

theorem safe_createArray (program : Program) (element : Ty) (sizes : List Nat) :
    Mem.Safe n (createArray program element sizes) fun n r => r.In n :=
  safe_of_makes fun _ hs => makes_createArray program element sizes hs

theorem safe_createString (text : String) : Mem.Safe n (createString text) fun n r => r.In n :=
  safe_of_makes fun _ hs => makes_createString hs text

theorem safe_conform (r : Ref) (declared : Ty) : Mem.Safe n (conform r declared) fun n r => r.In n := by
  refine .bind (safe_copyForBinding r) fun n' _ bound hbound => ?_
  have hsame : Mem.Safe n' (pure bound) fun n r => r.In n := .pure fun _ hle => hbound.mono hle
  refine safe_read_bind fun h hs hn => ?_
  split
  all_goals first | exact hsame h hs hn | exact safe_castTo bound declared h hs hn

theorem safe_conformToNode (ty : Ty) (hr : r.In n) :
    Mem.Safe n (conformToNode r ty) fun n r => r.In n := by
  have hsame : Mem.Safe n (pure r) fun n r => r.In n := .pure fun _ hle => hr.mono hle
  refine safe_read_bind fun h hs hn => ?_
  split
  · exact hsame h hs hn
  · rename_i k u p _ _ _
    split
    · exact hsame h hs hn
    · have hp : (Cell.primitive (p.converted k u)).Simple := Primitive.inRange_of ..
      exact safe_alloc hp h hs hn
  · exact hsame h hs hn

theorem safe_literal (ty : Ty) (l : Literal) :
    Mem.Safe n (Eval.literal ty l) fun n r => r.In n := by
  have hof (k : Kind) (u : Bool) (p : Payload) :
      Mem.Safe n (alloc (.primitive (.of k u p))) fun n r => r.In n := by
    have hp : (Cell.primitive (.of k u p)).Simple := Primitive.inRange_of k u p
    exact safe_alloc hp
  unfold Eval.literal
  dsimp only
  split
  · exact hof _ _ _
  · exact hof _ _ _
  · split
    · exact safe_of_makes fun _ hs => makes_nullPointer hs _
    · exact hof _ _ _
  · exact hof _ _ _

/-! ## Operands -/

theorem safe_operandOf (r : Ref) : Mem.Safe n (operandOf r) Anything :=
  .bind (V := Anything) (safe_read fun _ _ _ => trivial) fun _ _ x _ => safe_answer x

theorem safe_operateOn (op : BinaryOp) (l r : Operand) :
    Mem.Safe n (operateOn op l r) fun n r => r.In n := by
  refine safe_answer_bind (V := fun _ y => y.InRange) (fun h _ _ y hy => inRange_operate hy) ?_
  intro n' _ y hy
  cases y with
  | number p =>
    have hp : (Cell.primitive p).Simple := hy
    exact safe_alloc hp
  | pointer p =>
    have hp : (Cell.pointer p).Simple := trivial
    exact safe_alloc hp

theorem safe_binaryOperation (op : BinaryOp) (l r : Ref) :
    Mem.Safe n (binaryOperation op l r) fun n r => r.In n :=
  .bind (safe_operandOf l) fun _ _ l _ => .bind (safe_operandOf r) fun _ _ r _ => safe_operateOn op l r

/-! ## Slots and pointers -/

/-- A slot may be put around any value that is there and is no slot. -/
theorem Heap.admits_slot {h : Heap} {ty : Ty} (hr : r.In h.cells.size) (hslot : ¬ (h.cell r).IsSlot) :
    h.Admits (.slot ty (some r)) where
  number := nofun
  nested := by rintro _ _ ⟨⟩; exact hslot
  storage_lt := nofun
  part_lt := by intro x hx; rw [List.mem_singleton.1 hx]; exact hr
  nodup := List.nodup_singleton r
  solo := .inl trivial

/-- What stands for a value in a block is a slot or compound, and is there. -/
theorem safe_slotFor {h : Heap} (hs : h.Sound) (hr : r.In h.cells.size) {E : Halt → Heap → Prop} :
    Ends (slotFor r) h
      (fun x h' => h'.Sound ∧ h.cells.size ≤ h'.cells.size ∧
        ((h'.cell x).IsSlot ∨ (h'.cell x).IsCompound)) E := by
  unfold slotFor
  rw [ends_bind, ends_read]
  split
  · rename_i hc
    exact ⟨hs, Nat.le_refl _, .inr (hc ▸ trivial)⟩
  · unfold toSlot
    rw [ends_bind, ends_read]
    split
    · rename_i hc
      exact ⟨hs, Nat.le_refl _, .inl (hc ▸ trivial)⟩
    · rename_i hc
      have hslot : ¬ (h.cell r).IsSlot := Cell.not_isSlot_of fun ty content => hc ty content
      rw [ends_bind, ends_read, ends_alloc]
      refine ⟨hs.alloc (Heap.admits_slot hr hslot), ?_, .inl ?_⟩
      · rw [Heap.cells_size_alloc]
        exact Nat.le_succ _
      · rw [Heap.cell_alloc, if_pos rfl]
        trivial

theorem safe_toPointer (hr : r.In n) : Mem.Safe n (toPointer r) fun n r => r.In n := by
  refine safe_read_bind fun h hs hn => ?_
  refine ends_bind.2 ((safe_slotFor hs (hr.mono hn)).mono ?_ fun _ _ h => h)
  rintro x h₁ ⟨hs₁, hle, hx⟩
  have hblock : (h₁.allocBlock #[x]).2.Sound := by
    refine hs₁.allocBlock fun y hy => ?_
    rw [Array.mem_singleton.1 hy]
    exact hx
  have hpointer : (Cell.pointer ⟨h.tyOf r, ⟨h₁.blocks.size⟩, 0⟩).Simple := trivial
  refine ends_bind.2 (ends_allocBlock.2 ?_)
  refine (safe_alloc hpointer _ hblock (Nat.le_refl _)).mono ?_ ?_
  · rintro p h₂ ⟨hs₂, hle₂, hp⟩
    exact ⟨hs₂, hle.trans hle₂, hp⟩
  · rintro _ h₂ ⟨hs₂, hle₂⟩
    exact ⟨hs₂, hle.trans hle₂⟩

/-! ## Changes in place -/

theorem safe_assign (t source : Ref) : Mem.Safe n (assign t source) Anything :=
  safe_of_assigns fun _ hs => assigns_assign hs t source

/-- The place of a compound in a block is taken by a new empty slot, which
    nothing contains yet. -/
theorem safe_release (p : Pointer) : Mem.Safe n (release p) Anything := by
  refine safe_read_bind fun h hs hn => ?_
  split
  · exact ⟨hs, Nat.le_refl _, trivial⟩
  refine ends_bind.2 (ends_read.2 (ends_bind.2 (ends_answer.2 ?_)))
  cases hslot : h.slotOf p with
  | error c => exact ⟨hs, Nat.le_refl _⟩
  | ok r =>
    refine ends_bind.2 (ends_read.2 ?_)
    split
    · exact safe_of_assigns (fun _ hs => assigns_empty hs r) h hs hn
    · rw [ends_bind, ends_read, absent, ends_bind, ends_alloc, ends_change]
      have hempty : (Cell.slot (h.tyOf r) none).Simple := trivial
      have hm : h.Made (fun x => [x]) (· = .slot (h.tyOf r) none) ⟨h.cells.size⟩
          (h.alloc (.slot (h.tyOf r) none)).2 := makes_alloc hs hempty rfl
      have hnew := hm.kind ⟨h.cells.size⟩ (by simp)
      have hplace : ((h.alloc (.slot (h.tyOf r) none)).2.block p.block)[p.offset.toInt.toNat]? = some r :=
        Heap.getElem?_of_slotOf hslot
      refine ⟨hm.sound.setSlot hplace (.inl ?_) (hm.fresh.solo _ (by simp)) ?_, hm.adjoins.cells_le, trivial⟩
      · rw [hnew]
        trivial
      · unfold Heap.parts
        rw [hnew]
        rfl

theorem safe_step (r : Ref) (delta : Int64) : Mem.Safe n (step r delta) Anything := by
  have hset {h : Heap} {c : Cell} (hs : h.Sound) (halike : (h.cell r).Alike c) (hc : c.Simple) :
      (h.setCell r c).Sound ∧ h.cells.size ≤ (h.setCell r c).cells.size ∧ True := by
    have ha : h.Assigned r (h.setCell r c) := .setCell hs (.refl h) halike hc
    exact ⟨ha.sound, ha.edits.cells_le, trivial⟩
  refine safe_read_bind fun h hs hn => ?_
  cases hc : h.cell r with
  | slot ty content =>
    cases content with
    | none =>
      have hint : (Primitive.int delta).InRange := Primitive.inRange_of ..
      exact Safe.bind (safe_alloc (c := .primitive (.int delta)) hint) (fun _ _ source _ => safe_assign r source) h hs hn
    | some x => exact ⟨hs, Nat.le_refl _⟩
  | primitive p =>
    refine hset hs (hc ▸ .primitive ?_ ?_) (p.inRange_stepped delta)
    all_goals unfold Primitive.stepped Primitive.withPayload Primitive.of; split <;> rfl
  | pointer p => exact hset hs (hc ▸ .pointer rfl) trivial
  | array | compound => exact ⟨hs, Nat.le_refl _⟩

/-! ## Initial values -/

/-- Contents are taken from a block. -/
theorem entry_of_initialSlots? {h : Heap} (hs : h.Sound) {slots : List Ref}
    (hslots : Eval.initialSlots? h r = some slots) :
    ∀ x ∈ slots, (h.cell x).IsSlot ∨ (h.cell x).IsCompound := by
  intro x hx
  unfold Eval.initialSlots? at hslots
  split at hslots
  · rename_i b _
    cases hslots
    exact hs.entry b x (Array.mem_toList_iff.1 hx)
  · rename_i p _
    cases hslots
    unfold Heap.remaining at hx
    split at hx
    · cases hx
    · exact hs.entry p.block x (Array.mem_toList_iff.1 (List.mem_of_mem_drop hx))
  · cases hslots

/-- An array of copies of slots and compounds. -/
theorem makes_arrayOfCopies {h : Heap} (hs : h.Sound) (element : Ty) {slots : List Ref}
    (hslots : ∀ x ∈ slots, (h.cell x).IsSlot ∨ (h.cell x).IsCompound) :
    MakesOne (fun _ => True) (do arrayOfSlots element (← slots.mapM copy)) h := by
  have hcopies : Makes id (fun c => c.IsSlot ∨ c.IsCompound) (slots.mapM copy) h := by
    refine makes_mapM_id hs fun x hx h₁ hs₁ ha => (makes_copy hs₁ x).mono fun c hc => ?_
    have hlt : x.id < h.cells.size := (hslots x hx).elim Heap.lt_of_isSlot Heap.lt_of_isCompound
    rw [ha.cell x hlt] at hc
    exact (hslots x hx).imp hc.1.2 hc.2.2
  exact hcopies.bind fun _ _ hm => ends_arrayOfSlots hm fun _ => trivial

theorem safe_initialValue (e : Engine) (ty : Ty) (initial : Ref) :
    Mem.Safe n (Eval.initialValue e ty initial) fun n r => r.In n := by
  unfold Eval.initialValue
  split
  · rename_i element _
    refine safe_read_bind fun h hs hn => ?_
    cases hslots : Eval.initialSlots? h initial with
    | none => exact ⟨hs, Nat.le_refl _⟩
    | some slots =>
      have hmade := makes_arrayOfCopies hs element (entry_of_initialSlots? hs hslots)
      refine Ends.mono hmade ?_ ?_
      · intro r h' hm
        exact ⟨hm.sound, hm.adjoins.cells_le, hm.fresh.lt r (by simp)⟩
      · intro _ h' hE
        exact ⟨hE.1, hE.2.cells_le⟩
  · refine .bind (safe_createValue e.program ty) fun n' _ r hr => ?_
    exact .bind (safe_assign r initial) fun n'' hn'' _ _ => .pure fun _ hle => hr.mono (hn''.trans hle)

/-- The receiver of a method is a pointer to the owner, or the owner itself. -/
theorem safe_receiverOf (hr : r.In n) : Mem.Safe n (Eval.receiverOf r) fun n p => p.1.In n := by
  refine .bind (V := fun n x => x.In n) (safe_read fun h hs hn => hs.flatten_lt (hr.mono hn)) ?_
  intro n₁ _ owner howner
  refine safe_answer_bind (V := Anything) (fun _ _ _ _ _ => trivial) fun n₂ hn₂ object _ => ?_
  have hrest (n₃ : Nat) (receiver : Ref) (h₃ : receiver.In n₃) :
      Mem.Safe n₃ (do return (receiver, ← answer (← read (Eval.classOf · object))))
        fun n p => p.1.In n := by
    refine safe_answer_bind (V := Anything) (fun _ _ _ _ _ => trivial) fun n₄ hn₄ _ _ => ?_
    exact .pure fun _ hle => h₃.mono (hn₄.trans hle)
  refine safe_read_bind fun h hs hn => ?_
  dsimp only
  split
  · have hpointer := Safe.bind (W := fun n (p : Ref × String) => p.1.In n)
      (safe_toPointer (howner.mono hn₂)) fun n₃ _ receiver h₃ => hrest n₃ receiver h₃
    exact hpointer h hs hn
  · exact hrest n₂ owner (howner.mono hn₂) h hs hn

/-! ## What is found is there -/

namespace Heap.Sound

variable {h : Heap} {x : Ref}

theorem slotIn_lt (hs : h.Sound) {b : BlockRef} {i : Int64} (hx : h.slotIn b i = .ok x) :
    x.In h.cells.size := by
  unfold slotIn slotAt? at hx
  split at hx
  · rename_i y hy
    cases hx
    split at hy
    · cases hy
    · exact hs.entry_lt (Array.mem_of_getElem? hy)
  · cases hx

theorem slotOf_lt (hs : h.Sound) {p : Pointer} (hx : h.slotOf p = .ok x) : x.In h.cells.size := by
  unfold slotOf at hx
  split at hx
  · cases hx
  · exact hs.slotIn_lt hx

theorem element_lt (hs : h.Sound) {i : Int64} (hx : h.element r i = .ok x) : x.In h.cells.size := by
  unfold element at hx
  split at hx
  · exact hs.slotIn_lt hx
  · exact hs.slotOf_lt hx
  · cases hx
  · cases hx

theorem referent_lt (hs : h.Sound) (hx : h.referent r = .ok x) : x.In h.cells.size := by
  unfold referent at hx
  split at hx
  · exact hs.slotOf_lt hx
  · exact hs.slotIn_lt hx
  · cases hx
  · split at hx <;> cases hx
  · cases hx

theorem field?_lt (hs : h.Sound) {name : String} (hx : h.field? r name = some x) :
    x.In h.cells.size := by
  unfold field? at hx
  split at hx
  · rename_i ty fields hc
    refine hs.part_lt (h.flatten r) x ?_
    unfold parts
    rw [hc]
    exact List.mem_map_of_mem (Dict.mem_of_find? hx)
  · cases hx

theorem fieldOf_lt (hs : h.Sound) {name : String} (hx : h.fieldOf r name = .ok x) :
    x.In h.cells.size := by
  unfold fieldOf at hx
  cases howner : h.fieldOwner r name with
  | error c => rw [howner] at hx; cases hx
  | ok object =>
    rw [howner] at hx
    dsimp only [bind, Except.bind] at hx
    split at hx
    · rename_i y hy
      cases hx
      exact hs.field?_lt hy
    · cases hx

end Heap.Sound

end Treewalk
