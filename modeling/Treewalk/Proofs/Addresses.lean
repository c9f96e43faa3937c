/-
  The identity of addresses.

  The address of an element leads into the block in which the element is; any other
  address leads into a block made for it, whatever it is the address of.

  * `ElementAt e k x m p`: `x` is written as an element, and `p` leads to its place;
    `AddressOf e k x m r m₁ p`: `p` is the address that is taken of `x`, which has the
    value `r`;
  * `Tells e k node m b`: the node evaluates to the number that stands for `b`;
  * `tells_places`: of two expressions without effects, each of them a pointer, `==` and
    `!=` tell whether both lead to one place that was there before either was evaluated;
  * `Node.Path n`: `n` is a name, or a field, an element or what is pointed at, of what is
    reached so; a path leads to what was there (`Finds`);
  * `address_comparison`: what follows for the addresses of one expression, of what a
    pointer leads to, and of two values.
-/
import Treewalk.Proofs.AnchoredEval
import Treewalk.Proofs.Indexing
import Treewalk.Proofs.Inert

namespace Treewalk

/-! ## Heaps -/

namespace Heap

variable {h h' : Heap} {c s : Ref} {i : Int64} {p q base : Pointer}

/-- An element is where the container leads to, moved by the index. -/
theorem exists_of_element (hs : h.element c i = .ok s) :
    ∃ base, (h.cell c).Decays base ∧ h.slotOf (base.moved i) = .ok s := by
  unfold element at hs
  cases hc : h.cell c with
  | array ty b =>
    rw [hc] at hs
    refine ⟨⟨ty, b, 0⟩, .inr ⟨rfl, rfl⟩, slotOf_eq_ok.2 ?_⟩
    have hoffset : (Pointer.moved ⟨ty, b, 0⟩ i).offset = i := Int64.zero_add i
    rw [hoffset]
    exact slotIn_eq_ok.1 hs
  | pointer p =>
    rw [hc] at hs
    exact ⟨p, .inl rfl, hs⟩
  | primitive | slot | compound =>
    rw [hc] at hs
    cases hs

theorem referent_of_decays (hc : (h.cell c).Decays p) (hs : h.slotOf p = .ok s) : h.referent c = .ok s := by
  unfold referent
  rcases hc with hc | ⟨hc, hzero⟩
  · rw [hc]
    exact hs
  · rw [hc]
    exact slotIn_eq_ok.2 (hzero ▸ slotOf_eq_ok.1 hs)

theorem Inside.block_lt (hp : h.Inside p) : p.block.id < h.blocks.size := by
  by_contra hle
  have hsize : h.blockSize p.block = 0 := by
    unfold blockSize
    rw [block_of_le (Nat.not_lt.1 hle)]
    rfl
  obtain ⟨hfirst, hlast⟩ := hp
  omega

theorem Inside.of_adds (hp : h.Inside p) (hadds : h.Adds h') : h'.Inside p := by
  have hblock := hadds.block p.block hp.block_lt
  unfold Inside blockSize at hp ⊢
  rwa [hblock]

theorem Relocated.inside {ρ : Relocation} (hh : h.Relocated ρ h') (hp : h.Inside p) : h'.Inside (ρ.pointer p) := by
  unfold Inside at hp ⊢
  rwa [← hh.blockSize] at hp

theorem Relocated.decays {ρ : Relocation} (hh : h.Relocated ρ h') (hc : (h.cell c).Decays p) :
    (h'.cell (ρ.ref c)).Decays (ρ.pointer p) := by
  rw [hh.cell]
  rcases hc with hc | ⟨hc, hzero⟩
  · exact .inl (by rw [hc]; rfl)
  · exact .inr ⟨by rw [hc]; rfl, hzero⟩

/-- A block that is in the gap is none that was moved up. -/
theorem gap_block_eq {b b' : BlockRef} (hb : b.id < h'.blocks.size) :
    (h.gap h').block b' = b ↔ b' = b ∧ b.id < h.blocks.size := by
  rcases Nat.lt_or_ge b'.id h.blocks.size with hold | hnew
  · have hfixed : (h.gap h').block b' = b' := Relocation.block_of_lt hold
    rw [hfixed]
    exact ⟨fun heq => ⟨heq, heq ▸ hold⟩, fun heq => heq.1⟩
  · have hid : ((h.gap h').block b').id = b'.id + (h'.blocks.size - h.blocks.size) := Relocation.block_id_of_le hnew
    constructor
    · rintro rfl
      omega
    · rintro ⟨rfl, hold⟩
      omega

/-- A pointer made before the gap and one made after it lead to one place only if both
    have found it there. -/
theorem sameTarget_gap {h₂ : Heap} (hb : p.block.id < h'.blocks.size) (hp : h₂.Inside p)
    (hq : h₂.Inside ((h.gap h').pointer q)) :
    h₂.sameTarget p ((h.gap h').pointer q) = true ↔
      q.block = p.block ∧ q.offset = p.offset ∧ p.block.id < h.blocks.size := by
  have hblock : p.block = (h.gap h').block q.block ↔ q.block = p.block ∧ p.block.id < h.blocks.size :=
    eq_comm.trans (gap_block_eq hb)
  unfold sameTarget
  rw [Bool.eq_false_iff.2 hp.hasStorage, Bool.eq_false_iff.2 hq.hasStorage]
  change (p.block == (h.gap h').block q.block && p.offset == q.offset) = true ↔ _
  rw [Bool.and_eq_true, beq_iff_eq, beq_iff_eq, hblock]
  tauto

end Heap

theorem pointerPair_inside {h : Heap} {p q : Pointer} (hp : h.Inside p) (hq : h.Inside q) :
    pointerPair h .eq p q = .ok (.truth (h.sameTarget p q)) ∧
      pointerPair h .ne p q = .ok (.truth (!h.sameTarget p q)) := by
  unfold pointerPair
  simp only [hp.hasStorage, hq.hasStorage]
  cases h.sameTarget p q <;> exact ⟨rfl, rfl⟩

/-- A new pointer leads to the first place of a new block. -/
theorem exists_toPointer (r : Ref) (h : Heap) :
    ∃ s h', toPointer r h = .ok s h' ∧ h'.cell s = .pointer ⟨h.tyOf r, ⟨h.blocks.size⟩, 0⟩ ∧
      h'.blockSize ⟨h.blocks.size⟩ = 1 := by
  have htoSlot : Ends (toSlot r) h (fun _ h₁ => h₁.blocks = h.blocks) fun _ _ => False := by
    refine ends_bind.2 (Mem.ends_read.2 ?_)
    cases h.cell r <;> rfl
  have hslotFor : Ends (slotFor r) h (fun _ h₁ => h₁.blocks = h.blocks) fun _ _ => False := by
    refine ends_bind.2 (Mem.ends_read.2 ?_)
    cases h.cell r with
    | compound => rfl
    | primitive | array | pointer | slot => exact htoSlot
  have hpointer : Ends (toPointer r) h (fun s h' => h'.cell s = .pointer ⟨h.tyOf r, ⟨h.blocks.size⟩, 0⟩ ∧
      h'.blockSize ⟨h.blocks.size⟩ = 1) fun _ _ => False := by
    refine ends_bind.2 (Mem.ends_read.2 (ends_bind.2 (hslotFor.mono (fun slot h₁ hb => ?_) fun _ _ h => h)))
    refine ends_bind.2 (Mem.ends_allocBlock.2 (Mem.ends_alloc.2 ?_))
    have hnew : (h₁.allocBlock #[slot]).1 = ⟨h.blocks.size⟩ := congrArg (fun b => BlockRef.mk b.size) hb
    refine ⟨?_, ?_⟩
    · rw [← hb]
      exact Heap.cell_alloc_new _ _
    · unfold Heap.blockSize
      rw [Heap.block_alloc, ← hnew, Heap.block_allocBlock_new]
      rfl
  exact hpointer.exists_ok

namespace Eval

variable {e : Engine} {k fuel : Nat} {x y : Node} {m m₁ m₂ : Machine} {r s : Ref} {p q : Pointer}

/-! ## Runs -/

theorem exists_of_indexed {ev : Evaluator} {a i : Node} {c : Ref} {j : Int64}
    (hi : indexed ev a i m = .ok (c, j) m₁) :
    ∃ m₂ v, valueOf ev a m = .ok c m₂ ∧ valueOf ev i m₂ = .ok v m₁ := by
  obtain ⟨c', m₂, ha, hrest⟩ := bind_eq_ok_iff.1 hi
  obtain ⟨v, m₃, hv, hlast⟩ := bind_eq_ok_iff.1 hrest
  obtain ⟨j', m₄, hj, hpure⟩ := bind_eq_ok_iff.1 hlast
  obtain ⟨-, rfl⟩ : _ ∧ m₄ = m₃ := look?_eq_ok_iff.1 hj
  injection hpure with hc hm
  cases hc
  cases hm
  exact ⟨m₂, v, ha, hv⟩

/-- An element is read off its container when the index has been evaluated, too. -/
theorem exists_of_index {a i : Node} (hx : x.construct = .index a i) (hr : valueOf (evaluate e k) x m = .ok r m₁) :
    ∃ k₀ t c j slot, k = k₀ + 1 ∧ indexed (evaluate e k₀) a i { m with nearest := t } = .ok (c, j) m₁ ∧
      m₁.heap.element c j = .ok slot ∧ r = m₁.heap.flatten slot := by
  have hdispatch (k₀ : Nat) : dispatch e k₀ (evaluate e k₀) x =
      (indexed (evaluate e k₀) a i >>= fun c => look? (·.element c.1 c.2)) >>= yield := by
    unfold dispatch
    rw [hx, bind_assoc]
    rfl
  obtain ⟨k₀, t, slot, hk, hslot, hflat⟩ := exists_of_yield hdispatch hr
  obtain ⟨c, m₂, hindexed, helement⟩ := bind_eq_ok_iff.1 hslot
  obtain ⟨helement, rfl⟩ := look?_eq_ok_iff.1 helement
  exact ⟨k₀, t, c.1, c.2, slot, hk, hindexed, helement, hflat⟩

/-- The node evaluates to the outcome of a test. -/
def Tells (e : Engine) (k : Nat) (node : Node) (m : Machine) (b : Bool) : Prop :=
  ∃ v m', valueOf (evaluate e k) node m = .ok v m' ∧ m'.heap.cell v = .primitive (.truth b)

theorem conformToNode_truth {h : Heap} {b : Bool} (hr : h.cell r = .primitive (.truth b)) :
    conformToNode r .int h = .ok r h := by
  unfold conformToNode
  rw [Mem.read_bind, hr]
  rfl

/-- Pointers are compared where both operands are. -/
theorem tells_comparison {op : BinaryOp} {b : Bool} (hop : op.isComparison)
    (hx : valueOf (evaluate e k) x m = .ok r m₁) (hp : (m₁.heap.cell r).Decays p)
    (hy : valueOf (evaluate e k) y m₁ = .ok s m₂) (hq : (m₂.heap.cell s).Decays q)
    (hb : pointerPair m₂.heap op p q = .ok (.truth b)) : Tells e (k + 1) (Build.binary op x y) m b := by
  have hlogical : op.isLogical = false := by
    cases op <;> simp [BinaryOp.isComparison, BinaryOp.isLogical] at hop ⊢
  have hty : Build.binaryType op x.ty y.ty = .int := by
    unfold Build.binaryType
    rw [hop]
    rfl
  let m' : Machine := { m₂ with heap := (m₂.heap.alloc (.primitive (.truth b))).2 }
  have hcell : m'.heap.cell m₂.newest = .primitive (.truth b) := Heap.cell_alloc_new _ _
  have hoperate : operate m₂.heap op (.pointer p) (.pointer q) = .ok (.truth b) :=
    (operate_pointers _ hlogical p q).trans hb
  have hnode : evaluate e (k + 1) (Build.node (.binary op x y) .int) m = .ok .normal (m'.leaving m₂.newest) :=
    run_binary hlogical hx (Heap.operand_of_decays hp) hy (Heap.operand_of_decays hq)
      (operateOn_ok hoperate) (conformToNode_truth hcell)
  have hle : m.state.valueDepth ≤ m₂.state.valueDepth :=
    (valueDepth_le_of_valueOf hx).trans (valueDepth_le_of_valueOf hy)
  have hvalue : valueOf (evaluate e (k + 1)) (Build.node (.binary op x y) .int) m =
      .ok (m'.heap.flatten m₂.newest) m' := run_valueOf hnode hle
  refine ⟨m₂.newest, m', ?_, hcell⟩
  unfold Build.binary
  rw [hty, hvalue]
  unfold Heap.flatten
  rw [hcell]

/-! ## Addresses -/

/-- The expression is written as an element, and `p` leads there. -/
def ElementAt (e : Engine) (k : Nat) (x : Node) (m : Machine) (p : Pointer) : Prop :=
  ∃ a i c j base m₁, x.construct = .index a i ∧ indexed (evaluate e k) a i m = .ok (c, j) m₁ ∧
    m₁.heap.pointer? c = some base ∧ p = base.moved j

theorem ElementAt.unique (hp : ElementAt e k x m p) (hq : ElementAt e k x m q) : p = q := by
  obtain ⟨a, i, c, j, base, m₁, hx, hi, hc, rfl⟩ := hp
  obtain ⟨a', i', c', j', base', m₁', hx', hi', hc', rfl⟩ := hq
  cases hx.symm.trans hx'
  cases hi.symm.trans hi'
  cases hc.symm.trans hc'
  rfl

/-- What was taken as the address of an expression with the value `r`: a pointer into a
    block of its own, or the place of the element as which the expression is written. -/
def AddressOf (e : Engine) (k : Nat) (x : Node) (m : Machine) (r : Ref) (m₁ : Machine) (p : Pointer) : Prop :=
  m.heap.blocks.size ≤ p.block.id ∧ (∀ a i, x.construct ≠ .index a i) ∨
    ElementAt e k x m p ∧ ∃ slot, m₁.heap.slotOf p = .ok slot ∧ r = m₁.heap.flatten slot

/-- An address in a block that was there is the place of an element. -/
theorem AddressOf.block_lt_iff (hp : AddressOf e k x m r m₁ p) :
    p.block.id < m.heap.blocks.size ↔ ∃ q, ElementAt e k x m q ∧ q.block.id < m.heap.blocks.size := by
  rcases hp with ⟨hnew, hc⟩ | ⟨hat, -⟩
  · refine iff_of_false (Nat.not_lt.2 hnew) ?_
    rintro ⟨q, ⟨a, i, c, j, base, m₂, hindex, -⟩, -⟩
    exact hc a i hindex
  · refine ⟨fun hold => ⟨p, hat, hold⟩, ?_⟩
    rintro ⟨q, hat', hold⟩
    exact hat.unique hat' ▸ hold

section Address

variable (hm : m.Sound) (hx : x.Inert) (hr : valueOf (evaluate e k) x m = .ok r m₁) (hk : k ≤ fuel)
include hm hx hr hk

/-- The address of an element is its place. -/
theorem exists_elementAddress {a i : Node} (hc : x.construct = .index a i) :
    ∃ p s m₂, valueOf (evaluate e (fuel + 1)) (Build.addressOf x) m = .ok s m₂ ∧ m₂.heap.cell s = .pointer p ∧
      m₂.heap.Inside p ∧ ElementAt e k x m p ∧ ∃ slot, m₁.heap.slotOf p = .ok slot ∧ r = m₁.heap.flatten slot := by
  have ha : a.Inert := hx.child (by rw [hc]; simp)
  have hi : i.Inert := hx.child (by rw [hc]; simp)
  obtain ⟨k₀, t, c, j, slot, rfl, hindexed, helement, hflat⟩ := exists_of_index hc hr
  obtain ⟨base, hdecays, hplace⟩ := Heap.exists_of_element helement
  have hm₀ : Machine.Sound { m with nearest := t } := ⟨hm.heap, hm.state⟩
  -- with more fuel container and index are found as before
  have hagain (n : Nat) (hn : k₀ ≤ n) :
      ∃ m', indexed (evaluate e n) a i m = .ok (c, j) m' ∧ m'.heap = m₁.heap :=
    rerun hm₀ (Eq.refl m.heap) rfl rfl (tracks_indexed (fun n node => tracks_evaluate trivial e (.of_le hn) n node) a i)
      hindexed
  obtain ⟨m₂, hindexed₂, hheap₂⟩ := hagain (k₀ + 1) (Nat.le_succ k₀)
  obtain ⟨m₃, hindexed₃, hheap₃⟩ := hagain fuel (Nat.le_of_succ_le hk)
  have hinside : m₁.heap.Inside (base.moved j) := Heap.inside_of_slotOf hplace
  have hdecays₃ : (m₃.heap.cell c).Decays base := hheap₃ ▸ hdecays
  rw [← hheap₃] at hinside
  have haddress := run_addressOf hc hindexed₃ hdecays₃ ⟨hinside.1, Int.le_of_lt hinside.2⟩ (.pointer x.ty)
  refine ⟨base.moved j, m₃.newest, m₃.holding (base.moved j), ?_, Machine.cell_holding, hinside, ?_, slot, hplace,
    hflat⟩
  · obtain ⟨m₄, v, ha₄, hi₄⟩ := exists_of_indexed hindexed₃
    exact run_newPointer haddress ((valueDepth_le_of_valueOf ha₄).trans (valueDepth_le_of_valueOf hi₄))
  · exact ⟨a, i, c, j, base, m₂, hc, hindexed₂, Heap.pointer?_of_decays (hheap₂ ▸ hdecays), rfl⟩

/-- The address of any other expression is a pointer into a block of its own. -/
theorem exists_valueAddress (hc : ∀ a i, x.construct ≠ .index a i) :
    ∃ p s m₂, valueOf (evaluate e (fuel + 1)) (Build.addressOf x) m = .ok s m₂ ∧ m₂.heap.cell s = .pointer p ∧
      m₂.heap.Inside p ∧ m.heap.blocks.size ≤ p.block.id := by
  obtain ⟨m₂, hr₂, hheap⟩ : ∃ m₂, valueOf (evaluate e fuel) x m = .ok r m₂ ∧ m₂.heap = m₁.heap :=
    rerun hm rfl rfl rfl (tracks_valueOf (fun n node => tracks_evaluate trivial e (.of_le hk) n node) x) hr
  obtain ⟨s, h, hpointer, hcell, hsize⟩ := exists_toPointer r m₂.heap
  let m₃ : Machine := { m₂ with heap := h }
  have hmade : (liftM (toPointer r) : Eval Ref) m₂ = .ok s m₃ := run_mem hpointer
  have haddress : addressOf (evaluate e fuel) x =
      (do yield (← toPointer (← valueOf (evaluate e fuel) x))) := by
    unfold addressOf
    split
    · rename_i a i hindex
      exact absurd hindex (hc a i)
    · rfl
  have hnode : evaluate e (fuel + 1) (Build.addressOf x) m = .ok .normal (m₃.leaving s) := by
    refine run_placed_ok _ ?_
    change addressOf (evaluate e fuel) x m = _
    rw [haddress, run_bind hr₂, run_bind hmade]
    rfl
  have hle : m.state.valueDepth ≤ m₂.state.valueDepth := valueDepth_le_of_valueOf hr₂
  have hvalue : valueOf (evaluate e (fuel + 1)) (Build.addressOf x) m = .ok (m₃.heap.flatten s) m₃ :=
    run_valueOf hnode hle
  refine ⟨_, s, m₃, ?_, hcell, ?_, (grows_valueOf hx hr₂).heap.blocks_le⟩
  · rw [hvalue, Heap.flatten_of_pointer hcell]
  · unfold Heap.Inside
    rw [hsize]
    change 0 ≤ (0 : Int64).toInt ∧ (0 : Int64).toInt < ((1 : Nat) : Int)
    decide

theorem exists_address :
    ∃ p s m₂, valueOf (evaluate e (fuel + 1)) (Build.addressOf x) m = .ok s m₂ ∧ m₂.heap.cell s = .pointer p ∧
      m₂.heap.Inside p ∧ AddressOf e k x m r m₁ p := by
  by_cases hc : ∃ a i, x.construct = .index a i
  · obtain ⟨a, i, hc⟩ := hc
    obtain ⟨p, s, m₂, hs, hp, hin, helement⟩ := exists_elementAddress hm hx hr hk hc
    exact ⟨p, s, m₂, hs, hp, hin, .inr helement⟩
  · have hc : ∀ a i, x.construct ≠ .index a i := fun a i h => hc ⟨a, i, h⟩
    obtain ⟨p, s, m₂, hs, hp, hin, hnew⟩ := exists_valueAddress hm hx hr hk hc
    exact ⟨p, s, m₂, hs, hp, hin, .inl ⟨hnew, hc⟩⟩

end Address

/-! ## Comparing addresses -/

/-- Two pointers, each as it is found on the machine. The second is evaluated when there
    is more on the heap, so they are the same place only if it was there at first. -/
theorem tells_places {n : Nat} (hm : m.Sound) (ha : m.heap.Anchored) (hx : x.Inert) (hy : y.Inert)
    (hord : m.heap.layout.InOrder ∨ y.Unordered)
    (hr : valueOf (evaluate e n) x m = .ok r m₁) (hp : (m₁.heap.cell r).Decays p) (hpin : m₁.heap.Inside p)
    (hs : valueOf (evaluate e k) y m = .ok s m₂) (hq : (m₂.heap.cell s).Decays q) (hqin : m₂.heap.Inside q)
    (hk : k ≤ n) :
    ∃ b, Tells e (n + 1) (Build.binary .eq x y) m b ∧ Tells e (n + 1) (Build.binary .ne x y) m (!b) ∧
      (b = true ↔ q.block = p.block ∧ q.offset = p.offset ∧ p.block.id < m.heap.blocks.size) := by
  obtain ⟨m₃, hs₃, hh⟩ := valueOf_again hm ha hy hord hs (grows_valueOf hx hr) hk
  have hp₃ : m₃.heap.Inside p := hpin.of_adds (grows_valueOf hy hs₃).heap
  have hq₃ : m₃.heap.Inside ((m.heap.gap m₁.heap).pointer q) := hh.inside hqin
  obtain ⟨heq, hne⟩ := pointerPair_inside hp₃ hq₃
  exact ⟨_, tells_comparison rfl hr hp hs₃ (hh.decays hq) heq, tells_comparison rfl hr hp hs₃ (hh.decays hq) hne,
    Heap.sameTarget_gap hpin.block_lt hp₃ hq₃⟩

/-- Of two elements in one place that was there, the values are the same. -/
theorem eq_of_samePlace (hm : m.Sound) (hadds : m.heap.Adds m₁.heap) (hadds₂ : m.heap.Adds m₂.heap)
    {slot slot' : Ref} (hslot : m₁.heap.slotOf p = .ok slot) (hslot' : m₂.heap.slotOf q = .ok slot')
    (hblock : q.block = p.block) (hoffset : q.offset = p.offset) (hold : p.block.id < m.heap.blocks.size) :
    m₁.heap.flatten slot = m₂.heap.flatten slot' := by
  have hfound : slotAt? (m.heap.block p.block) p.offset = some slot := by
    rw [← hadds.block p.block hold]
    exact Heap.slotOf_eq_ok.1 hslot
  have hfound' : slotAt? (m.heap.block p.block) p.offset = some slot' := by
    rw [← hadds₂.block p.block hold, ← hblock, ← hoffset]
    exact Heap.slotOf_eq_ok.1 hslot'
  obtain rfl : slot = slot' := Option.some.inj (hfound.symm.trans hfound')
  have hlt : slot.id < m.heap.cells.size := hm.heap.slotOf_lt (Heap.slotOf_eq_ok.2 hfound)
  unfold Heap.flatten
  rw [hadds.cell slot hlt, hadds₂.cell slot hlt]

end Eval

/-! ## Paths -/

namespace Node.Throughout

variable {P : Construct Node → Prop} {x : Node} (hx : x.Throughout P)
include hx

theorem addressOf (hown : P (.addressOf x)) : (Build.addressOf x).Throughout P :=
  .mk hown (by simpa [Build.addressOf, Build.node, Node.construct] using hx)

theorem deref (hown : P (.deref x)) : (Build.deref x).Throughout P :=
  .mk hown (by simpa [Build.deref, Build.node, Node.construct] using hx)

end Node.Throughout

/-- A name, or a field, an element or what is pointed at, of what is reached so. -/
inductive Node.Path : Node → Prop
  | id {n : Node} {name : String} : n.construct = .id name → Path n
  | field {n owner : Node} {name : String} : n.construct = .field owner name → Path owner → Path n
  | index {n a i : Node} : n.construct = .index a i → Path a → i.Inert → Path n
  | deref {n operand : Node} : n.construct = .deref operand → Path operand → Path n

theorem Node.Path.inert {n : Node} (hn : n.Path) : n.Inert := by
  induction hn with
  | id hc => exact .mk (by rw [hc]; rfl) (by rw [hc]; exact nofun)
  | field hc _ ih => exact .mk (by rw [hc]; rfl) (by rw [hc]; simpa using ih)
  | index hc _ hi ih => exact .mk (by rw [hc]; rfl) (by rw [hc]; simpa using ⟨ih, hi⟩)
  | deref hc _ ih => exact .mk (by rw [hc]; rfl) (by rw [hc]; simpa using ih)

namespace Heap.Sound

variable {h h' : Heap} {c v : Ref} {p : Pointer} (hs : h.Sound) (ha : h.Anchored)
include hs ha

/-- What is read off a value that was there was there. -/
theorem read_lt (hadds : h.Adds h') {f : Heap → Ref → Except Cause Ref}
    (hread : ∀ {ρ : Relocation} {h h' : Heap}, h.Relocated ρ h' → ∀ r, f h' (ρ.ref r) = (f h r).map ρ.ref)
    (hlt : ∀ {r v}, f h r = .ok v → v.id < h.cells.size) (hc : c.id < h.cells.size)
    (hv : f h' c = .ok v) : (h'.flatten v).id < h.cells.size := by
  have hh := hs.relocated ha hadds
  have hfixed {r : Ref} (hr : r.id < h.cells.size) : (h.gap h').ref r = r := Relocation.ref_of_lt hr
  have hold := hread hh c
  rw [hfixed hc, hv] at hold
  cases hv₀ : f h c with
  | error => rw [hv₀] at hold; cases hold
  | ok v₀ =>
    rw [hv₀] at hold
    obtain rfl : v = (h.gap h').ref v₀ := Except.ok.inj hold
    have hflat := hs.flatten_lt (hlt hv₀)
    rw [hh.flatten, hfixed hflat]
    exact hflat

end Heap.Sound

namespace Eval

variable {e : Engine} {k fuel : Nat} {x y : Node} {m m₁ m₂ : Machine} {r s : Ref} {p q : Pointer}

/-- All values that the node evaluates to were there. -/
def Finds (e : Engine) (x : Node) : Prop :=
  ∀ {k m r m₁}, m.Sound → m.heap.Anchored → valueOf (evaluate e k) x m = .ok r m₁ → r.id < m.heap.cells.size

/-- What is read off a value that was there. -/
theorem finds_access {a : Node} {f : Heap → Ref → Except Cause Ref}
    (hx : ∀ k₀, dispatch e k₀ (evaluate e k₀) x = valueOf (evaluate e k₀) a >>= fun c => look? (f · c) >>= yield)
    (hread : ∀ {ρ : Relocation} {h h' : Heap}, h.Relocated ρ h' → ∀ r, f h' (ρ.ref r) = (f h r).map ρ.ref)
    (hlt : ∀ {h : Heap} {r v}, h.Sound → f h r = .ok v → v.id < h.cells.size) (ha : a.Inert) (hfinds : Finds e a) :
    Finds e x := by
  intro k m r m₁ hm hanchored hr
  obtain ⟨k₀, t, v, -, hv, rfl⟩ :=
    exists_of_yield (fun k₀ => (hx k₀).trans (bind_assoc ..).symm) hr
  obtain ⟨c, m₂, hc, hv⟩ := bind_eq_ok_iff.1 hv
  obtain ⟨hv, rfl⟩ := look?_eq_ok_iff.1 hv
  have hadds := (grows_valueOf ha hc).heap
  have hm₀ : Machine.Sound { m with nearest := t } := ⟨hm.heap, hm.state⟩
  have hc₀ := hfinds hm₀ hanchored hc
  exact hm.heap.read_lt hanchored hadds hread (hlt hm.heap) hc₀ hv

theorem finds_index {a i : Node} (hx : x.construct = .index a i) (ha : a.Inert) (hi : i.Inert) (hfinds : Finds e a) :
    Finds e x := by
  intro k m r m₁ hm hanchored hr
  obtain ⟨k₀, t, c, j, v, -, hindexed, hv, rfl⟩ := exists_of_index hx hr
  obtain ⟨m₂, w, hcontainer, hindex⟩ := exists_of_indexed hindexed
  have hadds := IsTrans.trans _ _ _ (grows_valueOf ha hcontainer).heap (grows_valueOf hi hindex).heap
  have hm₀ : Machine.Sound { m with nearest := t } := ⟨hm.heap, hm.state⟩
  have hc₀ := hfinds hm₀ hanchored hcontainer
  exact hm.heap.read_lt hanchored hadds (f := fun h c => h.element c j) (fun hh c => hh.element c j)
    hm.heap.element_lt hc₀ hv

/-- A path leads to what was there. -/
theorem finds_path (hx : x.Path) : Finds e x := by
  induction hx with
  | id hc =>
    intro k m r m₁ hm _ hr
    obtain ⟨v, hnamed, rfl, -⟩ := exists_of_id hc hr
    exact hm.heap.flatten_lt (named_in hm.state hnamed)
  | @field n owner name hc hpath ih =>
    refine finds_access (f := fun h c => h.fieldOf c name) (fun k₀ => ?_) (fun hh c => hh.fieldOf c name)
      (fun hs => hs.fieldOf_lt) hpath.inert ih
    unfold dispatch
    rw [hc]
    rfl
  | index hc hpath hi ih => exact finds_index hc hpath.inert hi ih
  | deref hc hpath ih =>
    refine finds_access (fun k₀ => ?_) Heap.Relocated.referent (fun hs => hs.referent_lt) hpath.inert ih
    unfold dispatch
    rw [hc]
    rfl

/-- The elements of a path are in blocks that were there. -/
theorem block_lt_of_path (hx : x.Path) (hm : m.Sound) (ha : m.heap.Anchored) (hp : ElementAt e k x m p) :
    p.block.id < m.heap.blocks.size := by
  obtain ⟨a, i, c, j, base, m₁, hc, hindexed, hbase, rfl⟩ := hp
  cases hx with
  | index hc' hpath hi =>
    cases hc.symm.trans hc'
    obtain ⟨m₂, v, hcontainer, hindex⟩ := exists_of_indexed hindexed
    have hadds := IsTrans.trans _ _ _ (grows_valueOf hpath.inert hcontainer).heap (grows_valueOf hi hindex).heap
    have hfixed : (m.heap.gap m₁.heap).ref c = c := Relocation.ref_of_lt (finds_path hpath hm ha hcontainer)
    have hpointer := (hm.heap.relocated ha hadds).pointer? c
    rw [hfixed, hbase] at hpointer
    obtain ⟨base₀, hbase₀, rfl⟩ := Option.map_eq_some_iff.1 hpointer.symm
    have hold := ha.pointer? hbase₀
    have hblock : (m.heap.gap m₁.heap).block base₀.block = base₀.block := Relocation.block_of_lt hold
    change ((m.heap.gap m₁.heap).block base₀.block).id < m.heap.blocks.size
    rwa [hblock]
  | id hc' | field hc' | deref hc' => cases hc.symm.trans hc'

/-- On every machine that is sound and anchored, as are all that a session reaches, for
    expressions without effects that evaluate without a fault, where new blocks are put after
    the others or it is not asked which come first. The address of an expression equals the
    address of the same expression exactly if it is written as an element of storage that was
    there; for a path, exactly if it is written as an element.
    The address of what a pointer leads to does not equal the pointer. The addresses of
    different values are not equal. -/
theorem address_comparison (hm : m.Sound) (ha : m.heap.Anchored) (hx : x.Inert)
    (hord : m.heap.layout.InOrder ∨ x.Unordered) (hr : valueOf (evaluate e k) x m = .ok r m₁) (hk : k + 3 ≤ fuel) :
    (∃ b, Tells e fuel (Build.binary .eq (Build.addressOf x) (Build.addressOf x)) m b ∧
      (b = true ↔ ∃ p, ElementAt e k x m p ∧ p.block.id < m.heap.blocks.size) ∧
      (x.Path → (b = true ↔ ∃ a i, x.construct = .index a i))) ∧
    (∀ p, (m₁.heap.cell r).Decays p → m₁.heap.Inside p →
      Tells e fuel (Build.binary .eq (Build.addressOf (Build.deref x)) x) m false) ∧
    ∀ y s m₂, y.Inert → (m.heap.layout.InOrder ∨ y.Unordered) → valueOf (evaluate e k) y m = .ok s m₂ → s ≠ r →
      Tells e fuel (Build.binary .eq (Build.addressOf x) (Build.addressOf y)) m false ∧
      Tells e fuel (Build.binary .ne (Build.addressOf x) (Build.addressOf y)) m true := by
  obtain ⟨n, rfl⟩ : ∃ n, fuel = n + 2 := ⟨fuel - 2, by omega⟩
  have hkn : k ≤ n := by omega
  have hkn' : k + 1 ≤ n := by omega
  have haddress {y : Node} (hordy : m.heap.layout.InOrder ∨ y.Unordered) :
      m.heap.layout.InOrder ∨ (Build.addressOf y).Unordered :=
    hordy.imp_right fun hy => hy.addressOf Bool.false_ne_true
  obtain ⟨p, t, m₃, ht, hp, hpin, hpx⟩ := exists_address hm hx hr hkn
  refine ⟨?_, fun q hq hqin => ?_, fun y s m₂ hy hordy hs hne => ?_⟩
  · obtain ⟨b, hb, -, hiff⟩ := tells_places hm ha (hx.addressOf rfl) (hx.addressOf rfl) (haddress hord) ht (.inl hp)
      hpin ht (.inl hp) hpin (Nat.le_refl _)
    have hold : b = true ↔ p.block.id < m.heap.blocks.size := hiff.trans (by simp)
    refine ⟨b, hb, hold.trans hpx.block_lt_iff, fun hpath => ⟨fun htrue => ?_, fun hindex => ?_⟩⟩
    · obtain ⟨q, ⟨a, i, -, -, -, -, hindex, -⟩, -⟩ := hpx.block_lt_iff.1 (hold.1 htrue)
      exact ⟨a, i, hindex⟩
    · obtain ⟨a, i, hindex⟩ := hindex
      rcases hpx with ⟨-, hc⟩ | ⟨hat, -⟩
      · exact absurd hindex (hc a i)
      · exact hold.2 (block_lt_of_path hpath hm ha hat)
  · obtain ⟨slot, hslot⟩ := Heap.slotOf_inside hqin
    have hderef : valueOf (evaluate e (k + 1)) (Build.deref x) m = .ok (m₁.heap.flatten slot) m₁ :=
      run_valueOf (run_deref hr (Heap.referent_of_decays hq hslot) _) (valueDepth_le_of_valueOf hr)
    obtain ⟨p', t', m₄, ht', hp', hpin', hpx'⟩ := exists_address hm (hx.deref rfl) hderef hkn'
    obtain ⟨b, hb, -, hiff⟩ := tells_places hm ha ((hx.deref rfl).addressOf rfl) hx hord ht' (.inl hp') hpin' hr hq hqin
      (by omega)
    obtain rfl : b = false := by
      refine Bool.eq_false_iff.2 fun htrue => ?_
      obtain ⟨q', ⟨a, i, -, -, -, -, hindex, -⟩, -⟩ := hpx'.block_lt_iff.1 (hiff.1 htrue).2.2
      cases hindex
    exact hb
  · obtain ⟨q, t', m₄, ht', hq, hqin, hqy⟩ := exists_address hm hy hs hkn
    obtain ⟨b, hb, hb', hiff⟩ := tells_places hm ha (hx.addressOf rfl) (hy.addressOf rfl) (haddress hordy) ht (.inl hp) hpin
      ht' (.inl hq) hqin (Nat.le_refl _)
    obtain rfl : b = false := by
      refine Bool.eq_false_iff.2 fun htrue => ?_
      obtain ⟨hblock, hoffset, hold⟩ := hiff.1 htrue
      rcases hpx with ⟨hnew, -⟩ | ⟨-, slot, hslot, hrslot⟩
      · exact absurd hold (Nat.not_lt.2 hnew)
      rcases hqy with ⟨hnew, -⟩ | ⟨-, slot', hslot', hsslot⟩
      · exact absurd hold (Nat.not_lt.2 (hblock ▸ hnew))
      have hsame := eq_of_samePlace hm (grows_valueOf hx hr).heap (grows_valueOf hy hs).heap hslot hslot' hblock
        hoffset hold
      exact hne (hsslot.trans (hsame.symm.trans hrslot.symm))
    exact ⟨hb, hb'⟩

/-- A name for an array of two numbers. -/
def rowNamed : Machine where
  heap := leaves (createValue {} (.array .int (some 2))) {}
  state := State.bind {} "a" ⟨4⟩

/-- Of an array, an element has one address, what the array leads to has another than the
    array, and two elements have two. -/
theorem row_addresses :
    let a := Build.id "a" (.array .int (some 2))
    let first := Build.addressOf (Build.index a (Build.int 0))
    let second := Build.addressOf (Build.index a (Build.int 1))
    Tells noProgram 5 (Build.binary .eq second second) rowNamed true ∧
    Tells noProgram 5 (Build.binary .eq (Build.addressOf (Build.deref a)) a) rowNamed false ∧
    Tells noProgram 5 (Build.binary .eq second first) rowNamed false := by
  intro a first second
  have hcreate : createValue {} (.array .int (some 2)) {} = .ok ⟨4⟩ rowNamed.heap := rfl
  have hheap : rowNamed.heap.Sound := ((makes_createValue {} _ .empty).of_ok hcreate).sound
  have hempty : State.In 5 {} := ⟨nofun, nofun, nofun, nofun, nofun⟩
  have hm : rowNamed.Sound := ⟨hheap, hempty.bind "a" (Nat.lt_succ_self 4)⟩
  have ha : rowNamed.heap.Anchored := ((anchors_createValue {} _ {} .empty (Nat.zero_le _)).of_ok hcreate).1
  have hpath : a.Path := .id rfl
  have helement (i : Int64) : (Build.index a (Build.int i)).Path := .index rfl hpath (.mk rfl nofun)
  have harray : valueOf (evaluate noProgram 2) a rowNamed = .ok ⟨4⟩ rowNamed := rfl
  obtain ⟨m₂, hfirst⟩ : ∃ m₂, valueOf (evaluate noProgram 2) (Build.index a (Build.int 0)) rowNamed = .ok ⟨0⟩ m₂ :=
    ⟨_, rfl⟩
  obtain ⟨m₁, hsecond⟩ : ∃ m₁, valueOf (evaluate noProgram 2) (Build.index a (Build.int 1)) rowNamed = .ok ⟨1⟩ m₁ :=
    ⟨_, rfl⟩
  obtain ⟨⟨b, hb, -, hwritten⟩, -, hothers⟩ :=
    address_comparison hm ha (helement 1).inert (.inl Layout.inOrder_consecutive) hsecond (Nat.le_refl 5)
  obtain rfl : b = true := (hwritten (helement 1)).2 ⟨_, _, rfl⟩
  obtain ⟨-, hderef, -⟩ := address_comparison hm ha hpath.inert (.inl Layout.inOrder_consecutive) harray (Nat.le_refl 5)
  refine ⟨hb, hderef ⟨.int, ⟨0⟩, 0⟩ (.inr ⟨rfl, rfl⟩) (by decide), ?_⟩
  exact (hothers _ _ _ (helement 0).inert (.inl Layout.inOrder_consecutive) hfirst (by decide)).1

/-- A name for a number. -/
def numberNamed : Machine where
  heap := (({} : Heap).alloc (.primitive (.int 0))).2
  state := State.bind {} "x" ⟨0⟩

/-- The address of a variable is not its address. -/
theorem variable_address_differs :
    let x := Build.id "x" .int
    Tells noProgram 3 (Build.binary .eq (Build.addressOf x) (Build.addressOf x)) numberNamed false :=
  ⟨_, _, rfl, rfl⟩

end Eval

end Treewalk
