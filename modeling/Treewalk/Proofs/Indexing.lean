/-
  Elements, and the pointers that lead to them.

  * `run_binary`, `run_addressOf`, `run_deref` and the lemmas on `Indexes`: how `a + i`,
    `a[i]`, `&a[i]` and `*p` are evaluated, once it is known what their operands are;
  * `pointer_algebra`: pointers move within their block by adding to their offset,
    and the three ways to write an element lead to the same slot, or none does. Where
    the index or the pointer is absent they do not agree.
-/
import Treewalk.Proofs.Comparison
import Treewalk.Proofs.CompoundAssignment
import Treewalk.Proofs.Conversions
import Treewalk.Proofs.Effects
import Treewalk.Proofs.Places
import Treewalk.Proofs.Runs

namespace Treewalk

/-! ## Arrays and pointers as containers -/

namespace Heap

variable {h : Heap} {c : Ref} {base : Pointer} {i : Int64}

/-- The pointer to an element is at most one past the last. -/
def Addressable (h : Heap) (p : Pointer) : Prop :=
  0 ≤ p.offset.toInt ∧ p.offset.toInt ≤ h.blockSize p.block

section Decays

variable (hc : (h.cell c).Decays base)
include hc

theorem cell_ne_of_decays : h.cell c ≠ default := by
  rcases hc with hc | ⟨hc, -⟩ <;> rw [hc] <;> exact nofun

theorem flatten_of_decays : h.flatten c = c := by
  unfold flatten
  rcases hc with hc | ⟨hc, -⟩ <;> rw [hc]

theorem operand_of_decays : h.operand c = .ok (.pointer base) := by
  unfold operand
  rw [flatten_of_decays hc]
  rcases hc with hc | ⟨hc, hzero⟩
  · rw [hc]
  · rw [hc, ← hzero]

theorem pointer?_of_decays : h.pointer? c = some base := by
  unfold pointer?
  rw [flatten_of_decays hc]
  rcases hc with hc | ⟨hc, hzero⟩
  · rw [hc]
  · rw [hc, ← hzero]

theorem element_inside {s : Ref} (hs : h.slotOf (base.moved i) = .ok s) : h.element c i = .ok s := by
  unfold element
  rcases hc with hc | ⟨hc, hzero⟩
  · rw [hc]
    exact hs
  · rw [hc]
    refine slotIn_eq_ok.2 ((slotOf_eq_ok.1 hs).symm.trans ?_).symm
    unfold Pointer.moved
    rw [hzero, Int64.zero_add]

theorem element_outside (hout : ¬ h.Inside (base.moved i)) : ∃ e, h.element c i = .error (.access e) := by
  unfold element
  rcases hc with hc | ⟨hc, hzero⟩
  · rw [hc]
    exact slotOf_outside hout
  · rw [hc]
    unfold Inside Pointer.moved at hout
    rw [hzero, Int64.zero_add] at hout
    exact ⟨_, slotIn_outside hout⟩

theorem elementAddress_inside (hp : h.Addressable (base.moved i)) :
    h.elementAddress c i = .ok (base.moved i) := by
  have hneg : ¬ (base.moved i).offset < 0 := fun hlt =>
    absurd (Int64.lt_iff_toInt_lt.1 hlt) (Int.not_lt_of_ge hp.1)
  have hsize : ¬ h.blockSize (base.moved i).block < (base.moved i).offset.toInt.toNat := by
    have := hp.2
    omega
  unfold elementAddress
  rw [pointer?_of_decays hc]
  exact if_neg (not_or.2 ⟨hneg, hsize⟩)

theorem elementAddress_outside (hp : ¬ h.Addressable (base.moved i)) :
    ∃ e, h.elementAddress c i = .error (.access e) := by
  unfold elementAddress
  rw [pointer?_of_decays hc]
  refine ⟨_, if_pos ?_⟩
  by_contra hin
  obtain ⟨hneg, hsize⟩ := not_or.1 hin
  have hnonneg : 0 ≤ (base.moved i).offset.toInt := by
    by_contra hlt
    exact hneg (Int64.lt_iff_toInt_lt.2 (Int.not_le.1 hlt))
  exact hp ⟨hnonneg, by omega⟩

end Decays

/-! ### Absent values -/

theorem indexOf_of_number {n : Primitive} (hn : h.primitive? c = some n) (hint : ¬ n.isFloating) :
    h.indexOf c = .ok n.toInt64 := by
  unfold indexOf
  rw [hn]
  exact if_neg hint

theorem operand_of_number {n : Primitive} (hn : h.primitive? c = some n) : h.operand c = .ok (.number n) := by
  unfold primitive? at hn
  unfold operand
  split at hn
  · rename_i p hcell
    rw [hcell, Option.some.inj hn]
  · cases hn

section Absent

variable (hc : h.isAbsent c)
include hc

theorem cell_ne_of_isAbsent : h.cell c ≠ default := by
  rintro hcell
  unfold isAbsent at hc
  rw [hcell] at hc
  cases hc

theorem cell_of_isAbsent : ∃ ty, h.cell c = .slot ty none := by
  unfold isAbsent at hc
  split at hc
  · exact ⟨_, by assumption⟩
  · cases hc

theorem flatten_of_isAbsent : h.flatten c = c := by
  obtain ⟨ty, hcell⟩ := cell_of_isAbsent hc
  unfold flatten
  rw [hcell]

theorem operand_of_isAbsent : h.operand c = .ok .absent := by
  obtain ⟨ty, hcell⟩ := cell_of_isAbsent hc
  unfold operand
  rw [flatten_of_isAbsent hc, hcell]

/-- As an index an absent value is zero. -/
theorem indexOf_of_isAbsent : h.indexOf c = .ok 0 := by
  obtain ⟨ty, hcell⟩ := cell_of_isAbsent hc
  have hnumber : h.primitive? c = none := by
    unfold primitive?
    rw [flatten_of_isAbsent hc, hcell]
  unfold indexOf
  rw [hnumber]
  exact if_pos hc

theorem element_of_isAbsent (i : Int64) : h.element c i = .error (.access .indexIntoAbsent) := by
  obtain ⟨ty, hcell⟩ := cell_of_isAbsent hc
  unfold element
  rw [hcell]

theorem elementAddress_of_isAbsent (i : Int64) :
    h.elementAddress c i = .error (.malformed (.elementOf (h.cell c).variant)) := by
  obtain ⟨ty, hcell⟩ := cell_of_isAbsent hc
  have hpointer : h.pointer? c = none := by
    unfold pointer?
    rw [flatten_of_isAbsent hc, hcell]
  unfold elementAddress
  rw [hpointer]

end Absent

theorem referent_pointer {p : Pointer} (hc : h.cell c = .pointer p) : h.referent c = h.slotOf p := by
  unfold referent
  rw [hc]

end Heap

namespace Machine

/-- The machine with a new pointer in its heap. -/
def holding (m : Machine) (p : Pointer) : Machine :=
  { m with heap := (m.heap.alloc (.pointer p)).2 }

/-- The machine with one more operand. -/
def leaving (m : Machine) (r : Ref) : Machine :=
  { m with state := m.state.push r }

variable {m : Machine} {p : Pointer}

/-- The new pointer. -/
def newest (m : Machine) : Ref :=
  ⟨m.heap.cells.size⟩

theorem cell_holding : (m.holding p).heap.cell m.newest = .pointer p :=
  Heap.cell_alloc_new m.heap (.pointer p)

end Machine

namespace Eval

variable {e : Engine} {k : Nat} {a i : Node} {m m₁ m₂ : Machine} {c x : Ref} {p base : Pointer} {n : Primitive}

/-! ## Faults -/

/-- The computation ends with a fault of such a cause. -/
def Faults {α : Type} (C : Cause → Prop) (x : Eval α) (m : Machine) : Prop :=
  ∃ f m', x m = .error (.fault f) m' ∧ C f.cause

/-- The computation ends with an access error. -/
abbrev FaultsAccess {α : Type} (x : Eval α) (m : Machine) : Prop :=
  Faults (fun c => ∃ err, c = .access err) x m

namespace Faults

variable {α β : Type} {C : Cause → Prop} {x : Eval α}

theorem placed (hx : Faults C x m) (l : Option Location) : Faults C (Eval.placed l x) m := by
  obtain ⟨f, m', hx, hf⟩ := hx
  refine ⟨f.orLocation l, m', ?_, hf⟩
  unfold Eval.placed
  rw [hx]

theorem bind (hx : Faults C x m) (f : α → Eval β) : Faults C (x >>= f) m := by
  obtain ⟨fault, m', hx, hf⟩ := hx
  exact ⟨fault, m', run_bind_error hx, hf⟩

theorem of_bind {f : α → Eval β} {r : α} (hx : x m = .ok r m₁) (hf : Faults C (f r) m₁) :
    Faults C (x >>= f) m := by
  obtain ⟨fault, m', hf, hcause⟩ := hf
  exact ⟨fault, m', (run_bind hx).trans hf, hcause⟩

theorem look? {f : Heap → Except Cause α} {c : Cause} (hf : f m.heap = .error c) (hc : C c) :
    Faults C (Eval.look? f) m := by
  refine ⟨{ cause := c }, m, ?_, hc⟩
  unfold Eval.look?
  rw [hf]

theorem mem {f : Mem α} {c : Cause} {h : Heap} (hf : f m.heap = .error (.of c) h) (hc : C c) :
    Faults C (liftM f : Eval α) m :=
  ⟨{ cause := c }, _, run_mem_error hf, hc⟩

theorem valueOf {ev : Evaluator} {node : Node} (hn : Faults C (ev node) m) :
    Faults C (Eval.valueOf ev node) m := by
  obtain ⟨f, m', hn, hf⟩ := hn
  exact ⟨f, m', run_valueOf_error hn, hf⟩

/-- What faults cannot be dereferenced either. -/
theorem deref {operand : Node} (ho : Faults C (evaluate e k operand) m) (ty : Ty) :
    Faults C (evaluate e (k + 1) (Build.node (.deref operand) ty)) m :=
  Faults.placed (ho.valueOf.bind _) _

end Faults

/-! ## Pointers as values -/

/-- A node without a token is evaluated by its construct alone. -/
theorem run_node (con : Construct Node) (ty : Ty) (m : Machine) :
    evaluate e (k + 1) (Build.node con ty) m =
      placed (Build.node con ty).location? (dispatch e k (evaluate e k) (Build.node con ty)) m :=
  rfl

/-- A binary operation, once it is known what its operands are. -/
theorem run_binary {op : BinaryOp} {l o : Operand} {v w : Ref} {h h' : Heap} {ty : Ty} (hop : op.isLogical = false)
    (ha : valueOf (evaluate e k) a m = .ok c m₁) (hl : m₁.heap.operand c = .ok l)
    (hi : valueOf (evaluate e k) i m₁ = .ok x m₂) (ho : m₂.heap.operand x = .ok o)
    (hv : operateOn op l o m₂.heap = .ok v h) (hw : conformToNode v ty h = .ok w h') :
    evaluate e (k + 1) (Build.node (.binary op a i) ty) m =
      .ok .normal ({ m₂ with heap := h' }.leaving w) := by
  have hresult : (liftM (operateOn op l o) : Eval Ref) m₂ = .ok v { m₂ with heap := h } := run_mem hv
  have hconform : (liftM (conformToNode v ty) : Eval Ref) { m₂ with heap := h } = .ok w { m₂ with heap := h' } :=
    run_mem (m := { m₂ with heap := h }) hw
  rw [run_node]
  refine run_placed_ok _ ?_
  change binary (evaluate e k) ty op a i m = _
  unfold binary
  rw [run_bind ha]
  cases op with
  | and | or => cases hop
  | _ =>
    dsimp only
    rw [run_bind (run_mem (Mem.operandOf_eq hl)), run_bind hi, run_bind (run_mem (Mem.operandOf_eq ho)),
      run_bind hresult]
    unfold yieldAs
    rw [run_bind hconform]
    rfl

/-- The address of an element that is there, or would be the next. -/
theorem run_addressOf {n : Node} {j : Int64} (hn : n.construct = .index a i)
    (hi : indexed (evaluate e k) a i m = .ok (c, j) m₂) (hc : (m₂.heap.cell c).Decays base)
    (hp : m₂.heap.Addressable (base.moved j)) (ty : Ty) :
    evaluate e (k + 1) (Build.node (.addressOf n) ty) m =
      .ok .normal ((m₂.holding (base.moved j)).leaving m₂.newest) := by
  rw [run_node]
  refine run_placed_ok _ ?_
  change addressOf (evaluate e k) n m = _
  unfold addressOf
  rw [hn]
  dsimp only
  rw [run_bind hi]
  dsimp only
  rw [run_bind (run_look? (Heap.elementAddress_inside hc hp))]
  rfl

/-- The value of a node that leaves a new pointer. -/
theorem run_newPointer {node : Node} (hn : evaluate e k node m = .ok .normal ((m₂.holding p).leaving m₂.newest))
    (hle : m.state.valueDepth ≤ m₂.state.valueDepth) :
    valueOf (evaluate e k) node m = .ok m₂.newest (m₂.holding p) := by
  have hvalue : valueOf (evaluate e k) node m = .ok ((m₂.holding p).heap.flatten m₂.newest) (m₂.holding p) :=
    run_valueOf hn hle
  rw [hvalue, Heap.flatten_of_pointer Machine.cell_holding]

/-- What a value leads to is left as it is. -/
theorem run_deref {operand : Node} {s : Ref} (hv : valueOf (evaluate e k) operand m = .ok c m₁)
    (hs : m₁.heap.referent c = .ok s) (ty : Ty) :
    evaluate e (k + 1) (Build.node (.deref operand) ty) m = .ok .normal (m₁.leaving s) := by
  rw [run_node]
  refine run_placed_ok _ ?_
  change deref (evaluate e k) operand m = _
  unfold deref
  rw [run_bind hv, run_bind (run_look? hs)]
  rfl

theorem faults_deref {C : Cause → Prop} {operand : Node} {cause : Cause}
    (hv : valueOf (evaluate e k) operand m = .ok c m₁) (hs : m₁.heap.referent c = .error cause) (hC : C cause)
    (ty : Ty) : Faults C (evaluate e (k + 1) (Build.node (.deref operand) ty)) m :=
  Faults.placed (.of_bind hv ((Faults.look? hs hC).bind yield)) _

section Deref

variable {operand : Node} (hv : valueOf (evaluate e k) operand m = .ok m₂.newest (m₂.holding p)) (ty : Ty)
include hv

theorem run_deref_newest {s : Ref} (hs : m₂.heap.slotOf p = .ok s) :
    evaluate e (k + 1) (Build.node (.deref operand) ty) m = .ok .normal ((m₂.holding p).leaving s) :=
  run_deref hv ((Heap.referent_pointer Machine.cell_holding).trans hs) ty

theorem faultsAccess_deref (hp : ¬ m₂.heap.Inside p) :
    FaultsAccess (evaluate e (k + 1) (Build.node (.deref operand) ty)) m := by
  obtain ⟨err, herr⟩ := Heap.slotOf_outside hp
  exact faults_deref hv ((Heap.referent_pointer Machine.cell_holding).trans herr) ⟨err, rfl⟩ ty

end Deref

/-! ## Elements -/

/-- A container and an index have been evaluated. The index has not changed the
    container. -/
structure Indexes (ev : Evaluator) (a i : Node) (m : Machine) (c x : Ref) (m₁ m₂ : Machine) : Prop where
  container : valueOf ev a m = .ok c m₁
  index : valueOf ev i m₁ = .ok x m₂
  kept : m₂.heap.cell c = m₁.heap.cell c

/-- An index without stores and releases leaves the container as it was. -/
theorem Indexes.of_confined (ha : valueOf (evaluate e k) a m = .ok c m₁) (hc : m₁.heap.cell c ≠ default)
    (hi : valueOf (evaluate e k) i m₁ = .ok x m₂)
    (hpure : e.Confined (fun k => k ≠ .store ∧ k ≠ .release) i) :
    Indexes (evaluate e k) a i m c x m₁ m₂ := by
  have hadds : m₁.heap.Adds m₂.heap := ((orderly_valueOf (adds_evaluate hpure k) m₁).of_ok hi).heap
  exact ⟨ha, hi, hadds.cell c (Heap.lt_of_cell_ne hc)⟩

namespace Indexes

variable (hi : Indexes (evaluate e k) a i m c x m₁ m₂)
include hi

theorem valueDepth_le : m.state.valueDepth ≤ m₂.state.valueDepth :=
  (valueDepth_le_of_valueOf hi.container).trans (valueDepth_le_of_valueOf hi.index)

section Element

variable {j : Int64} (hj : m₂.heap.indexOf x = .ok j)
include hj

/-- Container and index as they are found. -/
theorem run_indexed : indexed (evaluate e k) a i m = .ok (c, j) m₂ := by
  unfold indexed
  rw [run_bind hi.container, run_bind hi.index, run_bind (run_look? hj)]
  rfl

/-- The element that is there. -/
theorem run_index (ty : Ty) {s : Ref} (hs : m₂.heap.element c j = .ok s) :
    evaluate e (k + 1) (Build.node (.index a i) ty) m = .ok .normal (m₂.leaving s) := by
  rw [run_node]
  refine run_placed_ok _ ?_
  change Eval.index (evaluate e k) a i m = _
  unfold Eval.index
  rw [run_bind (hi.run_indexed hj)]
  dsimp only
  rw [run_bind (run_look? hs)]
  rfl

theorem faults_index {C : Cause → Prop} {cause : Cause} (hs : m₂.heap.element c j = .error cause)
    (hC : C cause) (ty : Ty) : Faults C (evaluate e (k + 1) (Build.node (.index a i) ty)) m :=
  Faults.placed (.of_bind (hi.run_indexed hj) ((Faults.look? hs hC).bind yield)) _

theorem faults_address {C : Cause → Prop} {cause : Cause} (hp : m₂.heap.elementAddress c j = .error cause)
    (hC : C cause) (ty ty' : Ty) :
    Faults C (evaluate e (k + 1) (Build.node (.addressOf (Build.node (.index a i) ty)) ty')) m :=
  Faults.placed (.of_bind (hi.run_indexed hj) ((Faults.look? hp hC).bind _)) _

/-- The element and its address, if the container is an array or a pointer. -/
theorem run_elements (hc : (m₁.heap.cell c).Decays base) (element address target : Ty) :
    let q := base.moved j
    let indexed := Build.node (.index a i) element
    let addressed := Build.node (.addressOf indexed) address
    (m₂.heap.Inside q → ∃ s, m₂.heap.slotOf q = .ok s ∧
      evaluate e (k + 1) indexed m = .ok .normal (m₂.leaving s) ∧
      evaluate e (k + 2) (Build.node (.deref addressed) target) m = .ok .normal ((m₂.holding q).leaving s)) ∧
    (¬ m₂.heap.Inside q → FaultsAccess (evaluate e (k + 1) indexed) m ∧
      FaultsAccess (evaluate e (k + 2) (Build.node (.deref addressed) target)) m) ∧
    (m₂.heap.Addressable q →
      evaluate e (k + 1) addressed m = .ok .normal ((m₂.holding q).leaving m₂.newest)) ∧
    (¬ m₂.heap.Addressable q → FaultsAccess (evaluate e (k + 1) addressed) m) := by
  intro q indexed addressed
  rw [← hi.kept] at hc
  have haddress (hp : m₂.heap.Addressable q) :
      evaluate e (k + 1) addressed m = .ok .normal ((m₂.holding q).leaving m₂.newest) :=
    run_addressOf rfl (hi.run_indexed hj) hc hp address
  have hfault (hp : ¬ m₂.heap.Addressable q) : FaultsAccess (evaluate e (k + 1) addressed) m := by
    obtain ⟨err, herr⟩ := Heap.elementAddress_outside hc hp
    exact hi.faults_address hj herr ⟨err, rfl⟩ element address
  refine ⟨fun hin => ?_, fun hout => ⟨?_, ?_⟩, haddress, hfault⟩
  · obtain ⟨s, hs⟩ := Heap.slotOf_inside hin
    have hnewest := run_newPointer (haddress ⟨hin.1, Int.le_of_lt hin.2⟩) hi.valueDepth_le
    exact ⟨s, hs, hi.run_index hj element (Heap.element_inside hc hs), run_deref_newest hnewest target hs⟩
  · obtain ⟨err, herr⟩ := Heap.element_outside hc hout
    exact hi.faults_index hj herr ⟨err, rfl⟩ element
  · by_cases hp : m₂.heap.Addressable q
    · exact faultsAccess_deref (run_newPointer (haddress hp) hi.valueDepth_le) target hout
    · exact (hfault hp).deref target

end Element

/-- A pointer plus an integer is the pointer that is moved so far. -/
theorem run_add (hc : (m₁.heap.cell c).Decays base) (hn : m₂.heap.primitive? x = some n) (hint : ¬ n.isFloating)
    (ty : Ty) : evaluate e (k + 1) (Build.node (.binary .add a i) ty) m =
      .ok .normal ((m₂.holding (base.moved n.toInt64)).leaving m₂.newest) := by
  have hsum : operate m₂.heap .add (.pointer base) (.number n) = .ok (.pointer (base.moved n.toInt64)) :=
    pointerAndNumber_add hint false
  exact run_binary rfl hi.container (Heap.operand_of_decays hc) hi.index (Heap.operand_of_number hn)
    (operateOn_ok hsum) (Mem.conformToNode_pointer Machine.cell_holding ty)

/-- An absent value is not added to a pointer. -/
theorem faults_add (hc : (m₁.heap.cell c).Decays base) (hx : m₂.heap.isAbsent x) (ty : Ty) :
    Faults (· = .malformed (.pointerAndAbsent .add)) (evaluate e (k + 1) (Build.node (.binary .add a i) ty)) m := by
  have hsum : operate m₂.heap .add (.pointer base) .absent = .error (.malformed (.pointerAndAbsent .add)) := rfl
  refine Faults.placed ?_ _
  refine .of_bind hi.container (.of_bind (run_mem (Mem.operandOf_eq (Heap.operand_of_decays hc))) ?_)
  refine .of_bind hi.index (.of_bind (run_mem (Mem.operandOf_eq (Heap.operand_of_isAbsent hx))) ?_)
  have hfault : Faults (· = .malformed (.pointerAndAbsent .add))
      (liftM (operateOn .add (.pointer base) .absent) : Eval Ref) m₂ := .mem (Mem.operateOn_error hsum) rfl
  exact hfault.bind _

/-- In place of an absent pointer there is a zero, so that the sum is a number. -/
theorem run_add_number (hc : m₁.heap.isAbsent c) (hn : m₂.heap.primitive? x = some n) {v : Primitive}
    (hv : numberPair .add (.zero n.kind n.unsigned) n = .ok (.number v)) {ty : Ty} (hty : ty.primitive? = none) :
    evaluate e (k + 1) (Build.node (.binary .add a i) ty) m =
      .ok .normal ({ m₂ with heap := (m₂.heap.alloc (.primitive v)).2 }.leaving m₂.newest) := by
  have hsum : operate m₂.heap .add .absent (.number n) = .ok (.number v) := hv
  have hconform : conformToNode m₂.newest ty (m₂.heap.alloc (.primitive v)).2 =
      .ok m₂.newest (m₂.heap.alloc (.primitive v)).2 := by
    unfold conformToNode
    rw [hty, Mem.read_bind]
    rfl
  exact run_binary rfl hi.container (Heap.operand_of_isAbsent hc) hi.index (Heap.operand_of_number hn)
    (operateOn_ok hsum) hconform

/-- Such a sum leads nowhere. -/
theorem faults_deref_add (hc : m₁.heap.isAbsent c) (hn : m₂.heap.primitive? x = some n) {v : Primitive}
    (hv : numberPair .add (.zero n.kind n.unsigned) n = .ok (.number v)) {ty : Ty} (hty : ty.primitive? = none)
    (target : Ty) {C : Cause → Prop}
    (hC : C (if v.isZero then .access .nullPointer else .malformed (.dereferenceOf (Cell.primitive v).variant))) :
    Faults C (evaluate e (k + 2) (Build.node (.deref (Build.node (.binary .add a i) ty)) target)) m := by
  have hcell : (m₂.heap.alloc (.primitive v)).2.cell m₂.newest = .primitive v := Heap.cell_alloc_new ..
  have hvalue := run_valueOf (hi.run_add_number hc hn hv hty) hi.valueDepth_le
  have hflat : (m₂.heap.alloc (.primitive v)).2.flatten m₂.newest = m₂.newest := by
    unfold Heap.flatten
    rw [hcell]
  rw [hflat] at hvalue
  refine faults_deref hvalue ?_ hC target
  unfold Heap.referent
  rw [hcell]
  dsimp only
  split <;> rfl

end Indexes

end Eval

/-! ## The algebra of pointers -/

/-- An integer is added to a zero of its kind. -/
theorem exists_numberPair_zero {n : Primitive} (hn : ¬ n.isFloating) :
    ∃ v, numberPair .add (.zero n.kind n.unsigned) n = .ok (.number v) := by
  obtain ⟨k, u, payload⟩ := n
  cases payload with
  | floating => exact absurd rfl hn
  | integral b => cases k <;> exact ⟨_, rfl⟩

/-- Two integers that are added as `long` are added in 64 bits. -/
theorem numberPair_long {m n : Primitive} (hm : ¬ m.isFloating) (hn : ¬ n.isFloating) (u u' : Bool) :
    ∃ s, numberPair .add (m.converted .long u) (n.converted .long u') = .ok (.number s) ∧ ¬ s.isFloating ∧
      s.toInt64 = m.toInt64 + n.toInt64 := by
  obtain ⟨k, v, payload⟩ := m
  obtain ⟨k', v', payload'⟩ := n
  cases payload with
  | floating => exact absurd rfl hm
  | integral a =>
    cases payload' with
    | floating => exact absurd rfl hn
    | integral b => exact ⟨⟨.long, u || u', .integral (a + b)⟩, by cases u <;> cases u' <;> rfl, nofun, rfl⟩

theorem isZero_long (i j : Int64) : (Primitive.long (i - j)).isZero = (i == j) := by
  have hzero : i - j = 0 ↔ i = j := by
    constructor
    · intro hsub
      rw [← Int64.sub_add_cancel i j, hsub, Int64.zero_add]
    · rintro rfl
      exact Int64.sub_self i
  change (i - j == 0) = (i == j)
  rw [Bool.eq_iff_iff, beq_iff_eq, beq_iff_eq, hzero]

/-- A pointer equals itself, null or not. -/
theorem pointerPair_self (h : Heap) (p : Pointer) : pointerPair h .eq p p = .ok (.truth true) := by
  unfold pointerPair
  by_cases hp : h.hasNoStorage p
  · simp [hp, nullComparison, Heap.isNull]
  · simp [hp, Heap.sameTarget]

/-- Pointers and integers, of any kind. To add one integer and then another to a
    pointer is to add their sum as a `long`; to subtract what was added gives the
    pointer back, and so does adding the distance of two pointers into one block to
    the second. Offsets wrap in 64 bits, and every result has the target of the pointer
    on its left.

    An array or pointer `a` and an index `i` that stores nothing: `a[i]`, `*(a + i)`
    and `*&a[i]` leave the same slot if the offset, wrapped, is inside the block, and
    otherwise all are access errors. The address `&a[i]` may also be one past the last
    element; it is the pointer `a + i`.

    An absent index is zero for `a[i]` and `&a[i]` only: the sum `a + i` is malformed.
    With an absent pointer `a[i]` is an access error and `&a[i]` malformed, while `a + i` is
    a number, and `*(a + i)` an access error just if it is zero. -/
theorem pointer_algebra (e : Engine) (k : Nat) :
    (∀ (h : Heap) (p q : Pointer) (m n : Primitive) (u u' : Bool), q.block = p.block →
      ¬ m.isFloating → ¬ n.isFloating → ∃ p₁ p₂ p₃ s d,
        operate h .add (.pointer p) (.number m) = .ok (.pointer p₁) ∧
        p₁ = { p with offset := p.offset + m.toInt64 } ∧
        operate h .add (.pointer p₁) (.number n) = .ok (.pointer p₂) ∧
        numberPair .add (m.converted .long u) (n.converted .long u') = .ok (.number s) ∧
        operate h .add (.pointer p) (.number s) = .ok (.pointer p₂) ∧ p₂.target = p.target ∧
        operate h .sub (.pointer p₁) (.number m) = .ok (.pointer p) ∧
        operate h .sub (.pointer p) (.pointer q) = .ok (.number d) ∧
        operate h .add (.pointer q) (.number d) = .ok (.pointer p₃) ∧
        p₃ = { p with target := q.target } ∧
        (¬ h.hasNoStorage p → ∃ b, operate h .eq (.pointer p) (.pointer q) = .ok (.truth b) ∧ (d.isZero ↔ b))) ∧
    ∀ (a i : Node) (m m₁ m₂ : Machine) (c x : Ref) (element sum address target : Ty),
      Eval.valueOf (Eval.evaluate e k) a m = .ok c m₁ → Eval.valueOf (Eval.evaluate e k) i m₁ = .ok x m₂ →
      e.Confined (fun k => k ≠ .store ∧ k ≠ .release) i →
      let added := Build.node (.binary .add a i) sum
      let indexed := Build.node (.index a i) element
      let addressed := Build.node (.addressOf indexed) address
      (∀ base q n, (m₁.heap.cell c).Decays base → m₂.heap.primitive? x = some n → ¬ n.isFloating →
        q = base.moved n.toInt64 →
        Eval.evaluate e (k + 1) added m = .ok .normal ((m₂.holding q).leaving m₂.newest) ∧
        (m₂.heap.Inside q → ∃ s, m₂.heap.slotOf q = .ok s ∧
          Eval.evaluate e (k + 1) indexed m = .ok .normal (m₂.leaving s) ∧
          Eval.evaluate e (k + 2) (Build.node (.deref added) target) m = .ok .normal ((m₂.holding q).leaving s) ∧
          Eval.evaluate e (k + 2) (Build.node (.deref addressed) target) m =
            .ok .normal ((m₂.holding q).leaving s)) ∧
        (¬ m₂.heap.Inside q → Eval.FaultsAccess (Eval.evaluate e (k + 1) indexed) m ∧
          Eval.FaultsAccess (Eval.evaluate e (k + 2) (Build.node (.deref added) target)) m ∧
          Eval.FaultsAccess (Eval.evaluate e (k + 2) (Build.node (.deref addressed) target)) m) ∧
        (m₂.heap.Addressable q → Eval.evaluate e (k + 1) addressed m = Eval.evaluate e (k + 1) added m ∧
          operate m₂.heap .eq (.pointer q) (.pointer q) = .ok (.truth true)) ∧
        (¬ m₂.heap.Addressable q → Eval.FaultsAccess (Eval.evaluate e (k + 1) addressed) m)) ∧
      (∀ base, (m₁.heap.cell c).Decays base → m₂.heap.isAbsent x →
        Eval.Faults (· = .malformed (.pointerAndAbsent .add)) (Eval.evaluate e (k + 1) added) m ∧
        Eval.Faults (· = .malformed (.pointerAndAbsent .add))
          (Eval.evaluate e (k + 2) (Build.node (.deref added) target)) m ∧
        (m₂.heap.Inside base → ∃ s, m₂.heap.slotOf base = .ok s ∧
          Eval.evaluate e (k + 1) indexed m = .ok .normal (m₂.leaving s) ∧
          Eval.evaluate e (k + 2) (Build.node (.deref addressed) target) m =
            .ok .normal ((m₂.holding base).leaving s)) ∧
        (¬ m₂.heap.Inside base → Eval.FaultsAccess (Eval.evaluate e (k + 1) indexed) m ∧
          Eval.FaultsAccess (Eval.evaluate e (k + 2) (Build.node (.deref addressed) target)) m) ∧
        (m₂.heap.Addressable base →
          Eval.evaluate e (k + 1) addressed m = .ok .normal ((m₂.holding base).leaving m₂.newest)) ∧
        (¬ m₂.heap.Addressable base → Eval.FaultsAccess (Eval.evaluate e (k + 1) addressed) m)) ∧
      ∀ n, m₁.heap.isAbsent c → m₂.heap.primitive? x = some n → ¬ n.isFloating → sum.primitive? = none →
        Eval.FaultsAccess (Eval.evaluate e (k + 1) indexed) m ∧
        Eval.Faults (fun c => ∃ variant, c = .malformed (.elementOf variant)) (Eval.evaluate e (k + 1) addressed) m ∧
        Eval.Faults (fun c => ∃ variant, c = .malformed (.elementOf variant))
          (Eval.evaluate e (k + 2) (Build.node (.deref addressed) target)) m ∧
        ∃ v, numberPair .add (.zero n.kind n.unsigned) n = .ok (.number v) ∧
          Eval.evaluate e (k + 1) added m =
            .ok .normal ({ m₂ with heap := (m₂.heap.alloc (.primitive v)).2 }.leaving m₂.newest) ∧
          Eval.Faults (fun c => if v.isZero then ∃ err, c = .access err
              else ∃ variant, c = .malformed (.dereferenceOf variant))
            (Eval.evaluate e (k + 2) (Build.node (.deref added) target)) m := by
  constructor
  · intro h p q m n u u' hblock hm hn
    obtain ⟨s, hsum, hs, hadd⟩ := numberPair_long hm hn u u'
    refine ⟨p.moved m.toInt64, (p.moved m.toInt64).moved n.toInt64, _, s, .long (p.offset - q.offset),
      pointerAndNumber_add hm false, rfl, pointerAndNumber_add hn false, hsum, ?_, rfl, ?_, rfl,
      pointerAndNumber_add (n := .long (p.offset - q.offset)) nofun false, ?_, fun hp => ?_⟩
    · rw [Pointer.moved_moved, ← hadd]
      exact pointerAndNumber_add hs false
    · have hback := pointerAndNumber_sub (h := h) (p := p.moved m.toInt64) hm
      rwa [Pointer.moved_neg] at hback
    · have hdistance : (Primitive.long (p.offset - q.offset)).toInt64 = p.offset - q.offset := rfl
      rw [hdistance, Pointer.moved_sub, hblock]
    · exact ⟨_, pointerPair_eq hblock hp, by rw [isZero_long]⟩
  · intro a i m m₁ m₂ c x element sum address target ha hi hpure added indexed addressed
    have hindexes (hc : m₁.heap.cell c ≠ default) := Eval.Indexes.of_confined ha hc hi hpure
    refine ⟨?_, ?_, ?_⟩
    · rintro base q n hc hn hint rfl
      have hindexes := hindexes (Heap.cell_ne_of_decays hc)
      have hadd := hindexes.run_add hc hn hint sum
      have hvalue := Eval.run_newPointer hadd hindexes.valueDepth_le
      obtain ⟨hin, hout, haddress, hfault⟩ :=
        hindexes.run_elements (Heap.indexOf_of_number hn hint) hc element address target
      refine ⟨hadd, fun h => ?_, fun h => ?_, fun h => ⟨(haddress h).trans hadd.symm, pointerPair_self _ _⟩, hfault⟩
      · obtain ⟨s, hs, hindex, hderef⟩ := hin h
        exact ⟨s, hs, hindex, Eval.run_deref_newest hvalue target hs, hderef⟩
      · exact ⟨(hout h).1, Eval.faultsAccess_deref hvalue target h, (hout h).2⟩
    · intro base hc hx
      have hindexes := hindexes (Heap.cell_ne_of_decays hc)
      have hadd := hindexes.faults_add hc hx sum
      have helements := hindexes.run_elements (Heap.indexOf_of_isAbsent hx) hc element address target
      rw [Pointer.moved_zero] at helements
      exact ⟨hadd, hadd.deref target, helements⟩
    · intro n hc hn hint hsum
      have hindexes := hindexes (Heap.cell_ne_of_isAbsent hc)
      have hj := Heap.indexOf_of_number hn hint
      have hc₂ : m₂.heap.isAbsent c := by
        unfold Heap.isAbsent at hc ⊢
        rwa [hindexes.kept]
      have haddress := hindexes.faults_address (C := fun c => ∃ variant, c = .malformed (.elementOf variant)) hj
        (Heap.elementAddress_of_isAbsent hc₂ _) ⟨_, rfl⟩ element address
      obtain ⟨v, hv⟩ := exists_numberPair_zero hint
      refine ⟨hindexes.faults_index hj (Heap.element_of_isAbsent hc₂ _) ⟨_, rfl⟩ element, haddress,
        haddress.deref target, v, hv, hindexes.run_add_number hc hn hv hsum, ?_⟩
      refine hindexes.faults_deref_add hc hn hv hsum target ?_
      split
      · exact ⟨_, rfl⟩
      · exact ⟨_, rfl⟩

/-! ### The element before, and an index that is not there -/

/-- A name for the second of two numbers in a row. -/
def secondNamed : Machine where
  heap := pointersIntoRow
  state := State.bind {} "p" ⟨5⟩

/-- Two numbers in an array, and a string of one character. -/
def twoAndString : Machine :=
  leaves (do
    Eval.bindName "a" (← createValue {} (.array .int (some 2)))
    Eval.bindName "s" (← createString "x") : Eval Unit) {}

/-- `s[1]`, where the string ends -/
def terminator : Node :=
  Build.node (.index (Build.id "s" (.pointer .char)) (Build.int 1)) .char

/-- An array of one pointer, which has been given up. -/
def pointerGone : Machine :=
  leaves (do
    Eval.bindName "q" (← createValue {} (.array (.pointer .int) (some 1)))
    release ⟨.pointer .int, ⟨1⟩, 0⟩ : Eval Unit) {}

/-- `q[0]` -/
def gone : Node :=
  Build.node (.index (Build.id "q" (.array (.pointer .int) (some 1))) (Build.int 0)) (.pointer .int)

/-- After the terminator is evaluated. -/
def terminated : Machine :=
  leaves (Eval.valueOf (Eval.evaluate Eval.noProgram 3) terminator) twoAndString

/-- After what is gone is evaluated. -/
def reached : Machine :=
  leaves (Eval.valueOf (Eval.evaluate Eval.noProgram 3) gone) pointerGone

/-- One before the second number is the first, however it is written. Where the string
    ends there is no index to be added, and what is gone has no elements. -/
theorem first_from_second :
    (let p := Build.id "p" (.pointer .int)
    let back := Build.node (.binary .add p (Build.int (-1))) (.pointer .int)
    let first := Build.node (.index p (Build.int (-1))) .int
    Eval.evaluate Eval.noProgram 2 first secondNamed = .ok .normal
      ({ secondNamed with heap := (secondNamed.heap.alloc (.primitive (.int (-1)))).2 }.leaving ⟨1⟩) ∧
    Eval.evaluate Eval.noProgram 2 (Build.node (.addressOf first) (.pointer .int)) secondNamed =
      Eval.evaluate Eval.noProgram 2 back secondNamed ∧
    ∃ d, operate pointersIntoRow .sub (.pointer ⟨.int, ⟨0⟩, 0⟩) (.pointer ⟨.int, ⟨0⟩, 1⟩) = .ok (.number d) ∧
      operate pointersIntoRow .add (.pointer ⟨.int, ⟨0⟩, 1⟩) (.number d) = .ok (.pointer ⟨.int, ⟨0⟩, 0⟩)) ∧
    (let a := Build.id "a" (.array .int (some 2))
    Eval.Faults (· = .malformed (.pointerAndAbsent .add))
      (Eval.evaluate Eval.noProgram 4 (Build.node (.binary .add a terminator) (.pointer .int))) twoAndString ∧
    ∃ m : Machine, Eval.evaluate Eval.noProgram 4 (Build.node (.index a terminator) .int) twoAndString =
      .ok .normal (m.leaving ⟨2⟩)) ∧
    Eval.FaultsAccess (Eval.evaluate Eval.noProgram 4 (Build.node (.index gone (Build.int 1)) .int)) pointerGone := by
  have halgebra := (pointer_algebra Eval.noProgram 1).1
  have helements := fun k => (pointer_algebra Eval.noProgram k).2
  refine ⟨?_, ?_, ?_⟩
  · have hp : Eval.valueOf (Eval.evaluate Eval.noProgram 1) (Build.id "p" (.pointer .int)) secondNamed =
        .ok ⟨5⟩ secondNamed := Eval.run_id (n := 0) (r := ⟨5⟩) rfl _
    have hindex : Eval.valueOf (Eval.evaluate Eval.noProgram 1) (Build.int (-1)) secondNamed =
        .ok ⟨7⟩ { secondNamed with heap := (secondNamed.heap.alloc (.primitive (.int (-1)))).2 } :=
      Eval.run_int (-1)
    have hpure : Eval.noProgram.Confined (fun k => k ≠ .store ∧ k ≠ .release) (Build.int (-1)) :=
      .of_throughout nofun (.mk nofun nofun)
    obtain ⟨hnumbers, -, -⟩ := helements 1 _ _ _ _ _ _ _ .int (.pointer .int) (.pointer .int) .int
      hp hindex hpure
    obtain ⟨-, hinside, -, haddress, -⟩ := hnumbers _ ⟨.int, ⟨0⟩, 0⟩ (.int (-1)) (.inl rfl) rfl (by decide) (by decide)
    obtain ⟨s, hs, hfirst, -⟩ := hinside (by decide)
    obtain rfl : ⟨1⟩ = s := Except.ok.inj hs
    obtain ⟨_, _, _, _, d, -, -, -, -, -, -, -, hdistance, hback, rfl, -⟩ := halgebra pointersIntoRow
      ⟨.int, ⟨0⟩, 0⟩ ⟨.int, ⟨0⟩, 1⟩ (.int 0) (.int 0) false false rfl (by decide) (by decide)
    exact ⟨hfirst, (haddress ⟨by decide, by decide⟩).1, d, hdistance, hback⟩
  · have hnamed : Eval.named twoAndString.state "a" = .ok ⟨4⟩ := by decide +kernel
    have ha := Eval.run_id (e := Eval.noProgram) (n := 2) hnamed (.array .int (some 2))
    have hi : Eval.valueOf (Eval.evaluate Eval.noProgram 3) terminator twoAndString = .ok ⟨7⟩ terminated :=
      eq_ok_of_outcome (by decide +kernel)
    have hpure : Eval.noProgram.Confined (fun k => k ≠ .store ∧ k ≠ .release) terminator :=
      .of_throughout nofun (.mk nofun fun c hc => by rcases List.mem_pair.1 hc with rfl | rfl <;> exact .mk nofun nofun)
    obtain ⟨-, habsent, -⟩ := helements 3 _ _ _ _ _ _ _ .int (.pointer .int) (.pointer .int) .int
      ha hi hpure
    obtain ⟨hadd, -, hinside, -, -⟩ := habsent ⟨.int, ⟨0⟩, 0⟩ (.inr ⟨by decide +kernel, rfl⟩) (by decide +kernel)
    obtain ⟨s, hs, hfirst, -⟩ := hinside (by decide +kernel)
    have hslot : terminated.heap.slotOf ⟨.int, ⟨0⟩, 0⟩ = .ok ⟨2⟩ := by decide +kernel
    obtain rfl := Except.ok.inj (hslot.symm.trans hs)
    exact ⟨hadd, terminated, hfirst⟩
  · have ha : Eval.valueOf (Eval.evaluate Eval.noProgram 3) gone pointerGone = .ok ⟨1⟩ reached :=
      eq_ok_of_outcome (by decide +kernel)
    have hi := Eval.run_int (e := Eval.noProgram) (n := 2) (m := reached) 1
    have hpure : Eval.noProgram.Confined (fun k => k ≠ .store ∧ k ≠ .release) (Build.int 1) :=
      .of_throughout nofun (.mk nofun nofun)
    obtain ⟨-, -, hnone⟩ := helements 3 _ _ _ _ _ _ _ .int (.pointer .int) (.pointer .int) .int
      ha hi hpure
    exact (hnone (.int 1) (by decide +kernel) (by decide +kernel) (by decide) rfl).1

/-- The element at an index that is not there is the first, but nothing is added to the
    array. -/
theorem absent_not_added :
    let a := Build.id "a" (.array .int (some 2))
    let added := Build.node (.binary .add a terminator) (.pointer .int)
    let indexed := Build.node (.index a terminator) .int
    let addressed := Build.node (.addressOf indexed) (.pointer .int)
    let slots (n : Node) := (leaves (Eval.evaluate Eval.noProgram 5 n) twoAndString).state.values.items
    slots indexed = [⟨2⟩] ∧ slots (Build.node (.deref addressed) .int) = [⟨2⟩] ∧
    outcome (Eval.evaluate Eval.noProgram 5 addressed) twoAndString = .ok .normal ∧
    outcome (Eval.evaluate Eval.noProgram 5 added) twoAndString =
      .error (.of (.malformed (.pointerAndAbsent .add))) ∧
    outcome (Eval.evaluate Eval.noProgram 5 (Build.node (.deref added) .int)) twoAndString =
      .error (.of (.malformed (.pointerAndAbsent .add))) := by
  decide +kernel

end Treewalk
