/-
  Comparisons seen from either side.

  * `BinaryOp.mirrored op`: what `op` is for the operands in the other order;
  * `Lopsided h l r`: a pointer that is not null meets zero or an absent value.

  Numbers and pairs of pointers compare alike from both sides. A comparison of a
  pointer with zero or an absent value does not know on which side the pointer
  stands: it is the comparison with the pointer first, so that an order between the
  two is not mirrored unless the pointer is null.
-/
import Treewalk.Proofs.Numbers
import Mathlib.Order.Compare

namespace Treewalk

/-- What a comparison is for the operands in the other order. -/
def BinaryOp.mirrored : BinaryOp → BinaryOp
  | .lt => .gt
  | .gt => .lt
  | .le => .ge
  | .ge => .le
  | op => op

namespace BinaryOp

variable {op : BinaryOp}

theorem isComparison_mirrored (hop : op.isComparison) : op.mirrored.isComparison := by
  cases op <;> first | rfl | cases hop

theorem isLogical_of_comparison (hop : op.isComparison) : op.isLogical = false := by
  cases op <;> first | rfl | cases hop

theorem holds_swap (hop : op.isComparison) (o : Ordering) : op.mirrored.holds o.swap = op.holds o := by
  cases op <;> cases hop <;> cases o <;> rfl

end BinaryOp

/-! ## Numbers -/

/-- Doubles are ordered alike from both sides, if they are ordered at all. -/
theorem compare_unpacked_swap (x y : Float.Model.UnpackedFloat) :
    (x.compare y).map Ordering.swap = y.compare x := by
  have hfinite (m n : Nat) (e f : Int) :
      ((compare e f).then (compare m n)).swap = (compare f e).then (compare n m) := by
    rw [Ordering.swap_then, ← Std.OrientedOrd.eq_swap, ← Std.OrientedOrd.eq_swap]
  cases x with
  | notANumber => cases y <;> rfl
  | zero s => cases y with
    | notANumber | zero => rfl
    | infinity t | finite t => cases t <;> rfl
  | infinity s => cases s <;> cases y with
    | notANumber | zero => rfl
    | infinity t | finite t => cases t <;> rfl
  | finite s m e => cases s <;> cases y with
    | notANumber | zero => rfl
    | infinity t => cases t <;> rfl
    | finite t n f =>
      cases t with
      | negative => first | rfl | exact congrArg (fun o => some (Ordering.swap o)) (hfinite ..)
      | positive => first | rfl | exact congrArg some (hfinite ..)

theorem beq_comm_double (x y : Float) : (x == y) = (y == x) := by
  show (x.toModel.unpack.compare y.toModel.unpack == some .eq) =
    (y.toModel.unpack.compare x.toModel.unpack == some .eq)
  rw [← compare_unpacked_swap]
  cases y.toModel.unpack.compare x.toModel.unpack with
  | none => rfl
  | some o => cases o <;> rfl

theorem floatingArithmetic_mirrored {op : BinaryOp} (hop : op.isComparison) (x y : Float) (k : Kind) :
    floatingArithmetic op x y k = floatingArithmetic op.mirrored y x k := by
  unfold floatingArithmetic BinaryOp.mirrored
  cases op with
  | eq | ne => dsimp only; rw [beq_comm_double]
  | lt | le | gt | ge => rfl
  | _ => cases hop

theorem commonKind_comm (l r : Primitive) : commonKind l r = commonKind r l := by
  have hmax : l.kind.max r.kind = r.kind.max l.kind := by
    cases l.kind <;> cases r.kind <;> rfl
  unfold commonKind
  dsimp only
  rw [hmax, Bool.or_comm]

theorem integralOrder_swap (u : Bool) (a b : Int64) : (integralOrder u a b).swap = integralOrder u b a := by
  unfold integralOrder
  cases u <;> exact Std.OrientedOrd.eq_swap.symm

/-- A comparison of numbers is decided in their common kind, and is not narrowed. -/
theorem arithmetic_comparison {op : BinaryOp} (hop : op.isComparison) (l r : Primitive) :
    arithmetic op l r =
      if (commonKind l r).1.isFloating then floatingArithmetic op l.toDouble r.toDouble (commonKind l r).1
      else .ok (.truth (op.holds (integralOrder (commonKind l r).2
        (l.converted (commonKind l r).1 (commonKind l r).2).toInt64
        (r.converted (commonKind l r).1 (commonKind l r).2).toInt64))) := by
  have hintegral (u : Bool) (a b : Int64) : integralArithmetic op u a b = .ok none := by
    cases op <;> first | rfl | cases hop
  unfold arithmetic
  generalize commonKind l r = c
  obtain ⟨k, u⟩ := c
  dsimp only
  rw [hintegral, hop]
  split
  · cases floatingArithmetic op l.toDouble r.toDouble k <;> simp [bind, Except.bind, pure, Except.pure]
  · simp [bind, Except.bind, pure, Except.pure]

theorem arithmetic_mirrored {op : BinaryOp} (hop : op.isComparison) (l r : Primitive) :
    arithmetic op l r = arithmetic op.mirrored r l := by
  rw [arithmetic_comparison hop, arithmetic_comparison (BinaryOp.isComparison_mirrored hop), commonKind_comm r l,
    floatingArithmetic_mirrored hop, ← BinaryOp.holds_swap hop, integralOrder_swap]

/-! ## Pointers -/

section Pointers

variable {h : Heap} {op : BinaryOp} {p q : Pointer}

theorem isNull_of_hasNoStorage (hp : h.hasNoStorage p) : h.isNull p := by
  unfold Heap.isNull
  rw [hp]
  rfl

theorem sameTarget_comm (h : Heap) (p q : Pointer) : h.sameTarget p q = h.sameTarget q p := by
  unfold Heap.sameTarget
  cases h.hasNoStorage p <;> cases h.hasNoStorage q <;> simp [Bool.beq_comm]

theorem order_swap (h : Heap) (p q : Pointer) : (h.order p q).swap = h.order q p := by
  unfold Heap.order
  dsimp only
  rw [Ordering.swap_then, ← Std.OrientedOrd.eq_swap, ← Std.OrientedOrd.eq_swap]

/-- A comparison with null depends on the pointer alone, not on its side. -/
theorem nullComparison_eq (hop : op.isComparison) (p : Pointer) :
    nullComparison h op p = .ok (.truth (op.holds (if h.isNull p then .eq else .gt))) := by
  unfold nullComparison
  cases hp : h.isNull p <;> cases op <;> first | rfl | cases hop

/-- Pointers that are equal or not are so from both sides; the null pointer itself
    equals every pointer that reads as null. -/
theorem pointerPair_equality (hop : op = .eq ∨ op = .ne) (p q : Pointer) :
    pointerPair h op p q = pointerPair h op q p := by
  have hunfold (p q : Pointer) : pointerPair h op p q =
      if h.hasNoStorage p then nullComparison h op q
      else if h.hasNoStorage q then nullComparison h op p
      else .ok (.truth (h.sameTarget p q == (op == .eq))) := by
    rcases hop with rfl | rfl <;> rfl
  have hcomparison : op.isComparison := by
    rcases hop with rfl | rfl <;> rfl
  rw [hunfold, hunfold, sameTarget_comm h q p]
  by_cases hp : h.hasNoStorage p = true
  · by_cases hq : h.hasNoStorage q = true
    · rw [if_pos hp, if_pos hq, nullComparison_eq hcomparison, nullComparison_eq hcomparison,
        isNull_of_hasNoStorage hp, isNull_of_hasNoStorage hq]
    · rw [if_pos hp, if_neg hq, if_pos hp]
  · rw [if_neg hp, if_neg hp]

theorem pointerPair_mirrored (hop : op.isComparison) (p q : Pointer) :
    pointerPair h op p q = pointerPair h op.mirrored q p := by
  have horder (o o' : BinaryOp) (ho : o.mirrored = o') (hc : o.isComparison) :
      (.ok (.truth (o.holds (h.order p q))) : Except Cause Yield) = .ok (.truth (o'.holds (h.order q p))) := by
    rw [← order_swap h p q, ← ho, BinaryOp.holds_swap hc]
  cases op with
  | eq => exact pointerPair_equality (.inl rfl) p q
  | ne => exact pointerPair_equality (.inr rfl) p q
  | lt | le | gt | ge => exact horder _ _ rfl rfl
  | _ => cases hop

end Pointers

/-! ## Operands -/

section Operate

variable {h : Heap} {op : BinaryOp}

theorem Yield.truth_inj {b c : Bool} (h : Yield.truth b = Yield.truth c) : b = c := by
  have hne : Primitive.truth true ≠ Primitive.truth false := by decide
  have heq : Primitive.truth b = Primitive.truth c := Yield.number.inj h
  cases b <;> cases c <;> first | rfl | exact absurd heq hne | exact absurd heq.symm hne

/-! Which operation an operator is, by the operands. -/

section Dispatch

variable (h) (hop : op.isLogical = false)
include hop

theorem operate_pointers (p q : Pointer) : operate h op (.pointer p) (.pointer q) = pointerPair h op p q := by
  cases op <;> first | rfl | cases hop

theorem operate_pointer_number (p : Pointer) (n : Primitive) :
    operate h op (.pointer p) (.number n) = pointerAndNumber h op p n false := by
  cases op <;> first | rfl | cases hop

theorem operate_number_pointer (n : Primitive) (p : Pointer) :
    operate h op (.number n) (.pointer p) = pointerAndNumber h op p n true := by
  cases op <;> first | rfl | cases hop

theorem operate_pointer_absent (p : Pointer) : operate h op (.pointer p) .absent = nullComparison h op p := by
  cases op <;> first | rfl | cases hop

theorem operate_absent_pointer (p : Pointer) : operate h op .absent (.pointer p) = nullComparison h op p := by
  cases op <;> first | rfl | cases hop

theorem operate_number_absent (n : Primitive) :
    operate h op (.number n) .absent = numberPair op n (.zero n.kind n.unsigned) := by
  cases op <;> first | rfl | cases hop

theorem operate_absent_number (n : Primitive) :
    operate h op .absent (.number n) = numberPair op (.zero n.kind n.unsigned) n := by
  cases op <;> first | rfl | cases hop

theorem operate_absent : operate h op .absent .absent = numberPair op (.int 0) (.int 0) := by
  cases op <;> first | rfl | cases hop

end Dispatch

theorem numberPair_mirrored (hop : op.isComparison) (l r : Primitive) :
    numberPair op l r = numberPair op.mirrored r l :=
  congrArg (Except.map Yield.number) (arithmetic_mirrored hop l r)

theorem pointerAndNumber_comparison (hop : op.isComparison) (p : Pointer) (n : Primitive) (numberFirst : Bool) :
    pointerAndNumber h op p n numberFirst =
      if n.isZero then nullComparison h op p else .error (.malformed (.pointerCompared n.toInt64)) := by
  unfold pointerAndNumber
  rw [if_pos hop]

theorem nullComparison_mirrored (hop : op.isComparison) {p : Pointer}
    (hp : op.mirrored = op ∨ h.isNull p = true) : nullComparison h op p = nullComparison h op.mirrored p := by
  rcases hp with hp | hp
  · rw [hp]
  · rw [nullComparison_eq hop, nullComparison_eq (BinaryOp.isComparison_mirrored hop), hp, if_pos rfl,
      ← BinaryOp.holds_swap hop]
    rfl

def Operand.isPointer : Operand → Bool
  | pointer _ => true
  | _ => false

/-- Nothing there: zero, or an absent value. -/
def Operand.isNothing : Operand → Bool
  | pointer _ => false
  | number n => n.isZero
  | absent => true

/-- A pointer that is not null, on whichever side, and nothing on the other. -/
def Lopsided (h : Heap) : Operand → Operand → Prop
  | .pointer p, r => h.isNull p = false ∧ r.isNothing
  | l, .pointer q => h.isNull q = false ∧ l.isNothing
  | _, _ => False

theorem Lopsided.symm {l r : Operand} (hlr : Lopsided h l r) : Lopsided h r l := by
  cases l <;> cases r <;> first | exact hlr | cases hlr.2

/-- A pointer and what is no pointer are compared as if the pointer came first. -/
theorem operate_pointer_comm (hop : op.isComparison) (p : Pointer) {r : Operand} (hr : r.isPointer = false) :
    operate h op r (.pointer p) = operate h op (.pointer p) r := by
  have hlogical := BinaryOp.isLogical_of_comparison hop
  cases r with
  | pointer q => cases hr
  | number n =>
    rw [operate_number_pointer h hlogical, operate_pointer_number h hlogical, pointerAndNumber_comparison hop,
      pointerAndNumber_comparison hop]
  | absent => rw [operate_absent_pointer h hlogical, operate_pointer_absent h hlogical]

theorem operate_pointer_mirrored (hop : op.isComparison) (p : Pointer) {r : Operand} (hr : r.isPointer = false)
    (hlr : op.mirrored = op ∨ ¬Lopsided h (.pointer p) r) :
    operate h op (.pointer p) r = operate h op.mirrored (.pointer p) r := by
  have hmirrored := BinaryOp.isComparison_mirrored hop
  have hlogical := BinaryOp.isLogical_of_comparison hop
  have hlogical' := BinaryOp.isLogical_of_comparison hmirrored
  have hnull (hn : r.isNothing = true) : nullComparison h op p = nullComparison h op.mirrored p := by
    refine nullComparison_mirrored hop (hlr.imp_right fun hlr => ?_)
    cases hp : h.isNull p with
    | true => rfl
    | false => exact absurd ⟨hp, hn⟩ hlr
  cases r with
  | pointer q => cases hr
  | number n =>
    rw [operate_pointer_number h hlogical, operate_pointer_number h hlogical', pointerAndNumber_comparison hop,
      pointerAndNumber_comparison hmirrored]
    split
    · exact hnull ‹_›
    · rfl
  | absent =>
    rw [operate_pointer_absent h hlogical, operate_pointer_absent h hlogical']
    exact hnull rfl

/-- Comparisons are mirrored, orders of a pointer that is not null and nothing apart. -/
theorem operate_mirrored (hop : op.isComparison) {l r : Operand} (hlr : op.mirrored = op ∨ ¬Lopsided h l r) :
    operate h op l r = operate h op.mirrored r l := by
  have hmirrored := BinaryOp.isComparison_mirrored hop
  have hlogical := BinaryOp.isLogical_of_comparison hop
  have hlogical' := BinaryOp.isLogical_of_comparison hmirrored
  cases l with
  | pointer p =>
    cases r with
    | pointer q =>
      rw [operate_pointers h hlogical, operate_pointers h hlogical']
      exact pointerPair_mirrored hop p q
    | number n => rw [operate_pointer_comm hmirrored p rfl, operate_pointer_mirrored hop p rfl hlr]
    | absent => rw [operate_pointer_comm hmirrored p rfl, operate_pointer_mirrored hop p rfl hlr]
  | number n =>
    cases r with
    | pointer q =>
      rw [operate_pointer_comm hop q rfl]
      exact operate_pointer_mirrored hop q rfl (hlr.imp_right (mt Lopsided.symm))
    | number m =>
      rw [Mem.operate_numbers h hlogical, Mem.operate_numbers h hlogical']
      exact numberPair_mirrored hop n m
    | absent =>
      rw [operate_number_absent h hlogical, operate_absent_number h hlogical']
      exact numberPair_mirrored hop ..
  | absent =>
    cases r with
    | pointer q =>
      rw [operate_pointer_comm hop q rfl]
      exact operate_pointer_mirrored hop q rfl (hlr.imp_right (mt Lopsided.symm))
    | number m =>
      rw [operate_absent_number h hlogical, operate_number_absent h hlogical']
      exact numberPair_mirrored hop ..
    | absent =>
      rw [operate_absent h hlogical, operate_absent h hlogical']
      exact numberPair_mirrored hop ..

/-- A pointer that is not null is above nothing. Said of nothing it is the same, so
    that each is above the other. -/
theorem operate_lopsided (hop : op.isComparison) {l r : Operand} (hlr : Lopsided h l r) :
    operate h op l r = .ok (.truth (op.holds .gt)) := by
  have hlogical := BinaryOp.isLogical_of_comparison hop
  have hpointer (p : Pointer) {r : Operand} (hlr : Lopsided h (.pointer p) r) :
      operate h op (.pointer p) r = .ok (.truth (op.holds .gt)) := by
    have hnull : nullComparison h op p = .ok (.truth (op.holds .gt)) := by
      rw [nullComparison_eq hop, hlr.1]
      rfl
    cases r with
    | pointer q => cases hlr.2
    | number n =>
      have hn : n.isZero = true := hlr.2
      rw [operate_pointer_number h hlogical, pointerAndNumber_comparison hop, if_pos hn, hnull]
    | absent => rw [operate_pointer_absent h hlogical, hnull]
  cases l with
  | pointer p => exact hpointer p hlr
  | number n =>
    cases r with
    | pointer q => rw [operate_pointer_comm hop q rfl, hpointer q hlr.symm]
    | _ => cases hlr
  | absent =>
    cases r with
    | pointer q => rw [operate_pointer_comm hop q rfl, hpointer q hlr.symm]
    | _ => cases hlr

theorem operate_mirrored_iff (hop : op.isComparison) {l r : Operand} :
    operate h op l r = operate h op.mirrored r l ↔ op.mirrored = op ∨ ¬Lopsided h l r := by
  refine ⟨fun heq => ?_, operate_mirrored hop⟩
  by_contra hn
  obtain ⟨hne, hlr⟩ := not_or.1 hn
  have hlr := not_not.1 hlr
  rw [operate_lopsided hop hlr, operate_lopsided (BinaryOp.isComparison_mirrored hop) hlr.symm] at heq
  have htruth := Yield.truth_inj (Except.ok.inj heq)
  cases op with
  | eq | ne => exact hne rfl
  | lt | le | gt | ge => cases htruth
  | _ => cases hop

/-- Equality and inequality: a fault of both, or truths of which one is the negation
    of the other. -/
def Opposed (x y : Except Cause Yield) : Prop :=
  (∃ c, x = .error c ∧ y = .error c) ∨ ∃ t, x = .ok (.truth t) ∧ y = .ok (.truth !t)

theorem opposed_nullComparison (h : Heap) (p : Pointer) :
    Opposed (nullComparison h .eq p) (nullComparison h .ne p) :=
  .inr ⟨_, rfl, rfl⟩

theorem opposed_numberPair (l r : Primitive) : Opposed (numberPair .eq l r) (numberPair .ne l r) := by
  refine .inr ?_
  unfold numberPair
  rw [arithmetic_comparison rfl, arithmetic_comparison rfl]
  split
  · exact ⟨_, rfl, rfl⟩
  · exact ⟨_, rfl, rfl⟩

theorem opposed_pointerAndNumber (h : Heap) (p : Pointer) (n : Primitive) (numberFirst : Bool) :
    Opposed (pointerAndNumber h .eq p n numberFirst) (pointerAndNumber h .ne p n numberFirst) := by
  rw [pointerAndNumber_comparison rfl, pointerAndNumber_comparison rfl]
  split
  · exact opposed_nullComparison h p
  · exact .inl ⟨_, rfl, rfl⟩

theorem opposed_pointerPair (h : Heap) (p q : Pointer) :
    Opposed (pointerPair h .eq p q) (pointerPair h .ne p q) := by
  unfold pointerPair
  dsimp only
  split
  · exact opposed_nullComparison h q
  split
  · exact opposed_nullComparison h p
  · refine .inr ⟨_, rfl, ?_⟩
    cases h.sameTarget p q <;> rfl

/-- Two values are unequal exactly if they are not equal. -/
theorem opposed_operate (h : Heap) (l r : Operand) : Opposed (operate h .eq l r) (operate h .ne l r) := by
  cases l with
  | pointer p =>
    cases r with
    | pointer q => exact opposed_pointerPair h p q
    | number n => exact opposed_pointerAndNumber h p n false
    | absent => exact opposed_nullComparison h p
  | number n =>
    cases r with
    | pointer q => exact opposed_pointerAndNumber h q n true
    | number m => exact opposed_numberPair n m
    | absent => exact opposed_numberPair ..
  | absent =>
    cases r with
    | pointer q => exact opposed_nullComparison h q
    | number m => exact opposed_numberPair ..
    | absent => exact opposed_numberPair ..

end Operate

/-! ## Values -/

section Values

variable {h : Heap} {a b : Ref} {l r : Operand}

theorem operateOn_ok {op : BinaryOp} {y : Yield} (hy : operate h op l r = .ok y) :
    operateOn op l r h = yielded y h := by
  unfold operateOn
  rw [Mem.read_bind, hy]
  rfl

theorem yielded_inj {y y' : Yield} (heq : yielded y h = yielded y' h) : y = y' := by
  have hpush (c c' : Cell) (hc : Mem.alloc c h = Mem.alloc c' h) : c = c' := by
    injection hc with _ hcells
    injection hcells with hcells _
    exact (Array.push_eq_push.1 hcells).1
  cases y <;> cases y' <;> cases hpush _ _ heq <;> rfl

/-- Operations give the same if they yield the same. -/
theorem operateOn_eq_iff {op op' : BinaryOp} {l' r' : Operand} :
    operateOn op l r h = operateOn op' l' r' h ↔ operate h op l r = operate h op' l' r' := by
  cases hx : operate h op l r with
  | ok y =>
    cases hx' : operate h op' l' r' with
    | ok y' =>
      rw [operateOn_ok hx, operateOn_ok hx']
      exact ⟨fun heq => congrArg _ (yielded_inj heq), fun heq => congrArg (yielded · h) (Except.ok.inj heq)⟩
    | error c =>
      rw [operateOn_ok hx, Mem.operateOn_error hx']
      cases y <;> simp [yielded, Mem.alloc]
  | error c =>
    cases hx' : operate h op' l' r' with
    | ok y' =>
      rw [Mem.operateOn_error hx, operateOn_ok hx']
      cases y' <;> simp [yielded, Mem.alloc]
    | error c' =>
      rw [Mem.operateOn_error hx, Mem.operateOn_error hx']
      simp

variable (ha : h.operand a = .ok l) (hb : h.operand b = .ok r)
include ha hb

/-- Comparisons from either side. -/
theorem comparison_mirrored :
    (∀ op : BinaryOp, op.isComparison →
      (binaryOperation op a b h = binaryOperation op.mirrored b a h ↔ op.mirrored = op ∨ ¬Lopsided h l r) ∧
      (Lopsided h l r → binaryOperation op a b h = binaryOperation op b a h)) ∧
    ((∃ c, binaryOperation .eq a b h = .error c h ∧ binaryOperation .ne a b h = .error c h) ∨
      ∃ t, (binaryOperation .eq a b).Produces h (.truth t) ∧
        (binaryOperation .ne a b).Produces h (.truth !t)) := by
  refine ⟨fun op hop => ⟨?_, fun hlr => ?_⟩, ?_⟩
  · rw [Mem.binaryOperation_eq ha hb, Mem.binaryOperation_eq hb ha, operateOn_eq_iff, operate_mirrored_iff hop]
  · rw [Mem.binaryOperation_eq ha hb, Mem.binaryOperation_eq hb ha, operateOn_eq_iff, operate_lopsided hop hlr,
      operate_lopsided hop hlr.symm]
  · unfold Mem.Produces
    rw [Mem.binaryOperation_eq ha hb, Mem.binaryOperation_eq ha hb]
    rcases opposed_operate h l r with ⟨c, heq, hne⟩ | ⟨t, heq, hne⟩
    · exact .inl ⟨_, Mem.operateOn_error heq, Mem.operateOn_error hne⟩
    · exact .inr ⟨t, Mem.produces_operateOn heq, Mem.produces_operateOn hne⟩

end Values

/-- Two elements in a row, a pointer to each, and zero. -/
def pointersIntoRow : Heap where
  cells := #[.primitive (.int 7), .slot .int (some ⟨0⟩), .primitive (.int 8), .slot .int (some ⟨2⟩),
    .pointer ⟨.int, ⟨0⟩, 0⟩, .pointer ⟨.int, ⟨0⟩, 1⟩, .primitive (.int 0)]
  blocks := #[#[⟨1⟩, ⟨3⟩]]

/-- The pointer to the first element is below the other, and the other above it;
    what is said of zero and a pointer is what is said of the pointer and zero. -/
theorem row_mirrored :
    binaryOperation .lt ⟨4⟩ ⟨5⟩ pointersIntoRow = binaryOperation .gt ⟨5⟩ ⟨4⟩ pointersIntoRow ∧
    binaryOperation .lt ⟨6⟩ ⟨4⟩ pointersIntoRow = binaryOperation .lt ⟨4⟩ ⟨6⟩ pointersIntoRow := by
  have hpointers := comparison_mirrored (h := pointersIntoRow) (a := ⟨4⟩) (b := ⟨5⟩) rfl rfl
  have hzero := comparison_mirrored (h := pointersIntoRow) (a := ⟨6⟩) (b := ⟨4⟩) rfl rfl
  exact ⟨(hpointers.1 .lt rfl).1.2 (.inr (by simp [Lopsided, Operand.isNothing])),
    (hzero.1 .lt rfl).2 ⟨rfl, rfl⟩⟩

/-- The pointer is above zero, but zero is not below the pointer. -/
theorem zero_not_below_pointer : (binaryOperation .gt ⟨4⟩ ⟨6⟩).Produces pointersIntoRow (.truth true) ∧
    (binaryOperation .lt ⟨6⟩ ⟨4⟩).Produces pointersIntoRow (.truth false) :=
  ⟨⟨_, _, rfl, .alloc .., .alloc ..⟩, ⟨_, _, rfl, .alloc .., .alloc ..⟩⟩

end Treewalk
