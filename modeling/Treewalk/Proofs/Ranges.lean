/-
  The numbers that a kind can hold.

  * `Primitive.InRange p`: the payload of `p` is an integer within the bounds of
    its kind, or a double if the kind is a floating one, of single precision if it is
    `float`;
  * `Primitive.Fits p`: nothing is lost when `p` is stored as its own kind, as
    numbers in range are;
  * `inRange_of`: whatever is made a number of a kind is in its range, so every
    operation on numbers gives one in range.
-/
import Treewalk.Eval.Expression
import Treewalk.Proofs.Precision
import Mathlib.Order.Basic

namespace Treewalk

/-- The least and the greatest integer that a kind can hold. A `long` holds any
    64 bits, with or without a sign. -/
def Kind.bounds : Kind → Bool → Int × Int
  | .char, false => (-128, 127)
  | .char, true => (0, 255)
  | .short, false => (-32768, 32767)
  | .short, true => (0, 65535)
  | .int, false => (-2147483648, 2147483647)
  | .int, true => (0, 4294967295)
  | _, _ => (-9223372036854775808, 9223372036854775807)

namespace Primitive

/-- The payload is one that the kind can hold; `void` holds anything. -/
def InRange (p : Primitive) : Prop :=
  match p.payload with
  | .integral n =>
    p.kind.isFloating = false ∧ (p.kind.isVoid = false →
      (p.kind.bounds p.unsigned).1 ≤ n.toInt ∧ n.toInt ≤ (p.kind.bounds p.unsigned).2)
  | .floating x => (p.kind.isFloating ∨ p.kind.isVoid) ∧ (p.kind = .float → Double.toSingle x = x)

end Primitive

/-- An unsigned word that has room for a sign keeps its value. -/
theorem toInt_toInt64_of_lt {n : UInt64} (h : n.toNat < 9223372036854775808) :
    n.toInt64.toInt = n.toNat := by
  have hlt : 2 * n.toBitVec.toNat < 2 ^ 64 := by
    show 2 * n.toNat < 2 ^ 64
    omega
  exact BitVec.toInt_eq_toNat_of_lt hlt

theorem wrap_mem_bounds (kind : Kind) (unsigned : Bool) (n : Int64) :
    (kind.bounds unsigned).1 ≤ (wrap kind unsigned n).toInt ∧
      (wrap kind unsigned n).toInt ≤ (kind.bounds unsigned).2 := by
  have hlong : -9223372036854775808 ≤ n.toInt ∧ n.toInt ≤ 9223372036854775807 := by
    have h₁ := n.le_toInt
    have h₂ := n.toInt_lt
    omega
  cases kind with
  | char =>
    cases unsigned with
    | false =>
      have h₁ := n.toInt8.le_toInt
      have h₂ := n.toInt8.toInt_lt
      simp only [wrap, Kind.bounds, Int8.toInt_toInt64]
      omega
    | true =>
      have h := n.toUInt64.toUInt8.toNat_lt
      have hn : n.toUInt64.toUInt8.toUInt64.toInt64.toInt = n.toUInt64.toUInt8.toNat := by
        rw [toInt_toInt64_of_lt] <;> rw [UInt8.toNat_toUInt64]
        omega
      simp only [wrap, Kind.bounds, hn]
      omega
  | short =>
    cases unsigned with
    | false =>
      have h₁ := n.toInt16.le_toInt
      have h₂ := n.toInt16.toInt_lt
      simp only [wrap, Kind.bounds, Int16.toInt_toInt64]
      omega
    | true =>
      have h := n.toUInt64.toUInt16.toNat_lt
      have hn : n.toUInt64.toUInt16.toUInt64.toInt64.toInt = n.toUInt64.toUInt16.toNat := by
        rw [toInt_toInt64_of_lt] <;> rw [UInt16.toNat_toUInt64]
        omega
      simp only [wrap, Kind.bounds, hn]
      omega
  | int =>
    cases unsigned with
    | false =>
      have h₁ := n.toInt32.le_toInt
      have h₂ := n.toInt32.toInt_lt
      simp only [wrap, Kind.bounds, Int32.toInt_toInt64]
      omega
    | true =>
      have h := n.toUInt64.toUInt32.toNat_lt
      have hn : n.toUInt64.toUInt32.toUInt64.toInt64.toInt = n.toUInt64.toUInt32.toNat := by
        rw [toInt_toInt64_of_lt] <;> rw [UInt32.toNat_toUInt64]
        omega
      simp only [wrap, Kind.bounds, hn]
      omega
  | void | long | float | double => exact hlong

/-- An integer without a sign bit is the same as an unsigned word. -/
theorem toNat_toUInt64_of_nonneg {n : Int64} (h : 0 ≤ n.toInt) : (n.toUInt64.toNat : Int) = n.toInt := by
  have hlt := n.toUInt64.toBitVec.isLt
  have htoInt : n.toInt = n.toUInt64.toBitVec.toInt := rfl
  have htoNat : n.toUInt64.toNat = n.toUInt64.toBitVec.toNat := rfl
  rw [BitVec.toInt_eq_toNat_cond] at htoInt
  split at htoInt <;> omega

/-- An integer within the bounds of a kind is not wrapped. -/
theorem wrap_of_bounds {kind : Kind} {unsigned : Bool} {n : Int64}
    (hlow : (kind.bounds unsigned).1 ≤ n.toInt) (hhigh : n.toInt ≤ (kind.bounds unsigned).2) :
    wrap kind unsigned n = n := by
  apply Int64.toInt_inj.1
  cases kind with
  | char =>
    cases unsigned with
    | false =>
      simp only [Kind.bounds, wrap, Int8.toInt_toInt64, Int64.toInt_toInt8] at hlow hhigh ⊢
      exact Int.bmod_eq_of_le (by omega) (by omega)
    | true =>
      simp only [Kind.bounds, wrap] at hlow hhigh ⊢
      have hn := toNat_toUInt64_of_nonneg hlow
      rw [toInt_toInt64_of_lt] <;> rw [UInt8.toNat_toUInt64, UInt64.toNat_toUInt8] <;> omega
  | short =>
    cases unsigned with
    | false =>
      simp only [Kind.bounds, wrap, Int16.toInt_toInt64, Int64.toInt_toInt16] at hlow hhigh ⊢
      exact Int.bmod_eq_of_le (by omega) (by omega)
    | true =>
      simp only [Kind.bounds, wrap] at hlow hhigh ⊢
      have hn := toNat_toUInt64_of_nonneg hlow
      rw [toInt_toInt64_of_lt] <;> rw [UInt16.toNat_toUInt64, UInt64.toNat_toUInt16] <;> omega
  | int =>
    cases unsigned with
    | false =>
      simp only [Kind.bounds, wrap, Int32.toInt_toInt64, Int64.toInt_toInt32] at hlow hhigh ⊢
      exact Int.bmod_eq_of_le (by omega) (by omega)
    | true =>
      simp only [Kind.bounds, wrap] at hlow hhigh ⊢
      have hn := toNat_toUInt64_of_nonneg hlow
      rw [toInt_toInt64_of_lt] <;> rw [UInt32.toNat_toUInt64, UInt64.toNat_toUInt32] <;> omega
  | void | long | float | double => rfl

namespace Primitive

/-- Nothing is lost when the number is stored as its own kind. -/
def Fits (n : Primitive) : Prop :=
  n.converted n.kind n.unsigned = n

/-- A number in range fits. -/
theorem fits_of_inRange {n : Primitive} (hn : n.InRange) : n.Fits := by
  obtain ⟨kind, unsigned, payload⟩ := n
  unfold InRange at hn
  unfold Fits converted of fit
  cases payload with
  | integral n =>
    cases kind <;> simp_all [Kind.isFloating, Kind.isVoid, Payload.toInt64, wrap_of_bounds]
  | floating x =>
    cases kind <;> simp_all [Kind.isFloating, Kind.isVoid, Payload.toDouble]

theorem inRange_of (kind : Kind) (unsigned : Bool) (p : Payload) : (of kind unsigned p).InRange := by
  have hwrap := wrap_mem_bounds kind unsigned p.toInt64
  cases kind with
  | void =>
    cases p with
    | integral n => exact ⟨rfl, nofun⟩
    | floating x => exact ⟨.inr rfl, nofun⟩
  | char | short | int | long => exact ⟨rfl, fun _ => hwrap⟩
  | float => exact ⟨.inl rfl, fun _ => Double.toSingle_toSingle _⟩
  | double => exact ⟨.inl rfl, nofun⟩

theorem inRange_promoted {p : Primitive} (hp : p.InRange) : p.promoted.InRange := by
  unfold promoted
  split
  · exact hp
  · exact inRange_of ..

theorem inRange_negated (p : Primitive) : p.negated.InRange := by
  unfold negated
  split <;> exact inRange_of ..

theorem inRange_complemented {p q : Primitive} (h : p.complemented = .ok q) : q.InRange := by
  unfold complemented at h
  split at h
  · cases h
    exact inRange_of ..
  · cases h

theorem inRange_stepped (p : Primitive) (delta : Int64) : (p.stepped delta).InRange := by
  unfold stepped
  split <;> exact inRange_of ..

end Primitive

/-! ## Operations -/

/-- What holds of every result of the first step holds of what the second makes
    of it. -/
theorem forall_ok_bind {ε α β : Type} {x : Except ε α} {f : α → Except ε β} {Q : α → Prop}
    {P : β → Prop} (hx : ∀ a, x = .ok a → Q a) (hf : ∀ a, Q a → ∀ b, f a = .ok b → P b) :
    ∀ b, x >>= f = .ok b → P b := by
  cases x with
  | ok a => exact hf a (hx a rfl)
  | error e => exact fun _ h => nomatch h

theorem inRange_floatingArithmetic (op : BinaryOp) (l r : Float) (kind : Kind) (p : Primitive)
    (h : floatingArithmetic op l r kind = .ok p) : p.InRange := by
  cases op <;> cases h <;> exact Primitive.inRange_of ..

/-- A result of arithmetic is in range, whatever the operands. -/
theorem inRange_arithmetic (op : BinaryOp) (l r : Primitive) :
    ∀ p, arithmetic op l r = .ok p → p.InRange := by
  have hlast : ∀ result : Primitive, result.InRange → ∀ p,
      (if l.kind = .char && !op.isComparison && !result.isFloating then
        (pure (result.converted .char l.unsigned) : Except Cause Primitive)
      else pure result) = .ok p → p.InRange := by
    intro result hr p hp
    split at hp
    · cases hp
      exact Primitive.inRange_of ..
    · cases hp
      exact hr
  unfold arithmetic
  dsimp only
  split
  · exact forall_ok_bind (inRange_floatingArithmetic op _ _ _) hlast
  · refine forall_ok_bind (Q := fun _ => True) (fun _ _ => trivial) fun o _ => ?_
    cases o with
    | some n => exact hlast _ (Primitive.inRange_of ..)
    | none => exact hlast _ (Primitive.inRange_of ..)

/-- The number that an operation yields, if it yields one, is in range. -/
def Yield.InRange : Yield → Prop
  | .number n => n.InRange
  | .pointer _ => True

theorem Yield.inRange_truth (b : Bool) : (Yield.truth b).InRange := by
  show (Primitive.truth b).InRange
  exact Primitive.inRange_of ..

section Operate

variable {h : Heap} {op : BinaryOp} {y : Yield}

theorem inRange_nullComparison {p : Pointer} (hy : nullComparison h op p = .ok y) : y.InRange := by
  unfold nullComparison at hy
  split at hy
  · cases hy; exact Yield.inRange_truth _
  · cases hy; exact Yield.inRange_truth _
  · split at hy
    · cases hy; exact Yield.inRange_truth _
    · cases hy

theorem inRange_pointerPair {p q : Pointer} (hy : pointerPair h op p q = .ok y) : y.InRange := by
  have hequal : (if h.hasNoStorage p then nullComparison h op q
      else if h.hasNoStorage q then nullComparison h op p
      else .ok (.truth (h.sameTarget p q == (op == .eq)))) = .ok y → y.InRange := by
    intro hy
    split at hy
    · exact inRange_nullComparison hy
    · split at hy
      · exact inRange_nullComparison hy
      · cases hy; exact Yield.inRange_truth _
  unfold pointerPair at hy
  split at hy
  · exact hequal hy
  · exact hequal hy
  · cases hy
    show (Primitive.long _).InRange
    exact Primitive.inRange_of ..
  · split at hy
    · cases hy; exact Yield.inRange_truth _
    · cases hy

theorem inRange_pointerAndNumber {p : Pointer} {n : Primitive} {numberFirst : Bool}
    (hy : pointerAndNumber h op p n numberFirst = .ok y) : y.InRange := by
  unfold pointerAndNumber at hy
  split at hy
  · split at hy
    · exact inRange_nullComparison hy
    · cases hy
  split at hy
  · cases hy
  split at hy
  · cases hy; trivial
  · cases hy; trivial
  · cases hy

theorem inRange_numberPair {l r : Primitive} (hy : numberPair op l r = .ok y) : y.InRange := by
  unfold numberPair at hy
  cases ha : arithmetic op l r with
  | ok p => rw [ha] at hy; cases hy; exact inRange_arithmetic op l r p ha
  | error c => rw [ha] at hy; cases hy

theorem inRange_operate {l r : Operand} (hy : operate h op l r = .ok y) : y.InRange := by
  unfold operate at hy
  split at hy
  · cases hy; exact Yield.inRange_truth _
  · cases hy; exact Yield.inRange_truth _
  · split at hy
    · exact inRange_pointerPair hy
    · exact inRange_pointerAndNumber hy
    · exact inRange_pointerAndNumber hy
    · exact inRange_nullComparison hy
    · exact inRange_nullComparison hy
    all_goals exact inRange_numberPair hy

end Operate

/-! ## Numbers of the heap -/

section Heap

variable {h : Heap} (hn : ∀ r p, h.cell r = .primitive p → p.InRange)
include hn

theorem inRange_primitive? {r : Ref} {p : Primitive} (hp : h.primitive? r = some p) : p.InRange := by
  unfold Heap.primitive? at hp
  split at hp
  · rename_i q hq
    cases hp
    exact hn _ _ hq
  · cases hp

theorem inRange_promoted? {r : Ref} {p : Primitive} (hp : h.promoted r = .ok p) : p.InRange := by
  unfold Heap.promoted at hp
  split at hp
  · rename_i q hq
    cases hp
    exact Primitive.inRange_promoted (inRange_primitive? hn hq)
  · split at hp
    · cases hp; exact Primitive.inRange_of ..
    · cases hp

theorem inRange_signed {op : UnaryOp} {r : Ref} {p : Primitive}
    (hp : Eval.signed op h r = .ok p) : p.InRange := by
  unfold Eval.signed at hp
  split at hp
  · cases ht : h.truthOf r with
    | ok b => rw [ht] at hp; cases hp; exact Primitive.inRange_of ..
    | error c => rw [ht] at hp; cases hp
  · cases hq : h.promoted r with
    | ok q => rw [hq] at hp; cases hp; exact Primitive.inRange_negated q
    | error c => rw [hq] at hp; cases hp
  · cases hq : h.promoted r with
    | ok q => rw [hq] at hp; exact Primitive.inRange_complemented hp
    | error c => rw [hq] at hp; cases hp
  · exact inRange_promoted? hn hp

end Heap

end Treewalk
