/-
  Integers as doubles.

  * `Double.ofInteger z`: the double nearest to the integer `z`. It is negative exactly if
    `z` is (`ofInteger_lt_zero`), for rounding never reaches zero;
  * `Heap.ConvertsTo h r ty n`: whatever converts the value `r` to the type makes `n` of it;
  * `integer_as_double`: the double that a number is converted to is the one it is read as
    beside a double, unless it is an integer without a sign that would have one.
-/
import Treewalk.Proofs.Integers
import Treewalk.Proofs.Runs

namespace Treewalk

/-! ## The double nearest to an integer -/

namespace Double

open Float.Model UnpackedFloat

theorem mantissa_shiftRight (em : ExtendedMantissa) (k : Nat) : (em >>> k).mantissa = em.mantissa / 2 ^ k := by
  induction k with
  | zero => exact (Nat.div_one _).symm
  | succ k ih =>
    change (em >>> k).mantissa / 2 = _
    rw [ih, Nat.div_div_eq_div_mul, Nat.pow_succ]

theorem roundedMantissa_bounds (em : ExtendedMantissa) :
    em.mantissa ≤ em.roundedMantissa ∧ em.roundedMantissa ≤ em.mantissa + 1 := by
  obtain ⟨m, r, s⟩ := em
  cases r <;> cases s <;>
    simp only [ExtendedMantissa.roundedMantissa, ExtendedMantissa.accuracy, Accuracy.roundToNearestEven] <;> omega

theorem targetExponent_eq {t : Int} (ht : -1021 ≤ t) : Format.binary64.targetExponent t = t - 53 := by
  change max (t - 53) (-1074) = t - 53
  omega

/-- A mantissa of at least 53 bits is cut to 53 bits. -/
theorem shiftToTargetExponent_eq {m k : Nat} {e : Int} (hm : m.log2 = 52 + k) (he : -1074 ≤ e) (a : Accuracy) :
    shiftToTargetExponent .binary64 m e a = (ExtendedMantissa.ofMantissaAndAccuracy m a >>> k, e + k) := by
  have hk : ((52 + k : Nat) + 1 + e - 53 - e : Int).toNat = k := by omega
  unfold shiftToTargetExponent shiftToExponent totalExponent
  rw [targetExponent_eq (by omega), hm]
  dsimp only
  rw [hk]

theorem log2_div {m k : Nat} (hm : m.log2 = 52 + k) : (m / 2 ^ k).log2 = 52 := by
  have hm0 : m ≠ 0 := by
    rintro rfl
    rw [Nat.log2_zero] at hm
    omega
  obtain ⟨hlow, hhigh⟩ := (Nat.log2_eq_iff hm0).1 hm
  have hlow : 2 ^ 52 ≤ m / 2 ^ k := (Nat.le_div_iff_mul_le (Nat.two_pow_pos k)).2 (by rwa [← Nat.pow_add])
  refine (Nat.log2_eq_iff (by omega)).2 ⟨hlow, (Nat.div_lt_iff_lt_mul (Nat.two_pow_pos k)).2 ?_⟩
  rw [← Nat.pow_add]
  exact hhigh.trans_eq (congrArg (2 ^ ·) (by omega))

/-- A mantissa of at least 53 bits is rounded to 53 bits, and is not zero. -/
theorem roundWithAccuracy_normal (s : Sign) {m k : Nat} {e : Int} (hm : m.log2 = 52 + k) (he : -1074 ≤ e)
    (a : Accuracy) : ∃ m' e' h', roundWithAccuracy .binary64 s m e a = .finite s m' e' h' ∧ m'.log2 = 52 ∧
      e + k ≤ e' ∧ e' ≤ e + k + 1 := by
  let em := ExtendedMantissa.ofMantissaAndAccuracy m a >>> k
  have hem : em.mantissa.log2 = 52 := by
    have hmantissa : (ExtendedMantissa.ofMantissaAndAccuracy m a).mantissa = m := by
      cases a with
      | exact => rfl
      | inexact o => cases o <;> rfl
    rw [mantissa_shiftRight, hmantissa]
    exact log2_div hm
  have hem0 : em.mantissa ≠ 0 := fun h0 => by rw [h0] at hem; cases hem
  -- rounding up may take one bit more
  obtain ⟨j, hj, hrounded⟩ : ∃ j, j ≤ 1 ∧ em.roundedMantissa.log2 = 52 + j := by
    obtain ⟨hlow, hhigh⟩ := (Nat.log2_eq_iff hem0).1 hem
    obtain ⟨hle, hge⟩ := roundedMantissa_bounds em
    rcases Nat.lt_or_ge em.roundedMantissa (2 ^ 53) with hlt | hlt
    · exact ⟨0, by omega, (Nat.log2_eq_iff (by omega)).2 ⟨by omega, hlt⟩⟩
    · exact ⟨1, by omega, (Nat.log2_eq_iff (by omega)).2 ⟨hlt, by omega⟩⟩
  have hfinal := log2_div hrounded
  have hpos : em.roundedMantissa / 2 ^ j ≠ 0 := fun h0 => by rw [h0] at hfinal; cases hfinal
  refine ⟨em.roundedMantissa / 2 ^ j, e + k + j, Nat.pos_of_ne_zero hpos, ?_, hfinal, by omega, by omega⟩
  unfold roundWithAccuracy
  rw [shiftToTargetExponent_eq hm he]
  dsimp only
  rw [shiftToTargetExponent_eq hrounded (by omega)]
  have hmantissa := mantissa_shiftRight (.ofMantissaAndAccuracy em.roundedMantissa .exact) j
  exact (dif_neg (by rwa [hmantissa])).trans (finite_congr rfl hmantissa rfl)

/-- An integer of at most 64 bits is rounded to a normal number. -/
theorem round_normal (s : Sign) {m : Nat} (hm : m ≠ 0) (hlog : m.log2 < 64) :
    ∃ m' e' h', UnpackedFloat.round .binary64 s m 0 = .finite s m' e' h' ∧ m'.log2 = 52 ∧
      -52 ≤ e' ∧ e' ≤ 12 := by
  -- the mantissa is filled up to 53 bits, or has more
  obtain ⟨j, k, hj, hk, hjk, hlow⟩ : ∃ j k : Nat, (0 - (m.log2 + 1 + 0 - 53 : Int)).toNat = j ∧
      (m <<< j).log2 = 52 + k ∧ k ≤ 11 ∧ j ≤ 52 := by
    rcases Nat.le_total m.log2 52 with hsmall | hlarge
    · obtain ⟨j, hj⟩ := Nat.exists_eq_add_of_le hsmall
      refine ⟨j, 0, by omega, ?_, by omega, by omega⟩
      obtain ⟨hlow, hhigh⟩ := (Nat.log2_eq_iff hm).1 rfl
      have hpos : 0 < 2 ^ j := Nat.two_pow_pos j
      rw [Nat.shiftLeft_eq]
      refine (Nat.log2_eq_iff (Nat.mul_ne_zero hm hpos.ne')).2 ⟨?_, ?_⟩
      · calc 2 ^ (52 + 0) = 2 ^ m.log2 * 2 ^ j := by rw [← Nat.pow_add, ← hj]
          _ ≤ m * 2 ^ j := Nat.mul_le_mul_right _ hlow
      · calc m * 2 ^ j < 2 ^ (m.log2 + 1) * 2 ^ j := Nat.mul_lt_mul_of_pos_right hhigh hpos
          _ = 2 ^ (52 + 0 + 1) := by rw [← Nat.pow_add, hj]; congr 1; omega
    · obtain ⟨k, hk⟩ := Nat.exists_eq_add_of_le hlarge
      exact ⟨0, k, by omega, hk, by omega, by omega⟩
  obtain ⟨m', e', h', hround, hm', hle, hge⟩ := roundWithAccuracy_normal s hk (e := 0 - j) (by omega) .exact
  refine ⟨m', e', h', ?_, hm', by omega, by omega⟩
  unfold UnpackedFloat.round totalExponent decreaseExponent
  rw [targetExponent_eq (by omega)]
  dsimp only
  rw [hj, hround]

/-- A finite number is below zero exactly if its sign says so. -/
theorem lt_zero_iff {x : Float} {s : Sign} {m : Nat} {e : Int} {h : 0 < m}
    (hx : x.toModel.unpack = .finite s m e h) : x < 0 ↔ s = .negative := by
  have hlt : x < 0 ↔ (x.toModel.unpack.compare (.zero .positive) == some .lt) = true := decide_eq_true_iff
  rw [hlt, hx]
  cases s with
  | negative => exact ⟨fun _ => rfl, fun _ => rfl⟩
  | positive =>
    constructor
    · intro h
      cases h
    · intro h
      cases h

/-- The double nearest to an integer. -/
def ofInteger (z : Int) : Float :=
  .ofModel (.pack (.ofInt .binary64 z))

theorem ofInteger_lt_zero {z : Int} (hz : z.natAbs < 2 ^ 64) : ofInteger z < 0 ↔ z < 0 := by
  have hfinite (s : Sign) (hz0 : z.natAbs ≠ 0)
      (hround : UnpackedFloat.ofInt .binary64 z = UnpackedFloat.round .binary64 s z.natAbs 0) :
      ofInteger z < 0 ↔ s = .negative := by
    obtain ⟨m, e, h, hm, hlog, hlow, hhigh⟩ := round_normal s hz0 ((Nat.log2_lt hz0).2 hz)
    have hholds : Holds .binary64 m e := by
      refine ⟨canonical_iff.2 (.inl ⟨hlog, ?_⟩), ?_⟩
      · change -1074 ≤ e
        omega
      · change e ≤ 971
        omega
    refine lt_zero_iff (x := ofInteger z) (e := e) (h := h) ?_
    unfold ofInteger
    rw [hround, hm]
    exact unpack_pack (by decide) s h hholds
  rcases Int.lt_trichotomy z 0 with hlt | rfl | hgt
  · have hround : UnpackedFloat.ofInt .binary64 z = UnpackedFloat.round .binary64 .negative z.natAbs 0 := by
      unfold UnpackedFloat.ofInt UnpackedFloat.normalize
      rw [compare_lt_iff_lt.2 hlt]
      exact congrArg (UnpackedFloat.round .binary64 .negative · 0) (by omega)
    exact iff_of_true ((hfinite .negative (by omega) hround).2 rfl) hlt
  · exact iff_of_false (by decide +kernel) (by omega)
  · have hround : UnpackedFloat.ofInt .binary64 z = UnpackedFloat.round .binary64 .positive z.natAbs 0 := by
      unfold UnpackedFloat.ofInt UnpackedFloat.normalize
      rw [compare_gt_iff_gt.2 hgt]
      exact congrArg (UnpackedFloat.round .binary64 .positive · 0) (by omega)
    refine iff_of_false (fun hneg => ?_) (by omega)
    cases (hfinite .positive (by omega) hround).1 hneg

end Double

theorem toDouble_integral (u : Bool) (n : Int64) :
    (Payload.integral n).toDouble u = Double.ofInteger (integerOf u n) := by
  cases u <;> rfl

theorem natAbs_integerOf (u : Bool) (n : Int64) : (integerOf u n).natAbs < 2 ^ 64 := by
  have hunsigned := n.toUInt64.toNat_lt
  have hlow := n.le_toInt
  have hhigh := n.toInt_lt
  cases u with
  | false =>
    change n.toInt.natAbs < 2 ^ 64
    omega
  | true => exact hunsigned

/-- Read without a sign, what had one is too large for one. -/
theorem toInt_lt_zero_iff (u : Bool) (n : Int64) :
    n.toInt < 0 ↔ integerOf u n < 0 ∨ 9223372036854775808 ≤ integerOf u n := by
  have hlow := n.le_toInt
  have hhigh := n.toInt_lt
  have hmod := toNat_toUInt64 n
  cases u with
  | false =>
    change n.toInt < 0 ↔ n.toInt < 0 ∨ 9223372036854775808 ≤ n.toInt
    omega
  | true =>
    change n.toInt < 0 ↔ (n.toUInt64.toNat : Int) < 0 ∨ 9223372036854775808 ≤ (n.toUInt64.toNat : Int)
    omega

theorem integerOf_eq_toInt {u : Bool} {n : Int64} (hn : integerOf u n < 9223372036854775808) :
    integerOf u n = n.toInt := by
  cases u with
  | false => rfl
  | true =>
    have hnonneg : 0 ≤ n.toInt := by
      by_contra hneg
      rcases (toInt_lt_zero_iff true n).1 (Int.not_le.1 hneg) with hlt | hge
      · exact absurd hlt (Int.not_lt.2 (Int.natCast_nonneg _))
      · exact absurd hge (Int.not_le.2 hn)
    exact toNat_toUInt64_of_nonneg hnonneg

/-! ## Numbers as doubles -/

namespace Primitive

variable {p : Primitive} (hk : p.kind.isIntegral) (hp : p.InRange)
include hk hp

theorem payload_toInt64 : p.payload = .integral p.toInt64 := by
  have hpayload := payload_of_integral hk hp
  unfold toInt64
  rw [hpayload]
  rfl

/-- A number is read with its own signedness. -/
theorem toDouble_eq : p.toDouble = Double.ofInteger p.integer := by
  unfold toDouble integer
  rw [payload_toInt64 hk hp, toDouble_integral]

/-- It is converted with the signedness of the type. -/
theorem converted_double :
    p.converted .double false = ⟨.double, false, .floating (Double.ofInteger p.toInt64.toInt)⟩ := by
  unfold converted
  rw [payload_toInt64 hk hp]
  rfl

theorem toDouble_lt_zero : p.toDouble < 0 ↔ p.integer < 0 := by
  rw [toDouble_eq hk hp]
  exact Double.ofInteger_lt_zero (natAbs_integerOf ..)

theorem toDouble_converted_lt_zero :
    (p.converted .double false).toDouble < 0 ↔ p.integer < 0 ∨ 9223372036854775808 ≤ p.integer := by
  rw [converted_double hk hp]
  exact (Double.ofInteger_lt_zero (natAbs_integerOf false p.toInt64)).trans (toInt_lt_zero_iff ..)

/-- The double that an integer is converted to is the one that it is read as, unless the
    integer is too large for one with a sign: then the signs differ. -/
theorem converted_double_iff : p.converted .double false = ⟨.double, false, .floating p.toDouble⟩ ↔
    p.integer < 9223372036854775808 := by
  constructor
  · intro heq
    by_contra hge
    have hneg := (toDouble_converted_lt_zero hk hp).2 (.inr (Int.not_lt.1 hge))
    rw [heq] at hneg
    have hlt : p.integer < 0 := (toDouble_lt_zero hk hp).1 hneg
    omega
  · intro hlt
    have hint : p.integer = p.toInt64.toInt := integerOf_eq_toInt hlt
    rw [converted_double hk hp, toDouble_eq hk hp, hint]

end Primitive

theorem isFloating_floatingArithmetic {op : BinaryOp} {x y : Float} {n : Primitive}
    (hn : floatingArithmetic op x y .double = .ok n) : op.isComparison ∨ n.isFloating := by
  cases op with
  | add | sub | mul | div | mod =>
    cases hn
    exact .inr rfl
  | eq | ne | lt | le | gt | ge => exact .inl rfl
  | _ => cases hn

/-- Next to a double any number is read as one. -/
theorem arithmetic_double (op : BinaryOp) (p : Primitive) {q : Primitive} (hq : q.kind = .double) :
    arithmetic op p q = floatingArithmetic op p.toDouble q.toDouble .double ∧
      arithmetic op q p = floatingArithmetic op q.toDouble p.toDouble .double := by
  have hresult {l r : Primitive} (hcommon : commonKind l r = (.double, false)) :
      arithmetic op l r = floatingArithmetic op l.toDouble r.toDouble .double := by
    unfold arithmetic
    rw [hcommon]
    change (floatingArithmetic op l.toDouble r.toDouble .double >>= _) = _
    cases hn : floatingArithmetic op l.toDouble r.toDouble .double with
    | error c => rfl
    | ok n =>
      -- a double is not narrowed to a character, and neither is the outcome of a comparison
      have hkept : (l.kind = .char && !op.isComparison && !n.isFloating) = false := by
        rcases isFloating_floatingArithmetic hn with hop | hn
        · rw [hop, Bool.not_true, Bool.and_false, Bool.false_and]
        · rw [hn, Bool.not_true, Bool.and_false]
      exact if_neg (Bool.eq_false_iff.1 hkept)
  have hmax : p.kind.max .double = .double ∧ Kind.double.max p.kind = .double := by
    cases p.kind <;> exact ⟨rfl, rfl⟩
  refine ⟨hresult ?_, hresult ?_⟩
  · unfold commonKind
    rw [hq, hmax.1]
    rfl
  · unfold commonKind
    rw [hq, hmax.2]
    rfl

/-! ## Conversions -/

namespace Mem

variable {h : Heap} {r : Ref} {p : Primitive} {ty : Ty} {k : Kind} {u : Bool}

theorem produces_conform (hr : h.Number r p) (hty : ty.primitive? = some (k, u)) (hk : k ≠ .void) :
    (conform r ty).Produces h (p.converted k u) := by
  obtain ⟨x, h₁, hcopy, hspares, hx⟩ := produces_copy hr
  obtain ⟨y, h₂, hcast, hspares', hy⟩ := produces_castTo hx hty hk
  have hbound : copyForBinding r h = .ok x h₁ := by
    unfold copyForBinding
    rw [read_bind, hr.flatten, read_bind, hr.cell]
    exact hcopy
  refine ⟨y, h₂, ?_, hspares.trans hspares', hy⟩
  unfold conform
  rw [run_bind hbound, read_bind, hx.cell, Ty.unqualified_of_primitive? hty]
  cases k with
  | void => exact absurd rfl hk
  | _ => exact hcast

end Mem

/-- Whatever converts the value to the type makes the number of it: a cast, a declaration
    with that value, the binding to a parameter, and the assignment to a variable. -/
structure Heap.ConvertsTo (h : Heap) (r : Ref) (ty : Ty) (n : Primitive) : Prop where
  cast : (castTo r ty).Produces h n
  initial : ∀ e, (Eval.initialValue e ty r).Produces h n
  bound : (conform r ty).Produces h n
  assigned : ∀ t q, h.Number t q → ty.primitive? = some (q.kind, q.unsigned) → t ≠ r →
    assign t r h = .ok () (h.setCell t (.primitive n))

theorem Heap.Number.convertsTo {h : Heap} {r : Ref} {p : Primitive} (hr : h.Number r p) {ty : Ty} {k : Kind}
    {u : Bool} (hty : ty.primitive? = some (k, u)) (hk : k ≠ .void) : h.ConvertsTo r ty (p.converted k u) where
  cast := Mem.produces_castTo hr hty hk
  initial := fun e => Mem.produces_initialValue e hr hty hk
  bound := Mem.produces_conform hr hty hk
  assigned := fun t q ht hq hne => by
    cases hty.symm.trans hq
    exact Mem.assign_number ht hr hne

/-- Integers as doubles. Every conversion to a type of doubles makes the same double of an
    integer, and every operator with a double beside it reads the integer as one: the two
    are the same exactly for integers below 2⁶³. The latter is negative just where the
    integer is; the former is negative from 2⁶³ on, too. -/
theorem integer_as_double {h : Heap} {r : Ref} {p : Primitive} {ty : Ty} (hr : h.Number r p)
    (hk : p.kind.isIntegral) (hp : p.InRange) (hty : ty.primitive? = some (.double, false)) :
    h.ConvertsTo r ty (p.converted .double false) ∧
    (∀ s q op, h.Number s q → q.kind = .double → op.isLogical = false →
      (binaryOperation op r s).ResultsIn h (floatingArithmetic op p.toDouble q.toDouble .double) ∧
      (binaryOperation op s r).ResultsIn h (floatingArithmetic op q.toDouble p.toDouble .double)) ∧
    (p.converted .double false = ⟨.double, false, .floating p.toDouble⟩ ↔ p.integer < 9223372036854775808) ∧
    (p.toDouble < 0 ↔ p.integer < 0) ∧
    ((p.converted .double false).toDouble < 0 ↔ p.integer < 0 ∨ 9223372036854775808 ≤ p.integer) := by
  refine ⟨hr.convertsTo hty (by decide), fun s q op hs hq hop => ?_, Primitive.converted_double_iff hk hp,
    Primitive.toDouble_lt_zero hk hp, Primitive.toDouble_converted_lt_zero hk hp⟩
  have hp? : h.primitive? r = some p := by
    unfold Heap.primitive?
    rw [hr.flatten, hr.cell]
  have hs? : h.primitive? s = some q := by
    unfold Heap.primitive?
    rw [hs.flatten, hs.cell]
  obtain ⟨hleft, hright⟩ := arithmetic_double op p hq
  rw [← hleft, ← hright]
  exact ⟨Mem.resultsIn_binaryOperation hp? hs? hop,
    Mem.resultsIn_binaryOperation hs? hp? hop⟩

/-- The greatest `unsigned long`, the greatest `long` as an `unsigned` one, and a half. -/
def greatest : Heap where
  cells := #[.primitive (.of .long true (.integral (-1))),
    .primitive (.of .long true (.integral Int64.maxValue)), .primitive (.of .double false (.floating 0.5))]

/-- Beside a half the greatest `unsigned long` is 2⁶⁴, and the other integer 2⁶³. That is what
    the latter is converted to, while the former becomes minus one. -/
theorem greatest_as_double :
    (binaryOperation .add ⟨0⟩ ⟨2⟩).Produces greatest (.of .double false (.floating 18446744073709551616)) ∧
    greatest.ConvertsTo ⟨0⟩ .double (.of .double false (.floating (-1))) ∧
    (binaryOperation .add ⟨1⟩ ⟨2⟩).Produces greatest (.of .double false (.floating 9223372036854775808)) ∧
    greatest.ConvertsTo ⟨1⟩ .double (.of .double false (.floating 9223372036854775808)) := by
  have hhalf : greatest.Number ⟨2⟩ (.of .double false (.floating 0.5)) := ⟨by decide, rfl⟩
  have hty : Ty.double.primitive? = some (.double, false) := rfl
  obtain ⟨htop, hadd, -⟩ := integer_as_double (h := greatest) (r := ⟨0⟩)
    ⟨by decide, rfl⟩ rfl (Primitive.inRange_of ..) hty
  obtain ⟨hnext, hadd', hsame, -⟩ := integer_as_double (h := greatest) (r := ⟨1⟩)
    ⟨by decide, rfl⟩ rfl (Primitive.inRange_of ..) hty
  rw [hsame.2 (by decide)] at hnext
  have hsum : floatingArithmetic .add (Primitive.of .long true (.integral (-1))).toDouble 0.5 .double =
      .ok (.of .double false (.floating 18446744073709551616)) := by decide +kernel
  have hsum' : floatingArithmetic .add (Primitive.of .long true (.integral Int64.maxValue)).toDouble 0.5 .double =
      .ok (.of .double false (.floating 9223372036854775808)) := by decide +kernel
  have hminus : (Primitive.of .long true (.integral (-1))).converted .double false =
      .of .double false (.floating (-1)) := by decide +kernel
  have hdouble : (Primitive.of .long true (.integral Int64.maxValue)).toDouble = 9223372036854775808 := by
    decide +kernel
  have hresult := (hadd ⟨2⟩ _ .add hhalf rfl rfl).1
  have hresult' := (hadd' ⟨2⟩ _ .add hhalf rfl rfl).1
  have hread : (Primitive.of .double false (.floating 0.5)).toDouble = 0.5 := rfl
  rw [hread, hsum] at hresult
  rw [hread, hsum'] at hresult'
  rw [hminus] at htop
  rw [hdouble] at hnext
  exact ⟨hresult, htop, hresult', hnext⟩

/-- The greatest `unsigned long` is not converted to the double that it is read as. -/
theorem greatest_converted_negative :
    (Primitive.of .long true (.integral (-1))).converted .double false ≠
      ⟨.double, false, .floating (Primitive.of .long true (.integral (-1))).toDouble⟩ ∧
    ((Primitive.of .long true (.integral (-1))).converted .double false).toDouble < 0 ∧
    0 < (Primitive.of .long true (.integral (-1))).toDouble := by
  decide +kernel

end Treewalk
