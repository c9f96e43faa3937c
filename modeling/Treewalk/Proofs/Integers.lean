/-
  Integral arithmetic is exact modulo the width.

  * `Primitive.integer p`: the integer that an integral number stands for;
  * `Kind.residue k u z`: the integer of the kind that is `z` modulo the number of
    its values, and `Primitive.representing k u z` the number that stands for it;
  * `conversion_reduces`: conversion between integral kinds is reduction modulo the
    width, described by the bounds of the kind (`Kind.Spans`);
  * `BinaryOp.exact op x y`: what an operator makes of two integers, of any size;
  * `BinaryOp.onIntegers op l r`: the same for two numbers that are first converted
    to their common kind, the result being represented in it.

  Numbers are computed with in 64 bits. The bits of an integer are `Int64.ofInt` of
  it, so that each operation on bits has an equation with the operation on integers;
  `integerOf` reads bits with or without a sign.
-/
import Treewalk.Proofs.Numbers
import Treewalk.Proofs.Ranges
import Mathlib.Data.Int.Bitwise
import Mathlib.Data.Int.ModEq
import Mathlib.Tactic.NormNum

namespace Treewalk

/-! ## Integers as bits -/

/-- The integer that 64 bits stand for, read with or without a sign. -/
def integerOf (unsigned : Bool) (n : Int64) : Int :=
  if unsigned then n.toUInt64.toNat else n.toInt

/-- Either reading gives the bits back. -/
theorem ofInt_integerOf (u : Bool) (n : Int64) : Int64.ofInt (integerOf u n) = n := by
  cases u with
  | false => exact Int64.ofInt_toInt n
  | true =>
    apply Int64.toBitVec.inj
    rw [Int64.toBitVec_ofInt]
    exact (BitVec.ofInt_natCast _ _).trans (BitVec.ofNat_toNat _ _)

theorem toInt64_eq_ofInt (n : UInt64) : n.toInt64 = Int64.ofInt n.toNat :=
  (ofInt_integerOf true n.toInt64).symm

theorem integerOf_eq_zero {u : Bool} {n : Int64} : integerOf u n = 0 ↔ n = 0 := by
  constructor
  · intro h
    rw [← ofInt_integerOf u n, h]
    rfl
  · rintro rfl
    cases u <;> rfl

theorem toNat_toUInt64 (n : Int64) : (n.toUInt64.toNat : Int) = n.toInt % 18446744073709551616 := by
  have hlt := n.toBitVec.isLt
  have htoNat : n.toUInt64.toNat = n.toBitVec.toNat := rfl
  have htoInt : n.toInt = n.toBitVec.toInt := rfl
  rw [BitVec.toInt_eq_toNat_bmod, Int.bmod_def] at htoInt
  norm_num at htoInt hlt
  split at htoInt <;> omega

/-- The two readings differ by a multiple of 2^64. -/
theorem integerOf_modEq (u v : Bool) (n : Int64) :
    integerOf u n ≡ integerOf v n [ZMOD 18446744073709551616] := by
  have hsigned (u : Bool) : integerOf u n ≡ n.toInt [ZMOD 18446744073709551616] := by
    cases u with
    | false => rfl
    | true =>
      show (n.toUInt64.toNat : Int) ≡ _ [ZMOD _]
      rw [toNat_toUInt64]
      exact Int.mod_modEq _ _
  exact (hsigned u).trans (hsigned v).symm

theorem ofInt_congr {x y : Int} (h : x ≡ y [ZMOD 18446744073709551616]) :
    Int64.ofInt x = Int64.ofInt y := by
  rw [← Int64.toInt_inj, Int64.toInt_ofInt, Int64.toInt_ofInt, ← Int.emod_bmod x, ← Int.emod_bmod y]
  exact congrArg (Int.bmod · _) h

/-- The bits of a word are those of the integer it is made from. -/
theorem getLsbD_ofInt (z : Int) {i : Nat} (hi : i < 64) :
    (Int64.ofInt z).toBitVec.getLsbD i = z.testBit i := by
  rw [Int64.toBitVec_ofInt]
  cases z with
  | ofNat m =>
    rw [Int.ofNat_eq_natCast, BitVec.ofInt_natCast, BitVec.getLsbD_ofNat, decide_eq_true hi, Bool.true_and]
    rfl
  | negSucc m =>
    rw [BitVec.ofInt_negSucc_eq_not_ofNat, BitVec.getLsbD_not, BitVec.getLsbD_ofNat, decide_eq_true hi,
      Bool.true_and, Bool.true_and]
    rfl

/-! ## Residues -/

namespace Kind

/-- The number of values that an integral kind has. -/
def modulus (k : Kind) : Nat :=
  2 ^ (8 * k.size)

/-- The least integer of an integral kind. -/
def least (k : Kind) (unsigned : Bool) : Int :=
  if unsigned then 0 else -(k.modulus / 2 : Nat)

/-- The integer of a kind that is `z` modulo the number of its values: it is the
    only one from the least one on, up to that number. -/
def residue (k : Kind) (unsigned : Bool) (z : Int) : Int :=
  k.least unsigned + (z - k.least unsigned) % k.modulus

variable {k : Kind} {u : Bool}

theorem modulus_dvd (k : Kind) : (k.modulus : Int) ∣ 18446744073709551616 := by
  cases k <;> decide

theorem modulus_dvd_of_rank_le {k k' : Kind} (hk : k.isIntegral) (hk' : k'.isIntegral)
    (hle : k.rank ≤ k'.rank) : (k.modulus : Int) ∣ k'.modulus := by
  revert hk hk' hle
  cases k <;> cases k' <;> decide

theorem rank_le_of_size_le {k k' : Kind} (hk : k.isIntegral) (hk' : k'.isIntegral)
    (hle : k.size ≤ k'.size) : k.rank ≤ k'.rank := by
  revert hk hk' hle
  cases k <;> cases k' <;> decide

theorem residue_modEq (k : Kind) (u : Bool) (z : Int) : k.residue u z ≡ z [ZMOD k.modulus] := by
  have hmod : (z - k.least u) % k.modulus ≡ z - k.least u [ZMOD k.modulus] := Int.mod_modEq _ _
  have hadd := hmod.add_left (k.least u)
  rwa [add_sub_cancel] at hadd

theorem residue_eq_of_modEq {x y : Int} (h : x ≡ y [ZMOD k.modulus]) : k.residue u x = k.residue u y := by
  have hmod : x - k.least u ≡ y - k.least u [ZMOD k.modulus] := h.sub_right _
  unfold residue
  rw [hmod]

/-- What is the same modulo 2^64 has the same residue in every kind. -/
theorem residue_congr {x y : Int} (h : x ≡ y [ZMOD 18446744073709551616]) :
    k.residue u x = k.residue u y :=
  residue_eq_of_modEq (h.of_dvd k.modulus_dvd)

end Kind

/-- Wrapping leaves the residue. -/
theorem integerOf_wrap {k : Kind} (hk : k.isIntegral) (u : Bool) (n : Int64) :
    integerOf u (wrap k u n) = k.residue u n.toInt := by
  have hlow := n.le_toInt
  have hhigh := n.toInt_lt
  have hnat := toNat_toUInt64 n
  cases k with
  | void | float | double => cases hk
  | char | short | int =>
    cases u with
    | false =>
      simp only [integerOf, wrap, Kind.residue, Kind.least, Kind.modulus, Kind.size, Int8.toInt_toInt64,
        Int16.toInt_toInt64, Int32.toInt_toInt64, Int64.toInt_toInt8, Int64.toInt_toInt16, Int64.toInt_toInt32,
        Int.bmod_def]
      norm_num
      omega
    | true =>
      simp [integerOf, wrap, Kind.residue, Kind.least, Kind.modulus, Kind.size]
      omega
  | long =>
    cases u <;> simp [integerOf, wrap, Kind.residue, Kind.least, Kind.modulus, Kind.size] <;> omega

theorem wrap_modEq {k : Kind} (hk : k.isIntegral) (u : Bool) (n : Int64) :
    (wrap k u n).toInt ≡ n.toInt [ZMOD k.modulus] := by
  have hreading := (integerOf_modEq false u (wrap k u n)).of_dvd k.modulus_dvd
  rw [integerOf_wrap hk] at hreading
  exact hreading.trans (k.residue_modEq u n.toInt)

/-- Wrapping to a wider kind first changes nothing. -/
theorem wrap_wrap {k k' : Kind} (hk : k.isIntegral) (hk' : k'.isIntegral) (hle : k.rank ≤ k'.rank)
    (u u' : Bool) (n : Int64) : wrap k u (wrap k' u' n) = wrap k u n := by
  have hnarrower := (wrap_modEq hk' u' n).of_dvd (Kind.modulus_dvd_of_rank_le hk hk' hle)
  rw [← ofInt_integerOf u (wrap k u (wrap k' u' n)), ← ofInt_integerOf u (wrap k u n), integerOf_wrap hk,
    integerOf_wrap hk, Kind.residue_eq_of_modEq hnarrower]

theorem integerOf_wrap_ofInt {k : Kind} (hk : k.isIntegral) (u : Bool) (z : Int) :
    integerOf u (wrap k u (.ofInt z)) = k.residue u z := by
  rw [integerOf_wrap hk, Int64.toInt_ofInt]
  exact Kind.residue_congr Int.bmod_emod

namespace Primitive

/-- The integer that an integral number stands for. -/
def integer (p : Primitive) : Int :=
  integerOf p.unsigned p.toInt64

/-- The number of a kind that is `z` modulo the number of its values. -/
def representing (k : Kind) (unsigned : Bool) (z : Int) : Primitive :=
  ⟨k, unsigned, .integral (.ofInt (k.residue unsigned z))⟩

variable {k : Kind} {p : Primitive}

/-- A number of an integral kind holds an integer. -/
theorem payload_of_integral (hk : p.kind.isIntegral) (hp : p.InRange) :
    p.payload = .integral (.ofInt p.integer) := by
  unfold InRange at hp
  unfold integer toInt64
  cases hpayload : p.payload with
  | integral n => rw [Payload.toInt64, ofInt_integerOf]
  | floating x =>
    rw [hpayload] at hp
    generalize p.kind = k at hk hp
    cases k <;> simp_all [Kind.isIntegral, Kind.isFloating, Kind.isVoid]

/-- An integer is made a number of a kind by way of its bits. -/
theorem of_ofInt (hk : k.isIntegral) (u : Bool) (z : Int) :
    of k u (.integral (.ofInt z)) = representing k u z := by
  have hwrap : wrap k u (.ofInt z) = .ofInt (k.residue u z) := by
    rw [← integerOf_wrap_ofInt hk, ofInt_integerOf]
  have hfit : fit k u (.integral (.ofInt z)) = .integral (wrap k u (.ofInt z)) := by
    cases k <;> first | rfl | cases hk
  unfold of representing
  rw [hfit, hwrap]

/-- Conversion is reduction modulo the width. -/
theorem converted_eq (hp : p.kind.isIntegral) (hr : p.InRange) (hk : k.isIntegral) (u : Bool) :
    p.converted k u = representing k u p.integer := by
  unfold converted
  rw [payload_of_integral hp hr, of_ofInt hk]

/-- A residue is read back from its bits. -/
theorem integer_representing (hk : k.isIntegral) (u : Bool) (z : Int) :
    (representing k u z).integer = k.residue u z := by
  show integerOf u (.ofInt (k.residue u z)) = k.residue u z
  rw [← integerOf_wrap_ofInt hk, ofInt_integerOf]

theorem inRange_representing (hk : k.isIntegral) (u : Bool) (z : Int) : (representing k u z).InRange :=
  of_ofInt hk u z ▸ inRange_of ..

theorem representing_congr {x y : Int} (hxy : x ≡ y [ZMOD k.modulus]) (u : Bool) :
    representing k u x = representing k u y := by
  unfold representing
  rw [Kind.residue_eq_of_modEq hxy]

/-- A number that is represented in a wider kind first ends as the same. -/
theorem converted_representing {k' : Kind} (hk : k.isIntegral) (hk' : k'.isIntegral) (hle : k.rank ≤ k'.rank)
    (u u' : Bool) (z : Int) : (representing k' u' z).converted k u = representing k u z := by
  rw [converted_eq hk' (inRange_representing hk' u' z) hk, integer_representing hk']
  exact representing_congr ((k'.residue_modEq u' z).of_dvd (Kind.modulus_dvd_of_rank_le hk hk' hle)) u

theorem of_integral (hk : k.isIntegral) (u : Bool) (x : Int64) :
    of k u (.integral x) = representing k u x.toInt := by
  rw [← of_ofInt hk, Int64.ofInt_toInt]

/-- A number that is converted to its own kind stays. -/
theorem eq_representing (hk : p.kind.isIntegral) (hp : p.InRange) :
    p = representing p.kind p.unsigned p.integer :=
  (fits_of_inRange hp).symm.trans (converted_eq hk hp hk p.unsigned)

end Primitive

/-! ## Conversions between integral kinds -/

/-- The integer is among those that numbers of the kind hold. -/
def Kind.Spans (k : Kind) (unsigned : Bool) (z : Int) : Prop :=
  (k.bounds unsigned).1 ≤ z ∧ z ≤ (k.bounds unsigned).2

instance (k : Kind) (unsigned : Bool) : DecidablePred (k.Spans unsigned) :=
  fun _ => inferInstanceAs (Decidable (_ ∧ _))

theorem Kind.bounds_width {k : Kind} (hk : k.isIntegral) (u : Bool) :
    (k.bounds u).2 - (k.bounds u).1 < k.modulus := by
  revert hk
  cases k <;> cases u <;> decide

/-- A kind holds no two integers that are the same modulo its width. -/
theorem Kind.Spans.eq_of_modEq {k : Kind} {u : Bool} {x y : Int} (hk : k.isIntegral) (hx : k.Spans u x)
    (hy : k.Spans u y) (hxy : x ≡ y [ZMOD k.modulus]) : x = y := by
  have hwidth := bounds_width hk u
  obtain ⟨hx₁, hx₂⟩ := hx
  obtain ⟨hy₁, hy₂⟩ := hy
  have hlt : |y - x| < k.modulus := abs_lt.2 ⟨by omega, by omega⟩
  have hzero := Int.eq_zero_of_abs_lt_dvd (Int.modEq_iff_dvd.1 hxy) hlt
  omega

/-- An integer made a number of an integral kind is the only one of the kind that is the
    same modulo its width, and stays as it is in a `long`. On the way to a kind no wider,
    this leaves no trace, and a number comes back unchanged from any kind at least as
    wide as its own. -/
theorem conversion_reduces {k : Kind} (hk : k.isIntegral) (u : Bool) :
    (∀ x : Int64, ∃ n : Int64, (Primitive.of k u (.integral x)).payload = .integral n ∧
      k.Spans u n.toInt ∧ n.toInt ≡ x.toInt [ZMOD k.modulus] ∧
      (∀ z, k.Spans u z → z ≡ x.toInt [ZMOD k.modulus] → z = n.toInt) ∧ (k = .long → n = x)) ∧
    (∀ (x : Int64) (k' : Kind) (u' : Bool), k'.isIntegral → k'.size ≤ k.size →
      (Primitive.of k u (.integral x)).converted k' u' = .of k' u' (.integral x)) ∧
    ∀ p : Primitive, p.kind = k → p.unsigned = u → p.InRange →
      ∀ (k' : Kind) (u' : Bool), k'.isIntegral → k.size ≤ k'.size →
        (p.converted k' u').converted k u = p := by
  refine ⟨fun x => ⟨wrap k u x, ?_, wrap_mem_bounds k u x, wrap_modEq hk u x, fun z hz hmod => ?_, ?_⟩,
    fun x k' u' hk' hle => ?_, ?_⟩
  · cases k <;> first | rfl | cases hk
  · exact hz.eq_of_modEq hk (wrap_mem_bounds k u x) (hmod.trans (wrap_modEq hk u x).symm)
  · rintro rfl
    rfl
  · have hrank := Kind.rank_le_of_size_le hk' hk hle
    rw [Primitive.of_integral hk, Primitive.of_integral hk', Primitive.converted_representing hk' hk hrank]
  · rintro p rfl rfl hp k' u' hk' hle
    have hrank := Kind.rank_le_of_size_le hk hk' hle
    rw [Primitive.converted_eq hk hp hk', Primitive.converted_representing hk hk' hrank]
    exact (Primitive.eq_representing hk hp).symm

/-- The least `int` is 0 as an `unsigned short`, and comes back as itself from an
    `unsigned long`. -/
theorem conversion_reduces_least :
    (∃ n : Int64, (Primitive.of .short true (.integral (-2147483648))).payload = .integral n ∧ n.toInt = 0) ∧
      (Primitive.int (-2147483648)).converted .short true = .of .short true (.integral (-2147483648)) ∧
      ((Primitive.int (-2147483648)).converted .long true).converted .int false = .int (-2147483648) := by
  obtain ⟨hshort, -, -⟩ := conversion_reduces (k := .short) rfl true
  obtain ⟨-, hon, hback⟩ := conversion_reduces (k := .int) rfl false
  obtain ⟨n, hn, -, -, hunique, -⟩ := hshort (-2147483648)
  refine ⟨⟨n, hn, ?_⟩, hon _ .short true rfl (by decide), ?_⟩
  · exact (hunique 0 (by decide) (by decide)).symm
  · exact hback (.int (-2147483648)) rfl rfl (Primitive.inRange_of ..) .long true rfl (by decide)

/-! ## Operators on integers -/

/-- What an operator makes of two integers. -/
inductive Exact where
  | integer (z : Int)
  | truth (b : Bool)
  /-- a quotient by zero -/
  | undefined

/-- An operator on integers of any size. Quotients are cut off toward zero, bits
    are those of two's complement, and the count of a shift is taken modulo 64. -/
def BinaryOp.exact (op : BinaryOp) (x y : Int) : Exact :=
  match op with
  | .add => .integer (x + y)
  | .sub => .integer (x - y)
  | .mul => .integer (x * y)
  | .div => if y = 0 then .undefined else .integer (x.tdiv y)
  | .mod => if y = 0 then .undefined else .integer (x - x.tdiv y * y)
  | .eq => .truth (x = y)
  | .ne => .truth (x ≠ y)
  | .lt => .truth (x < y)
  | .le => .truth (x ≤ y)
  | .gt => .truth (y < x)
  | .ge => .truth (y ≤ x)
  | .and => .truth (x ≠ 0 ∧ y ≠ 0)
  | .or => .truth (x ≠ 0 ∨ y ≠ 0)
  | .bitAnd => .integer (x.land y)
  | .bitOr => .integer (x.lor y)
  | .bitXor => .integer (x.xor y)
  | .shl => .integer (x * 2 ^ (y % 64).toNat)
  | .shr => .integer (x / 2 ^ (y % 64).toNat)

/-- The cause of a quotient by zero. -/
def BinaryOp.byZero : BinaryOp → Cause
  | .mod => .moduloByZero
  | _ => .divisionByZero

/-- An operation on two integral numbers: both stand for integers of their common
    kind, and so does the result, which is narrowed if the first is a `char`. -/
def BinaryOp.onIntegers (op : BinaryOp) (l r : Primitive) : Except Cause Primitive :=
  let k := (commonKind l r).1
  let u := (commonKind l r).2
  match op.exact (k.residue u l.integer) (k.residue u r.integer) with
  | .integer z =>
    .ok (if l.kind = .char then .representing .char l.unsigned (k.residue u z) else .representing k u z)
  | .truth b => .ok (.truth b)
  | .undefined => .error op.byZero

/-! ## Operators on bits -/

theorem toNat_shiftCount (u : Bool) (n : Int64) : (shiftCount n).toNat = (integerOf u n % 64).toNat := by
  have hmod : integerOf u n ≡ n.toUInt64.toNat [ZMOD 64] :=
    (integerOf_modEq u true n).of_dvd (by decide)
  show (n.toUInt64 % 64).toNat = _
  rw [UInt64.toNat_mod, hmod]
  simp only [UInt64.reduceToNat]
  omega

theorem shiftCount_lt (n : Int64) : (shiftCount n).toNat < 64 := by
  show (n.toUInt64 % 64).toNat < 64
  rw [UInt64.toNat_mod]
  exact Nat.mod_lt _ (by decide)

section Bits

variable (u : Bool) (a b : Int64)

theorem shiftLeft_eq_ofInt : (a.toUInt64 <<< shiftCount b).toInt64 =
    Int64.ofInt (integerOf u a * 2 ^ (integerOf u b % 64).toNat) := by
  rw [toInt64_eq_ofInt, UInt64.toNat_shiftLeft, Nat.mod_eq_of_lt (shiftCount_lt b), toNat_shiftCount u,
    Nat.shiftLeft_eq]
  apply ofInt_congr
  push_cast
  exact (Int.mod_modEq _ _).trans ((integerOf_modEq true u a).mul_right _)

theorem shiftRight_eq_ofInt_unsigned : (a.toUInt64 >>> shiftCount b).toInt64 =
    Int64.ofInt (integerOf true a / 2 ^ (integerOf true b % 64).toNat) := by
  rw [toInt64_eq_ofInt, UInt64.toNat_shiftRight, Nat.mod_eq_of_lt (shiftCount_lt b), toNat_shiftCount true,
    Nat.shiftRight_eq_div_pow]
  push_cast
  rfl

theorem shiftRight_eq_ofInt_signed : a >>> (shiftCount b).toInt64 =
    Int64.ofInt (integerOf false a / 2 ^ (integerOf false b % 64).toNat) := by
  have hlt := shiftCount_lt b
  have hmsb : (shiftCount b).toBitVec.msb = false := by
    rw [BitVec.msb_eq_false_iff_two_mul_lt]
    change (shiftCount b).toBitVec.toNat < 64 at hlt
    omega
  have hcount : ((shiftCount b).toBitVec.smod 64).toNat = (shiftCount b).toNat := by
    rw [BitVec.smod_eq, hmsb]
    exact Nat.mod_eq_of_lt hlt
  have hshift : (a >>> (shiftCount b).toInt64).toInt =
      integerOf false a / 2 ^ (integerOf false b % 64).toNat := by
    show (a >>> (shiftCount b).toInt64).toBitVec.toInt = _
    rw [Int64.toBitVec_shiftRight, BitVec.toInt_sshiftRight', UInt64.toBitVec_toInt64, hcount,
      toNat_shiftCount false, Int.shiftRight_eq_div_pow]
    push_cast
    rfl
  rw [← hshift, Int64.ofInt_toInt]

theorem div_eq_ofInt :
    (if u then (a.toUInt64 / b.toUInt64).toInt64 else a / b) =
      Int64.ofInt ((integerOf u a).tdiv (integerOf u b)) := by
  cases u with
  | false =>
    show a / b = Int64.ofInt (a.toInt.tdiv b.toInt)
    rw [Int64.ofInt_tdiv a.minValue_le_toInt a.toInt_le b.minValue_le_toInt b.toInt_le, Int64.ofInt_toInt,
      Int64.ofInt_toInt]
  | true =>
    show (a.toUInt64 / b.toUInt64).toInt64 = Int64.ofInt ((a.toUInt64.toNat : Int).tdiv b.toUInt64.toNat)
    rw [toInt64_eq_ofInt, UInt64.toNat_div, Int.ofNat_tdiv]

theorem mod_eq_ofInt :
    (if u then (a.toUInt64 % b.toUInt64).toInt64 else a % b) =
      Int64.ofInt (integerOf u a - (integerOf u a).tdiv (integerOf u b) * integerOf u b) := by
  rw [Int.mul_comm, ← Int.tmod_def]
  cases u with
  | false =>
    show a % b = Int64.ofInt (a.toInt.tmod b.toInt)
    rw [Int64.ofInt_tmod a.minValue_le_toInt a.toInt_le b.minValue_le_toInt b.toInt_le, Int64.ofInt_toInt,
      Int64.ofInt_toInt]
  | true =>
    show (a.toUInt64 % b.toUInt64).toInt64 = Int64.ofInt ((a.toUInt64.toNat : Int).tmod b.toUInt64.toNat)
    rw [toInt64_eq_ofInt, UInt64.toNat_mod, Int.ofNat_tmod]

/-- An operator on bits is one on integers, if it is the same on each bit. -/
theorem bitwise_eq_ofInt {f : Int64 → Int64 → Int64} {g : Int → Int → Int} {op : Bool → Bool → Bool}
    (hf : ∀ a b i, (f a b).toBitVec.getLsbD i = op (a.toBitVec.getLsbD i) (b.toBitVec.getLsbD i))
    (hg : ∀ x y i, (g x y).testBit i = op (x.testBit i) (y.testBit i)) :
    f a b = Int64.ofInt (g (integerOf u a) (integerOf u b)) := by
  nth_rewrite 1 [← ofInt_integerOf u a, ← ofInt_integerOf u b]
  apply Int64.toBitVec.inj
  apply BitVec.eq_of_getLsbD_eq
  intro i hi
  rw [hf]
  simp only [getLsbD_ofInt _ hi, hg]

theorem integralOrder_eq : integralOrder u a b = compare (integerOf u a) (integerOf u b) := by
  cases u with
  | false =>
    show compareOfLessAndEq a b = compareOfLessAndEq a.toInt b.toInt
    simp only [compareOfLessAndEq, Int64.lt_iff_toInt_lt, Int64.toInt_inj]
  | true =>
    show compareOfLessAndEq a.toUInt64 b.toUInt64 =
      compareOfLessAndEq (a.toUInt64.toNat : Int) (b.toUInt64.toNat : Int)
    simp only [compareOfLessAndEq, UInt64.lt_iff_toNat_lt, Int.ofNat_lt, Int.natCast_inj, UInt64.toNat_inj]

/-- What a result is in 64 bits; a comparison has none. -/
def Exact.bits (byZero : Cause) : Exact → Except Cause (Option Int64)
  | integer z => .ok (some (.ofInt z))
  | truth _ => .ok none
  | undefined => .error byZero

theorem Exact.bits_of_eq_ofInt {n : Int64} {z : Int} (h : n = .ofInt z) (c : Cause) :
    .ok (some n) = (integer z).bits c := by
  rw [h]
  rfl

/-- Operators on bits are operators on the integers that these stand for. -/
theorem integralArithmetic_eq (op : BinaryOp) : integralArithmetic op u a b =
    (op.exact (integerOf u a) (integerOf u b)).bits op.byZero := by
  have ha := ofInt_integerOf u a
  have hb := ofInt_integerOf u b
  cases op with
  | add => exact Exact.bits_of_eq_ofInt (by rw [Int64.ofInt_add, ha, hb]) _
  | sub => exact Exact.bits_of_eq_ofInt (by rw [Int64.ofInt_sub, ha, hb]) _
  | mul => exact Exact.bits_of_eq_ofInt (by rw [Int64.ofInt_mul, ha, hb]) _
  | div =>
    unfold integralArithmetic BinaryOp.exact
    dsimp only
    by_cases hzero : b = 0
    · rw [if_pos hzero, if_pos (integerOf_eq_zero.2 hzero)]
      rfl
    · rw [if_neg hzero, if_neg (mt integerOf_eq_zero.1 hzero), ← Exact.bits_of_eq_ofInt (div_eq_ofInt u a b)]
      split <;> rfl
  | mod =>
    unfold integralArithmetic BinaryOp.exact
    dsimp only
    by_cases hzero : b = 0
    · rw [if_pos hzero, if_pos (integerOf_eq_zero.2 hzero)]
      rfl
    · rw [if_neg hzero, if_neg (mt integerOf_eq_zero.1 hzero), ← Exact.bits_of_eq_ofInt (mod_eq_ofInt u a b)]
      split <;> rfl
  | bitAnd =>
    exact Exact.bits_of_eq_ofInt (bitwise_eq_ofInt u a b (fun _ _ _ => BitVec.getLsbD_and) Int.testBit_land) _
  | bitOr => exact Exact.bits_of_eq_ofInt (bitwise_eq_ofInt u a b (fun _ _ _ => BitVec.getLsbD_or) Int.testBit_lor) _
  | bitXor =>
    exact Exact.bits_of_eq_ofInt (bitwise_eq_ofInt u a b (fun _ _ _ => BitVec.getLsbD_xor) Int.testBit_lxor) _
  | shl => exact Exact.bits_of_eq_ofInt (shiftLeft_eq_ofInt u a b) _
  | shr =>
    cases u with
    | false => exact Exact.bits_of_eq_ofInt (shiftRight_eq_ofInt_signed a b) _
    | true => exact Exact.bits_of_eq_ofInt (shiftRight_eq_ofInt_unsigned a b) _
  | eq | ne | lt | le | gt | ge | and | or => rfl

end Bits

/-! ## Operators on numbers -/

namespace BinaryOp

variable {op : BinaryOp} {x y : Int}

/-- A comparison holds by the order of the integers. -/
theorem exact_comparison (hop : op.isComparison) : op.exact x y = .truth (op.holds (compare x y)) := by
  unfold exact holds
  cases op with
  | eq | ne | lt | le | gt | ge =>
    refine congrArg Exact.truth (Bool.eq_iff_iff.2 ?_)
    simp [compare_lt_iff_lt, compare_gt_iff_gt]
  | _ => cases hop

theorem isComparison_of_exact_truth (hop : op.isLogical = false) {b : Bool} (h : op.exact x y = .truth b) :
    op.isComparison := by
  cases op with
  | eq | ne | lt | le | gt | ge => rfl
  | and | or => cases hop
  | div | mod =>
    unfold exact at h
    dsimp only at h
    split at h <;> cases h
  | _ => cases h

theorem isComparison_of_exact_integer {z : Int} (h : op.exact x y = .integer z) :
    op.isComparison = false := by
  cases op <;> first | rfl | cases h

end BinaryOp

theorem isIntegral_commonKind {l r : Primitive} (hl : l.kind.isIntegral) (hr : r.kind.isIntegral) :
    (commonKind l r).1.isIntegral := by
  obtain ⟨lk, lu, lp⟩ := l
  obtain ⟨rk, ru, rp⟩ := r
  cases lk <;> cases hl <;> cases rk <;> cases hr <;> rfl

/-- Arithmetic on integral numbers is arithmetic on integers. -/
theorem arithmetic_eq {op : BinaryOp} (hop : op.isLogical = false) {l r : Primitive}
    (hl : l.kind.isIntegral) (hr : r.kind.isIntegral) (hlr : l.InRange) (hrr : r.InRange) :
    arithmetic op l r = op.onIntegers l r := by
  have hk := isIntegral_commonKind hl hr
  unfold arithmetic BinaryOp.onIntegers
  generalize commonKind l r = c at hk ⊢
  obtain ⟨k, u⟩ := c
  have hfloating : k.isFloating = false := by
    cases k <;> first | rfl | cases hk
  have hbits (p : Primitive) : integerOf u (Primitive.representing k u p.integer).toInt64 =
      k.residue u p.integer :=
    Primitive.integer_representing hk u p.integer
  dsimp only
  rw [hfloating, Primitive.converted_eq hl hlr hk, Primitive.converted_eq hr hrr hk, integralArithmetic_eq,
    integralOrder_eq, hbits, hbits]
  cases hexact : op.exact (k.residue u l.integer) (k.residue u r.integer) with
  | integer z =>
    have hcomparison := BinaryOp.isComparison_of_exact_integer hexact
    have hchar : (Primitive.representing k u z).converted .char l.unsigned =
        .representing .char l.unsigned (k.residue u z) := by
      rw [Primitive.converted_eq hk (Primitive.inRange_representing hk u z) rfl, Primitive.integer_representing hk]
    have hintegral : (Primitive.representing k u z).isFloating = false := rfl
    have hof := Primitive.of_ofInt hk u z
    by_cases hl' : l.kind = .char
    · simp [Exact.bits, bind, Except.bind, pure, Except.pure, hl', hcomparison, hof, hintegral, hchar]
    · simp [Exact.bits, bind, Except.bind, pure, Except.pure, hl', hof]
  | truth b =>
    have hcomparison := BinaryOp.isComparison_of_exact_truth hop hexact
    have hholds : op.holds (compare (k.residue u l.integer) (k.residue u r.integer)) = b :=
      Exact.truth.inj ((BinaryOp.exact_comparison hcomparison).symm.trans hexact)
    simp [Exact.bits, bind, Except.bind, pure, Except.pure, hholds, hcomparison]
  | undefined => rfl

theorem BinaryOp.exact_eq_undefined_iff {op : BinaryOp} {x y : Int} :
    op.exact x y = .undefined ↔ (op = .div ∨ op = .mod) ∧ y = 0 := by
  cases op with
  | div | mod => by_cases hy : y = 0 <;> simp [exact, hy]
  | _ => simp [exact]

/-- There is no result if a quotient by zero is asked for, and only then. -/
theorem onIntegers_eq_error_iff (op : BinaryOp) (l r : Primitive) : (∃ c, op.onIntegers l r = .error c) ↔
    (op = .div ∨ op = .mod) ∧ (commonKind l r).1.residue (commonKind l r).2 r.integer = 0 := by
  rw [← BinaryOp.exact_eq_undefined_iff (x := (commonKind l r).1.residue (commonKind l r).2 l.integer)]
  unfold BinaryOp.onIntegers
  dsimp only
  split <;> simp_all

/-- The operation gives the number, or fails for the cause and changes nothing. -/
def Mem.ResultsIn (x : Mem Ref) (h : Heap) : Except Cause Primitive → Prop
  | .ok p => x.Produces h p
  | .error c => x h = .error (.of c) h

theorem Heap.operand_of_primitive? {h : Heap} {r : Ref} {p : Primitive} (hp : h.primitive? r = some p) :
    h.operand r = .ok (.number p) := by
  unfold primitive? at hp
  unfold operand
  split at hp
  · rename_i q hq
    cases hp
    rw [hq]
  · cases hp

section Exact

variable {h : Heap} {a b : Ref} {l r : Primitive} {op : BinaryOp}
  (ha : h.primitive? a = some l) (hb : h.primitive? b = some r)
include ha hb

theorem Mem.resultsIn_binaryOperation (hop : op.isLogical = false) :
    (binaryOperation op a b).ResultsIn h (arithmetic op l r) := by
  have hrun : binaryOperation op a b h = operateOn op (.number l) (.number r) h :=
    binaryOperation_eq (Heap.operand_of_primitive? ha) (Heap.operand_of_primitive? hb)
  have hoperate := operate_numbers h hop l r
  cases hq : arithmetic op l r with
  | ok q =>
    rw [hq] at hoperate
    have hq := produces_operateOn hoperate
    unfold Produces at hq
    rwa [← hrun] at hq
  | error c =>
    rw [hq] at hoperate
    exact hrun.trans (operateOn_error hoperate)

/-- Arithmetic on integral numbers is exact modulo the width. -/
theorem binaryOperation_exact (hl : l.kind.isIntegral) (hr : r.kind.isIntegral) (hlr : l.InRange)
    (hrr : r.InRange) (hop : op.isLogical = false) :
    (binaryOperation op a b).ResultsIn h (op.onIntegers l r) ∧
      ((∃ c h', binaryOperation op a b h = .error c h') ↔
        (op = .div ∨ op = .mod) ∧ (commonKind l r).1.residue (commonKind l r).2 r.integer = 0) := by
  have hresult := Mem.resultsIn_binaryOperation ha hb hop
  rw [arithmetic_eq hop hl hr hlr hrr] at hresult
  refine ⟨hresult, ?_⟩
  rw [← onIntegers_eq_error_iff op l r]
  cases ho : op.onIntegers l r with
  | ok p =>
    rw [ho] at hresult
    obtain ⟨v, h', hrun, -⟩ := hresult
    simp [hrun]
  | error c =>
    rw [ho] at hresult
    exact ⟨fun _ => ⟨c, rfl⟩, fun _ => ⟨_, h, hresult⟩⟩

end Exact

/-- The least `long` and minus one. -/
def extremes : Heap where
  cells := #[.primitive (.long Int64.minValue), .primitive (.long (-1))]

/-- The least `long` divided by minus one is the least `long`. -/
theorem extremes_exact :
    (binaryOperation .div ⟨0⟩ ⟨1⟩).Produces extremes (.long Int64.minValue) := by
  have hdiv : (binaryOperation .div ⟨0⟩ ⟨1⟩).ResultsIn extremes
      (BinaryOp.div.onIntegers (.long Int64.minValue) (.long (-1))) :=
    (binaryOperation_exact rfl rfl rfl rfl (Primitive.inRange_of ..) (Primitive.inRange_of ..) rfl).1
  exact hdiv

end Treewalk
