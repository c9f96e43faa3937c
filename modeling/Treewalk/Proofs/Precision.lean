/-
  Numbers that a format can hold.

  * `Canonical f m e`: the format `f` writes `m · 2^e` with this mantissa and this
    exponent;
  * `round_canonical`, `round_finer`: such a number is not changed by rounding, whether
    it is written with more digits before or after;
  * `holds_of_unpack`, `unpack_pack`: these are the finite numbers that can be
    packed, and packing loses nothing;
  * `toSingle_toSingle`: so what is of single precision stays as it is.
-/
import Treewalk.Number.Double
import Mathlib.Algebra.GroupWithZero.Nat

namespace Treewalk.Double

open Float.Model UnpackedFloat

/-! ## Canonical numbers -/

/-- The exponent is the one that the format wants for the number. -/
def Canonical (f : Format) (m : Nat) (e : Int) : Prop :=
  f.targetExponent (totalExponent m e) = e

variable {f : Format} {m k : Nat} {e : Int}

theorem log2_mul_two_pow (hm : m ≠ 0) (k : Nat) : (m * 2 ^ k).log2 = m.log2 + k := by
  have hpos := Nat.two_pow_pos k
  obtain ⟨hlow, hhigh⟩ := (Nat.log2_eq_iff hm).1 rfl
  refine (Nat.log2_eq_iff (Nat.mul_ne_zero hm (Nat.ne_of_gt hpos))).2 ⟨?_, ?_⟩
  · rw [Nat.pow_add]
    exact Nat.mul_le_mul_right _ hlow
  · rw [Nat.add_right_comm, Nat.pow_add]
    exact Nat.mul_lt_mul_of_pos_right hhigh hpos

/-- More digits do not change where the first one is. -/
theorem totalExponent_shift (hm : m ≠ 0) (e : Int) (k : Nat) :
    totalExponent (m * 2 ^ k) (e - k) = totalExponent m e := by
  unfold totalExponent
  rw [log2_mul_two_pow hm]
  omega

/-- Zeros that are dropped leave nothing to round. -/
theorem shiftRight_exact (m k : Nat) :
    ExtendedMantissa.ofMantissaAndAccuracy (m * 2 ^ k) .exact >>> k = ⟨m, false, false⟩ := by
  induction k generalizing m with
  | zero =>
    rw [Nat.pow_zero, Nat.mul_one]
    rfl
  | succ k ih =>
    have hstep : ExtendedMantissa.ofMantissaAndAccuracy (m * 2 ^ (k + 1)) .exact >>> k = ⟨m * 2, false, false⟩ := by
      rw [Nat.pow_succ, Nat.mul_comm (2 ^ k), ← Nat.mul_assoc]
      exact ih (m * 2)
    change ExtendedMantissa.shiftRightOne (ExtendedMantissa.ofMantissaAndAccuracy (m * 2 ^ (k + 1)) .exact >>> k) = _
    rw [hstep]
    simp [ExtendedMantissa.shiftRightOne]

/-- The digits that are too many are dropped. -/
theorem shiftToTargetExponent_exact (hm : m ≠ 0) (hc : Canonical f m e) (k : Nat) :
    shiftToTargetExponent f (m * 2 ^ k) (e - k) .exact = (⟨m, false, false⟩, e) := by
  have hk : (e - (e - k)).toNat = k := by omega
  unfold shiftToTargetExponent shiftToExponent
  rw [totalExponent_shift hm, hc]
  dsimp only
  rw [hk, shiftRight_exact, Int.sub_add_cancel]

theorem roundWithAccuracy_exact (s : Sign) (hm : 0 < m) (hc : Canonical f m e) (k : Nat) :
    roundWithAccuracy f s (m * 2 ^ k) (e - k) .exact = .finite s m e hm := by
  have hsame : shiftToTargetExponent f m e .exact = (⟨m, false, false⟩, e) := by
    have h := shiftToTargetExponent_exact (Nat.ne_of_gt hm) hc 0
    rwa [Nat.pow_zero, Nat.mul_one, Int.natCast_zero, Int.sub_zero] at h
  have hrounded : (⟨m, false, false⟩ : ExtendedMantissa).roundedMantissa = m := rfl
  unfold roundWithAccuracy
  rw [shiftToTargetExponent_exact (Nat.ne_of_gt hm) hc]
  dsimp only
  rw [hrounded, hsame]
  exact dif_neg (Nat.ne_of_gt hm)

/-- A number that the format can write is rounded to itself. -/
theorem round_canonical (s : Sign) (hm : 0 < m) (hc : Canonical f m e) (k : Nat) :
    UnpackedFloat.round f s (m * 2 ^ k) (e - k) = .finite s m e hm := by
  have hk : (e - k - e).toNat = 0 := by omega
  unfold UnpackedFloat.round decreaseExponent
  rw [totalExponent_shift (Nat.ne_of_gt hm), hc]
  dsimp only
  rw [hk, Nat.shiftLeft_zero, Int.natCast_zero, Int.sub_zero]
  exact roundWithAccuracy_exact s hm hc k

/-- Where the format has more digits they are zeros. -/
theorem round_finer (s : Sign) (hm : 0 < m) (hc : Canonical f (m * 2 ^ k) (e - k)) :
    UnpackedFloat.round f s m e = .finite s (m * 2 ^ k) (e - k) (Nat.mul_pos hm (Nat.two_pow_pos k)) := by
  have hk : (e - (e - k)).toNat = k := by omega
  have htarget : f.targetExponent (totalExponent m e) = e - k := by
    rw [← totalExponent_shift (Nat.ne_of_gt hm) e k]
    exact hc
  have hexact := roundWithAccuracy_exact s (Nat.mul_pos hm (Nat.two_pow_pos k)) hc 0
  rw [Nat.pow_zero, Nat.mul_one, Int.natCast_zero, Int.sub_zero] at hexact
  unfold UnpackedFloat.round decreaseExponent
  rw [htarget]
  dsimp only
  rw [hk, Nat.shiftLeft_eq, hexact]

/-! ## Packed numbers -/

theorem minExponent_eq (f : Format) : f.minExponent = 1 - f.exponentBias - f.mantissaBitsWithoutImplicit := by
  have hpos := Nat.two_pow_pos (f.exponentBits - 1)
  have hcast : ((2 ^ (f.exponentBits - 1) : Nat) : Int) = 2 ^ (f.exponentBits - 1) := Int.natCast_pow 2 _
  unfold Format.minExponent Format.exponentBias Format.mantissaBits
  omega

/-- How many exponents there are. -/
theorem exponents_eq (f : Format) : 2 ^ f.exponentBits = 2 * f.exponentBias + 2 := by
  have hpos := Nat.two_pow_pos (f.exponentBits - 1)
  have hsplit : 2 ^ f.exponentBits = 2 * 2 ^ (f.exponentBits - 1) := by
    rw [← Nat.pow_succ', Nat.succ_eq_add_one, Nat.sub_add_cancel f.he]
  unfold Format.exponentBias
  omega

/-- A canonical number has all digits, or the least exponent. -/
theorem canonical_iff : Canonical f m e ↔
    m.log2 = f.mantissaBitsWithoutImplicit ∧ f.minExponent ≤ e ∨
      m.log2 < f.mantissaBitsWithoutImplicit ∧ e = f.minExponent := by
  unfold Canonical Format.targetExponent totalExponent Format.mantissaBits
  omega

/-- The format holds the number `m · 2^e`, and writes it so. -/
structure Holds (f : Format) (m : Nat) (e : Int) : Prop where
  canonical : Canonical f m e
  high : e ≤ f.exponentBias - f.mantissaBitsWithoutImplicit

theorem toNat_implicit {n : Nat} (y : BitVec n) : (1#1 ++ y).toNat = 2 ^ n + y.toNat := by
  rw [BitVec.toNat_append, ← Nat.shiftLeft_add_eq_or_of_lt y.isLt, Nat.shiftLeft_eq]
  exact congrArg (· + y.toNat) (Nat.one_mul _)

theorem log2_implicit {n : Nat} (y : BitVec n) : (1#1 ++ y).toNat.log2 = n := by
  have hlt := y.isLt
  have hpos := Nat.two_pow_pos n
  rw [toNat_implicit]
  exact (Nat.log2_eq_iff (by omega)).2 ⟨by omega, by rw [Nat.pow_succ]; omega⟩

theorem finite_congr {s s' : Sign} {m' : Nat} {e' : Int} {h : 0 < m} {h' : 0 < m'} (hs : s = s') (hm : m = m')
    (he : e = e') : UnpackedFloat.finite s m e h = .finite s' m' e' h' := by
  subst hs hm he
  rfl

section Components

variable {s : Sign} {x : BitVec f.exponentBits} {y : BitVec f.mantissaBitsWithoutImplicit}

theorem sign_packComponents : Sign.ofBitVec (unpackSign (packComponents f s x y)) = s := by
  have hbit : unpackSign (packComponents f s x y) = s.toBitVec := by
    refine BitVec.eq_of_getLsbD_eq fun i hi => ?_
    obtain rfl : i = 0 := by omega
    let top := f.mantissaBitsWithoutImplicit + f.exponentBits
    change (((s.toBitVec ++ x ++ y).extractLsb top top).cast (by simp)).getLsbD 0 = s.toBitVec.getLsbD 0
    simp +arith [top, BitVec.getElem_append]
  rw [hbit]
  cases s <;> rfl

theorem unpack_normal (hx : x ≠ -1#_) (hx0 : x ≠ 0#_) (hy : 0 < (1#1 ++ y).toNat) :
    UnpackedFloat.unpack f (packComponents f s x y) = .finite s (1#1 ++ y).toNat
      (x.toNat - (f.exponentBias + f.mantissaBitsWithoutImplicit)) hy := by
  unfold UnpackedFloat.unpack
  dsimp only
  rw [unpackExponent_packComponents, if_neg hx, if_neg hx0]
  exact finite_congr sign_packComponents (by rw [unpackMantissa_packComponents]) rfl

theorem unpack_subnormal (hy : 0 < y.toNat) :
    UnpackedFloat.unpack f (packComponents f s 0#_ y) = .finite s y.toNat
      (1 - (f.exponentBias + f.mantissaBitsWithoutImplicit)) hy := by
  have hne : 0#f.exponentBits ≠ -1#_ := by
    intro hall
    have hnat := congrArg BitVec.toNat hall
    rw [BitVec.neg_one_eq_allOnes, BitVec.toNat_allOnes, BitVec.toNat_ofNat, Nat.zero_mod, exponents_eq] at hnat
    omega
  have hy0 : unpackMantissa (packComponents f s 0#_ y) ≠ 0#_ := by
    rintro h0
    rw [unpackMantissa_packComponents] at h0
    rw [h0] at hy
    cases hy
  unfold UnpackedFloat.unpack
  dsimp only
  rw [unpackExponent_packComponents, if_neg hne, if_pos rfl, dif_neg hy0]
  refine finite_congr sign_packComponents (by rw [unpackMantissa_packComponents]) ?_
  rw [BitVec.toNat_ofNat, Nat.zero_mod]
  omega

end Components

section Packed

variable (hf : 0 < f.exponentBias)
include hf

/-- What is unpacked is held by the format. -/
theorem holds_of_unpack {b : BitVec f.numBits} {s : Sign} {h : 0 < m} (hb : UnpackedFloat.unpack f b = .finite s m e h) :
    Holds f m e := by
  have hmin := minExponent_eq f
  have hcount := exponents_eq f
  unfold UnpackedFloat.unpack at hb
  dsimp only at hb
  by_cases hmax : unpackExponent b = -1#_
  · rw [if_pos hmax] at hb
    by_cases hzero : unpackMantissa b = 0#_
    · rw [if_pos hzero] at hb
      cases hb
    · rw [if_neg hzero] at hb
      cases hb
  rw [if_neg hmax] at hb
  by_cases hleast : unpackExponent b = 0#_
  · rw [if_pos hleast] at hb
    by_cases hzero : unpackMantissa b = 0#_
    · rw [dif_pos hzero] at hb
      cases hb
    -- with the least exponent there is no implicit digit
    rw [dif_neg hzero] at hb
    injection hb with _ hmantissa hexponent
    subst hmantissa hexponent
    rw [hleast, BitVec.toNat_ofNat, Nat.zero_mod]
    have hlog : (unpackMantissa b).toNat.log2 < f.mantissaBitsWithoutImplicit :=
      (Nat.log2_lt (Nat.ne_of_gt h)).2 (unpackMantissa b).isLt
    exact ⟨canonical_iff.2 (.inr ⟨hlog, by omega⟩), by omega⟩
  · rw [if_neg hleast] at hb
    injection hb with _ hmantissa hexponent
    subst hmantissa hexponent
    have hpos : (unpackExponent b).toNat ≠ 0 := fun h0 => hleast (BitVec.eq_of_toNat_eq h0)
    have hlt : (unpackExponent b).toNat + 1 ≠ 2 ^ f.exponentBits := by
      refine fun hall => hmax (BitVec.eq_of_toNat_eq ?_)
      rw [BitVec.neg_one_eq_allOnes, BitVec.toNat_allOnes]
      omega
    have hbound := (unpackExponent b).isLt
    exact ⟨canonical_iff.2 (.inl ⟨log2_implicit _, by omega⟩), by omega⟩

/-- Packing loses nothing of what the format holds. -/
theorem unpack_pack (s : Sign) (hm : 0 < m) (hh : Holds f m e) :
    UnpackedFloat.unpack f (UnpackedFloat.pack f (.finite s m e hm)) = .finite s m e hm := by
  have hmin := minExponent_eq f
  have hcount := exponents_eq f
  have hhigh := hh.high
  obtain ⟨hlow, hshort⟩ := (Nat.log2_eq_iff (Nat.ne_of_gt hm)).1 rfl
  have hfinite : ¬ 2 ^ f.exponentBits ≤ (e + f.exponentBias + f.mantissaBitsWithoutImplicit).toNat + 1 := by omega
  refine (congrArg (UnpackedFloat.unpack f) (if_neg hfinite)).trans ?_
  rcases canonical_iff.1 hh.canonical with ⟨hlog, hleast⟩ | ⟨hlog, hleast⟩
  · have hbits : m.log2 + 1 = f.mantissaBits := by
      unfold Format.mantissaBits
      omega
    have hexponent : (BitVec.ofNat f.exponentBits
        (e + f.exponentBias + f.mantissaBitsWithoutImplicit).toNat).toNat =
          (e + f.exponentBias + f.mantissaBitsWithoutImplicit).toNat := by
      rw [BitVec.toNat_ofNat, Nat.mod_eq_of_lt (by omega)]
    rw [hlog] at hlow hshort
    rw [Nat.pow_succ] at hshort
    rw [if_pos hbits]
    refine (unpack_normal ?_ ?_ (by simp)).trans (finite_congr rfl ?_ ?_)
    · exact fun hmax => by rw [hmax, BitVec.neg_one_eq_allOnes, BitVec.toNat_allOnes] at hexponent; omega
    · exact fun hzero => by rw [hzero, BitVec.toNat_ofNat, Nat.zero_mod] at hexponent; omega
    · rw [toNat_implicit, BitVec.toNat_ofNat, Nat.mod_eq_sub_mod hlow, Nat.mod_eq_of_lt (by omega)]
      omega
    · rw [hexponent]
      omega
  · have hbits : ¬ m.log2 + 1 = f.mantissaBits := by
      unfold Format.mantissaBits
      omega
    have hmantissa : (BitVec.ofNat f.mantissaBitsWithoutImplicit m).toNat = m := by
      rw [BitVec.toNat_ofNat, Nat.mod_eq_of_lt ((Nat.log2_lt (Nat.ne_of_gt hm)).1 hlog)]
    rw [if_neg hbits]
    exact (unpack_subnormal (by rwa [hmantissa])).trans (finite_congr rfl hmantissa (by omega))

end Packed

/-! ## Single precision -/

/-- What is infinite, zero or no number is packed as such. -/
theorem unpack_ofUnpacked {u : UnpackedFloat} (hu : ∀ s m e h, u ≠ .finite s m e h) :
    (ofUnpacked u).toModel.unpack = u := by
  cases u with
  | finite s m e h => exact absurd rfl (hu s m e h)
  | infinity s | zero s => cases s <;> rfl
  | notANumber => rfl

/-- A number of single precision is a double with more digits. -/
theorem unpack_ofUnpacked_finite (s : Sign) (hm : 0 < m) (hh : Holds .binary32 m e) :
    ∃ (k : Nat) (h : 0 < m * 2 ^ k), (ofUnpacked (.finite s m e hm)).toModel.unpack = .finite s (m * 2 ^ k) (e - k) h := by
  have hhigh : e ≤ 104 := hh.high
  have hcanonical := canonical_iff.1 hh.canonical
  change m.log2 = 23 ∧ -149 ≤ e ∨ m.log2 < 23 ∧ e = -149 at hcanonical
  obtain ⟨k, hk⟩ := Nat.exists_eq_add_of_le (show m.log2 ≤ 52 by omega)
  have hlog : (m * 2 ^ k).log2 = 52 := by rw [log2_mul_two_pow (Nat.ne_of_gt hm), hk]
  have hwide : Holds .binary64 (m * 2 ^ k) (e - k) := by
    refine ⟨canonical_iff.2 (.inl ⟨hlog, ?_⟩), ?_⟩
    · change -1074 ≤ e - k
      omega
    · change e - k ≤ 971
      omega
  refine ⟨k, Nat.mul_pos hm (Nat.two_pow_pos k), ?_⟩
  unfold ofUnpacked
  dsimp only
  rw [round_finer s hm hwide.canonical]
  exact unpack_pack (by decide) s _ hwide

theorem toSingle_ofUnpacked (b : BitVec 32) :
    toSingle (ofUnpacked (UnpackedFloat.unpack .binary32 b)) = ofUnpacked (UnpackedFloat.unpack .binary32 b) := by
  cases hb : UnpackedFloat.unpack .binary32 b with
  | finite s m e h =>
    have hh := holds_of_unpack (by decide) hb
    obtain ⟨k, h', hwide⟩ := unpack_ofUnpacked_finite s h hh
    unfold toSingle
    rw [hwide]
    dsimp only
    rw [round_canonical s h hh.canonical, unpack_pack (by decide) s h hh]
  | infinity s | zero s | notANumber =>
    unfold toSingle
    rw [unpack_ofUnpacked fun _ _ _ _ h => by cases h]

/-- What is of single precision stays as it is. -/
theorem toSingle_toSingle (x : Float) : toSingle (toSingle x) = toSingle x := by
  conv => rhs; unfold toSingle
  conv => lhs; arg 1; unfold toSingle
  cases hx : x.toModel.unpack with
  | finite s m e h => exact toSingle_ofUnpacked _
  | infinity s | zero s | notANumber =>
    dsimp only
    unfold toSingle
    rw [unpack_ofUnpacked fun _ _ _ _ h => by cases h]

end Treewalk.Double
