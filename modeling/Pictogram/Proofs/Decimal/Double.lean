import Mathlib
import Pictogram.Decimal.Binary

/-! # Doubles and their parts

Arithmetic unpacks the bits of a double to a sign, a mantissa and an exponent, and packs the result
again.  `Double.unpack_eq` says that these are the parts that `Binary.ofFloat` reads off the bits.  A double is
known by its parts (`Double.eq_of_unpack_eq`), and parts that are in range come back as they were
(`Double.unpack_pack`).  Adding zero gives what compares equal (`Double.add_zero_beq`).  Only NaN is packed as NaN
(`Double.ofModel_pack_ne_nan`). -/

namespace Pictogram

open Float.Model (Format UnpackedFloat)
open Float.Model.UnpackedFloat (Sign packComponents unpackSign unpackExponent unpackMantissa packedNaN packedInfinity
  packedZero isNaNBits)

namespace Binary

/-- The sign of arithmetic. -/
def sign (negative : Bool) : Sign := if negative then .negative else .positive

/-- A double in the form in which it is computed with. -/
def unpacked : Binary → UnpackedFloat
  | nan => .notANumber
  | infinite negative => .infinity (sign negative)
  | finite negative m e =>
    if h : m = 0 then .zero (sign negative) else .finite (sign negative) m e (Nat.pos_of_ne_zero h)

theorem unpacked_finite (negative : Bool) {m : Nat} (e : Int) (h : 0 < m) :
    (finite negative m e).unpacked = .finite (sign negative) m e h :=
  dif_neg (Nat.ne_of_gt h)

/-- The mantissas and exponents of doubles: a mantissa has all its bits, unless the exponent is the least. -/
def InRange (m : Nat) (e : Int) : Prop :=
  m < 2 * leastNormal ∧ leastExponent ≤ e ∧ e ≤ 971 ∧ (leastNormal ≤ m ∨ e = leastExponent)

/-- The mantissas and exponents that doubles would have without a greatest exponent. -/
def Normalized (m : Nat) (e : Int) : Prop :=
  m < 2 * leastNormal ∧ leastExponent ≤ e ∧ (leastNormal ≤ m ∨ e = leastExponent)

theorem InRange.normalized {m : Nat} {e : Int} (h : InRange m e) : Normalized m e := ⟨h.1, h.2.1, h.2.2.2⟩

theorem Normalized.inRange {m : Nat} {e : Int} (h : Normalized m e) (he : e ≤ 971) : InRange m e :=
  ⟨h.1, h.2.1, he, h.2.2⟩

theorem inRange_of_ofFloat {x : Float} {negative : Bool} {m : Nat} {e : Int}
    (h : ofFloat x = finite negative m e) : InRange m e := by
  have hfraction : (x.toBits &&& 0xFFFFFFFFFFFFF).toNat < leastNormal := by
    rw [UInt64.toNat_and]
    exact Nat.lt_of_le_of_lt Nat.and_le_right (by decide)
  have hbiased : (x.toBits >>> 52 &&& 0x7FF).toNat ≤ 0x7FF := by
    rw [UInt64.toNat_and]
    exact Nat.and_le_right
  unfold ofFloat at h
  dsimp only at h
  split at h
  · split at h <;> cases h
  · split at h
    · cases h
      refine ⟨by omega, Int.le_refl _, by decide, .inr rfl⟩
    · cases h
      simp only [InRange, leastNormal, leastExponent] at hfraction ⊢
      omega

end Binary

namespace Double

/-! ### Fields of bits -/

section fields
variable (u : UInt64)

theorem toNat_biased : (u >>> 52 &&& 0x7FF).toNat = (@unpackExponent .binary64 u.toBitVec).toNat := by
  simp only [unpackExponent, BitVec.extractLsb, UInt64.toNat_and, UInt64.toNat_shiftRight, BitVec.toNat_cast,
    BitVec.extractLsb'_toNat]
  exact Nat.and_two_pow_sub_one_eq_mod _ 11

theorem toNat_fraction : (u &&& 0xFFFFFFFFFFFFF).toNat = (@unpackMantissa .binary64 u.toBitVec).toNat := by
  simp only [unpackMantissa, BitVec.extractLsb, UInt64.toNat_and, BitVec.toNat_cast, BitVec.extractLsb'_toNat]
  exact Nat.and_two_pow_sub_one_eq_mod _ 52

theorem sign_eq : Binary.sign (u >>> 63 == 1) = .ofBitVec (@unpackSign .binary64 u.toBitVec) := by
  have hbit : (u >>> 63 == 1) = decide (@unpackSign .binary64 u.toBitVec = 1#1) := by
    rw [Bool.eq_iff_iff, beq_iff_eq, decide_eq_true_eq, ← UInt64.toNat_inj, ← BitVec.toNat_inj]
    have hlt := u.toNat_lt
    simp [unpackSign, BitVec.extractLsb]
    omega
  rw [hbit]
  have hcases (s : BitVec 1) : s = 0#1 ∨ s = 1#1 := by
    revert s
    decide
  rcases hcases (@unpackSign .binary64 u.toBitVec) with h | h <;> rw [h] <;> rfl

theorem toNat_one_append (v : BitVec 52) : (1#1 ++ v).toNat = Binary.leastNormal + v.toNat := by
  rw [BitVec.toNat_append, ← Nat.shiftLeft_add_eq_or_of_lt v.isLt]
  rfl

end fields

/-! ### Unpacking and packing -/

/-- Arithmetic takes a double for what its parts say. -/
theorem unpack_eq (x : Float) : x.toModel.unpack = (Binary.ofFloat x).unpacked := by
  have hones : @unpackExponent .binary64 x.toBits.toBitVec = -1#11 ↔ (x.toBits >>> 52 &&& 0x7FF).toNat = 0x7FF := by
    rw [toNat_biased, ← BitVec.toNat_inj]
    rfl
  have hzero : @unpackExponent .binary64 x.toBits.toBitVec = 0#11 ↔ (x.toBits >>> 52 &&& 0x7FF).toNat = 0 := by
    rw [toNat_biased, ← BitVec.toNat_inj]
    rfl
  have hfraction :
      @unpackMantissa .binary64 x.toBits.toBitVec = 0#52 ↔ (x.toBits &&& 0xFFFFFFFFFFFFF).toNat = 0 := by
    rw [toNat_fraction, ← BitVec.toNat_inj]
    rfl
  show UnpackedFloat.unpack .binary64 x.toBits.toBitVec = _
  unfold UnpackedFloat.unpack Binary.ofFloat
  dsimp only
  by_cases h₁ : @unpackExponent .binary64 x.toBits.toBitVec = -1#11
  · rw [if_pos h₁, if_pos (hones.mp h₁)]
    by_cases h₂ : @unpackMantissa .binary64 x.toBits.toBitVec = 0#52
    · rw [if_pos h₂, if_pos (hfraction.mp h₂), ← sign_eq]
      rfl
    · rw [if_neg h₂, if_neg (mt hfraction.mpr h₂)]
      rfl
  · rw [if_neg h₁, if_neg (mt hones.mpr h₁)]
    by_cases h₃ : @unpackExponent .binary64 x.toBits.toBitVec = 0#11
    · rw [if_pos h₃, if_pos (hzero.mp h₃)]
      by_cases h₂ : @unpackMantissa .binary64 x.toBits.toBitVec = 0#52
      · rw [dif_pos h₂, Binary.unpacked, dif_pos (hfraction.mp h₂), sign_eq]
      · rw [dif_neg h₂, Binary.unpacked, dif_neg (mt hfraction.mpr h₂), sign_eq, UnpackedFloat.finite.injEq]
        refine ⟨rfl, (toNat_fraction x.toBits).symm, ?_⟩
        rw [h₃]
        rfl
    · rw [if_neg h₃, if_neg (mt hzero.mpr h₃), Binary.unpacked, dif_neg (by simp [Binary.leastNormal]), sign_eq,
        UnpackedFloat.finite.injEq, toNat_fraction, toNat_biased]
      refine ⟨rfl, toNat_one_append _, ?_⟩
      rfl

/-- Parts in range are the parts of a double. -/
theorem unpack_pack (s : Sign) {m : Nat} {e : Int} (hm : 0 < m) (h : Binary.InRange m e) :
    (Float.Model.pack (.finite s m e hm)).unpack = .finite s m e hm := by
  show UnpackedFloat.unpack .binary64 (UnpackedFloat.pack .binary64 (.finite s m e hm)) = _
  obtain ⟨hlt, hleast, hmost, hnormal⟩ := h
  simp only [Binary.leastNormal, Binary.leastExponent] at hlt hleast hnormal
  have hexponent : (e + Format.binary64.exponentBias + Format.binary64.mantissaBitsWithoutImplicit).toNat =
      (e + 1075).toNat := by
    show (e + 1023 + 52).toNat = _
    omega
  have hordinary : ¬ 2 ^ Format.binary64.exponentBits ≤ (e + 1075).toNat + 1 := by
    show ¬ 2 ^ 11 ≤ _
    omega
  simp only [UnpackedFloat.pack, hexponent]
  rw [if_neg hordinary]
  by_cases hfull : 2 ^ 52 ≤ m
  · have hlog : m.log2 + 1 = Format.binary64.mantissaBits := by
      show _ = 53
      rw [Nat.add_right_cancel_iff, Nat.log2_eq_iff (by omega)]
      omega
    have hbiased : (BitVec.ofNat 11 (e + 1075).toNat).toNat = (e + 1075).toNat := by
      rw [BitVec.toNat_ofNat]
      omega
    have hones : BitVec.ofNat 11 (e + 1075).toNat ≠ -1#11 := by
      intro h
      rw [h] at hbiased
      change 2047 = _ at hbiased
      omega
    have hzero : BitVec.ofNat 11 (e + 1075).toNat ≠ 0#11 := by
      intro h
      rw [h] at hbiased
      change 0 = _ at hbiased
      omega
    rw [if_pos hlog]
    unfold UnpackedFloat.unpack
    simp only [UnpackedFloat.unpackExponent_packComponents, UnpackedFloat.unpackMantissa_packComponents,
      UnpackedFloat.unpackSign_packComponents, Sign.ofBitVec_toBitVec]
    rw [if_neg hones, if_neg hzero, UnpackedFloat.finite.injEq, hbiased]
    refine ⟨rfl, ?_, ?_⟩
    · rw [toNat_one_append, BitVec.toNat_ofNat, Binary.leastNormal]
      omega
    · show _ - (1023 + 52 : Int) = e
      omega
  · obtain rfl : e = -1074 := hnormal.resolve_left (by omega)
    have hlog : m.log2 + 1 ≠ Format.binary64.mantissaBits := by
      have hlog : m.log2 < 52 := (Nat.log2_lt (by omega)).mpr (by omega)
      show _ ≠ 53
      omega
    have hfraction : (BitVec.ofNat 52 m).toNat = m := by
      rw [BitVec.toNat_ofNat]
      omega
    have hzero : BitVec.ofNat 52 m ≠ 0#52 := by
      intro h
      rw [h] at hfraction
      change 0 = _ at hfraction
      omega
    rw [if_neg hlog]
    unfold UnpackedFloat.unpack
    simp only [UnpackedFloat.unpackExponent_packComponents, UnpackedFloat.unpackMantissa_packComponents,
      UnpackedFloat.unpackSign_packComponents, Sign.ofBitVec_toBitVec]
    rw [if_neg (by decide), if_pos trivial, dif_neg hzero, UnpackedFloat.finite.injEq]
    exact ⟨rfl, hfraction, rfl⟩

/-- A double is known by its parts. -/
theorem eq_of_unpack_eq {x y : Float} (h : x.toModel.unpack = y.toModel.unpack) : x = y := by
  rw [← Float.toBits_inj, ← UInt64.toBitVec_inj]
  exact (UnpackedFloat.unpack_inj_of_valid x.toModel.valid y.toModel.valid).mp h

theorem isFinite_iff (x : Float) : x.isFinite = true ↔ ∃ negative m e, Binary.ofFloat x = .finite negative m e := by
  show x.toModel.unpack.isFinite = true ↔ _
  rw [unpack_eq]
  cases Binary.ofFloat x with
  | nan => simp [Binary.unpacked, UnpackedFloat.isFinite]
  | infinite negative => simp [Binary.unpacked, UnpackedFloat.isFinite]
  | finite negative m e =>
      by_cases h : m = 0 <;> simp [Binary.unpacked, UnpackedFloat.isFinite, h]

/-! ### Comparing -/

theorem ne_nan_of_isFinite {x : Float} (h : x.isFinite = true) : x ≠ Float.nan := by
  rintro rfl
  cases h

/-- The zeros compare equal to zero. -/
theorem zero_beq {x : Float} {s : Sign} (h : x.toModel.unpack = .zero s) : (0 == x) = true := by
  cases s with
  | positive =>
      obtain rfl : x = 0 := eq_of_unpack_eq (h.trans rfl)
      rfl
  | negative =>
      obtain rfl : x = -0 := eq_of_unpack_eq (h.trans rfl)
      rfl

/-- A finite double equals zero if its mantissa is zero. -/
theorem beq_zero_iff {x : Float} {negative : Bool} {m : Nat} {e : Int} (hx : Binary.ofFloat x = .finite negative m e) :
    (x == 0) = true ↔ m = 0 := by
  constructor
  · intro h
    have hzero : x = 0 ∨ x = -0 := by
      obtain ⟨-, -, heq | ⟨heq, -⟩ | ⟨heq, -⟩⟩ := Float.beq_iff_ne_nan_and_eq.mp h
      · exact .inl heq
      · exact .inl heq
      · exact .inr heq
    have hpositive : Binary.ofFloat 0 = .finite false 0 Binary.leastExponent := by decide
    have hnegative : Binary.ofFloat (-0) = .finite true 0 Binary.leastExponent := by decide
    rcases hzero with rfl | rfl
    · rw [hpositive] at hx
      cases hx
      rfl
    · rw [hnegative] at hx
      cases hx
      rfl
  · intro hm
    have hzero : x.toModel.unpack = .zero (Binary.sign negative) := by
      rw [unpack_eq, hx, Binary.unpacked, dif_pos hm]
    exact PartialEquivBEq.symm (zero_beq hzero)

/-- Adding zero changes nothing but the sign of a zero. -/
theorem unpacked_add_zero {a : UnpackedFloat} (h : ∀ s, a ≠ .zero s) :
    UnpackedFloat.add .binary64 a (.zero .positive) = a := by
  cases a with
  | zero s => exact absurd rfl (h s)
  | _ => rfl

theorem add_zero_beq {x : Float} (h : x ≠ Float.nan) : (x + 0 == x) = true := by
  have hadd : x + 0 = .ofModel (.pack (UnpackedFloat.add .binary64 x.toModel.unpack (.zero .positive))) := rfl
  by_cases hzero : ∃ s, x.toModel.unpack = .zero s
  · obtain ⟨s, hs⟩ := hzero
    have hsum : x + 0 = 0 := by
      rw [hadd, hs]
      cases s <;> rfl
    rw [hsum]
    exact zero_beq hs
  · have hsum : x + 0 = x := by
      rw [hadd, unpacked_add_zero (not_exists.mp hzero)]
      exact Float.ofBits_toBits x
    rw [hsum]
    exact Float.beq_self_iff.mpr h

/-! ### NaN -/

/-- Packing gives NaN for nothing else. -/
theorem ofModel_pack_ne_nan {a : UnpackedFloat} (h : a ≠ .notANumber) : Float.ofModel (.pack a) ≠ .nan := by
  have hbits : isNaNBits (UnpackedFloat.pack .binary64 a) = false := by
    fun_cases UnpackedFloat.pack .binary64 a with
    | case1 => exact absurd rfl h
    | case2 s => simp [isNaNBits, packedInfinity]
    | case3 s => simp [isNaNBits, packedZero]
    | case4 s m e hm bits hlarge => simp [isNaNBits, packedInfinity]
    | case5 s m e hm bits biased hlarge hnormal =>
        have hlt : biased < 2 ^ 11 - 1 := by
          have : ¬ 2 ^ 11 ≤ biased + 1 := hlarge
          omega
        have hones : BitVec.ofNat 11 biased ≠ -1#11 := by
          intro heq
          have htoNat := congrArg BitVec.toNat heq
          rw [BitVec.toNat_ofNat, Nat.mod_eq_of_lt (by omega)] at htoNat
          change biased = 2 ^ 11 - 1 at htoNat
          omega
        unfold isNaNBits
        rw [UnpackedFloat.unpackExponent_packComponents]
        exact decide_eq_false fun hnan => hones hnan.1
    | case6 s m e hm bits biased hlarge hsubnormal => simp [isNaNBits]
  intro hnan
  have hpacked : UnpackedFloat.pack .binary64 a = packedNaN .binary64 := congrArg (fun x => x.toBits.toBitVec) hnan
  rw [hpacked, UnpackedFloat.isNaNBits_packedNaN] at hbits
  cases hbits

theorem unpack_ne_notANumber {x : Float} (h : x ≠ .nan) : x.toModel.unpack ≠ .notANumber := by
  intro hnan
  exact h (eq_of_unpack_eq (hnan.trans rfl))

theorem neg_ne_nan {x : Float} (h : x ≠ .nan) : -x ≠ .nan := by
  apply ofModel_pack_ne_nan
  have hx := unpack_ne_notANumber h
  cases hunpack : x.toModel.unpack with
  | notANumber => exact absurd hunpack hx
  | _ => rintro ⟨⟩

end Double
end Pictogram
