import Pictogram.Decimal.Numeral
import Pictogram.Proofs.Decimal.Rounding

/-! # The double next to a number

Every number that is not negative lies next to a mantissa and an exponent (`Double.exists_roundsTo`).  Where the
exponent is too large for a double, the double is infinite (`Double.ofFloat_pack`).  `Double.Rounds` puts this together: it
says of the parts of a double that they are those of the double next to a number with a sign.  There is exactly one such
double for each numeral, its value (`Numeral.rounds_iff_eq_value`). -/

namespace Pictogram

open Float.Model (UnpackedFloat)

/-! ### The parts of a double -/

namespace Binary

/-- What the parts of every double satisfy. -/
def Bounded : Binary → Prop
  | nan => True
  | infinite _ => True
  | finite _ m e => InRange m e

theorem bounded_ofFloat (x : Float) : (ofFloat x).Bounded := by
  cases hx : ofFloat x with
  | nan => trivial
  | infinite negative => trivial
  | finite negative m e => exact inRange_of_ofFloat hx

theorem sign_inj {s t : Bool} (h : sign s = sign t) : s = t := by
  cases s <;> cases t <;> simp_all [sign]

theorem InRange.exponent_of_zero {e : Int} (h : InRange 0 e) : e = leastExponent :=
  h.2.2.2.resolve_left (by decide)

/-- The parts of a double are known by the form in which it is computed with. -/
theorem eq_of_unpacked_eq {b b' : Binary} (hb : b.Bounded) (hb' : b'.Bounded) (h : b.unpacked = b'.unpacked) :
    b = b' := by
  cases b with
  | nan =>
      cases b' with
      | nan => rfl
      | infinite t => cases h
      | finite t m' e' => by_cases hm' : m' = 0 <;> simp [unpacked, hm'] at h
  | infinite s =>
      cases b' with
      | nan => cases h
      | infinite t => rw [sign_inj (UnpackedFloat.infinity.inj h)]
      | finite t m' e' => by_cases hm' : m' = 0 <;> simp [unpacked, hm'] at h
  | finite s m e =>
      cases b' with
      | nan => by_cases hm : m = 0 <;> simp [unpacked, hm] at h
      | infinite t => by_cases hm : m = 0 <;> simp [unpacked, hm] at h
      | finite t m' e' =>
          by_cases hm : m = 0
          · by_cases hm' : m' = 0
            · subst hm hm'
              rw [sign_inj (UnpackedFloat.zero.inj h), InRange.exponent_of_zero hb, InRange.exponent_of_zero hb']
            · simp [unpacked, hm, hm'] at h
          · by_cases hm' : m' = 0
            · simp [unpacked, hm, hm'] at h
            · simp only [unpacked, dif_neg hm, dif_neg hm', UnpackedFloat.finite.injEq] at h
              rw [sign_inj h.1, h.2.1, h.2.2]

/-- The other sign. -/
def neg : Binary → Binary
  | nan => nan
  | infinite negative => infinite (!negative)
  | finite negative m e => finite (!negative) m e

theorem unpacked_neg (b : Binary) : b.neg.unpacked = b.unpacked.neg := by
  cases b with
  | nan => rfl
  | infinite negative => cases negative <;> rfl
  | finite negative m e => by_cases hm : m = 0 <;> cases negative <;> simp [neg, unpacked, hm] <;> rfl

theorem Bounded.neg {b : Binary} (hb : b.Bounded) : b.neg.Bounded := by
  cases b <;> exact hb

end Binary

namespace Double

/-- Parts of a double come back as they were. -/
theorem unpack_pack_unpacked {b : Binary} (hb : b.Bounded) : (Float.Model.pack b.unpacked).unpack = b.unpacked := by
  cases b with
  | nan => rfl
  | infinite negative => cases negative <;> rfl
  | finite negative m e =>
      by_cases hm : m = 0
      · rw [Binary.unpacked, dif_pos hm]
        cases negative <;> rfl
      · rw [Binary.unpacked_finite negative e (Nat.pos_of_ne_zero hm)]
        exact unpack_pack _ _ hb

theorem ofFloat_ofModel_pack {b : Binary} (hb : b.Bounded) : Binary.ofFloat (.ofModel (.pack b.unpacked)) = b := by
  refine Binary.eq_of_unpacked_eq (Binary.bounded_ofFloat _) hb ?_
  rw [← unpack_eq]
  exact unpack_pack_unpacked hb

theorem ofFloat_neg (x : Float) : Binary.ofFloat (-x) = (Binary.ofFloat x).neg := by
  have hneg : -x = .ofModel (.pack x.toModel.unpack.neg) := rfl
  rw [hneg, unpack_eq, ← Binary.unpacked_neg]
  exact ofFloat_ofModel_pack (Binary.bounded_ofFloat x).neg

theorem ofFloat_inj {x y : Float} (h : Binary.ofFloat x = Binary.ofFloat y) : x = y := by
  apply eq_of_unpack_eq
  rw [unpack_eq, unpack_eq, h]

/-- Beyond the greatest exponent the double is infinite. -/
theorem pack_of_lt (negative : Bool) {m : Nat} {e : Int} (hm : 0 < m) (he : 971 < e) :
    Float.Model.pack (Binary.finite negative m e).unpacked = .pack (Binary.infinite negative).unpacked := by
  have hlarge : 2 ^ 11 ≤ (e + 1023 + 52).toNat + 1 := by omega
  have hbits : UnpackedFloat.pack .binary64 (.finite (Binary.sign negative) m e hm) =
      UnpackedFloat.pack .binary64 (.infinity (Binary.sign negative)) := if_pos hlarge
  rw [Binary.unpacked_finite negative e hm]
  simp only [Float.Model.pack, hbits]
  rfl

theorem ofFloat_pack (negative : Bool) {m : Nat} {e : Int} (h : Binary.Normalized m e) :
    Binary.ofFloat (.ofModel (.pack (Binary.finite negative m e).unpacked)) =
      if e ≤ 971 then .finite negative m e else .infinite negative := by
  split
  · rename_i he
    exact ofFloat_ofModel_pack (h.inRange he)
  · rename_i he
    have hm : 0 < m := lt_of_lt_of_le (by decide) (h.2.2.resolve_right (by rintro rfl; exact he (by decide)))
    rw [pack_of_lt negative hm (not_le.mp he)]
    exact ofFloat_ofModel_pack trivial

/-! ### Nearest mantissas -/

/-- A number that is not negative lies next to a mantissa. -/
theorem exists_nearest {z : ℚ} (hz : 0 ≤ z) : ∃ m, Nearest z m := by
  have hle : (⌊z⌋₊ : ℚ) ≤ z := Nat.floor_le hz
  have hlt : z < ⌊z⌋₊ + 1 := Nat.lt_floor_add_one z
  generalize ⌊z⌋₊ = k at hle hlt
  unfold Nearest Between
  rcases lt_trichotomy z (k + 1 / 2) with hless | heq | hmore
  · exact ⟨k, ⟨by linarith, by linarith⟩, fun _ => ⟨by linarith, hless⟩⟩
  · by_cases heven : k % 2 = 0
    · exact ⟨k, ⟨by linarith, by linarith⟩, fun hodd => absurd heven hodd⟩
    · refine ⟨k + 1, ?_, fun hodd => absurd (by omega) hodd⟩
      push_cast
      exact ⟨by linarith, by linarith⟩
  · refine ⟨k + 1, ?_, fun _ => ?_⟩ <;> push_cast
    · exact ⟨by linarith, by linarith⟩
    · exact ⟨by linarith, by linarith⟩

/-- Every number is rounded with some exponent. -/
theorem exists_fitsExponent {q : ℚ} (hq : 0 ≤ q) : ∃ e, FitsExponent q e := by
  rcases hq.eq_or_lt with rfl | hpos
  · exact ⟨Binary.leastExponent, by norm_num, .inl rfl⟩
  · have hfirst : (2 : ℚ) ^ Int.log 2 q ≤ q := Int.zpow_log_le_self Nat.one_lt_two hpos
    have hnext : q < (2 : ℚ) ^ (Int.log 2 q + 1) := Int.lt_zpow_succ_log_self Nat.one_lt_two q
    generalize Int.log 2 q = k at hfirst hnext
    refine ⟨max (k - 52) Binary.leastExponent, ?_, ?_⟩
    · rw [div_lt_iff₀ (two_zpow_pos _)]
      calc q < 2 ^ (k + 1) := hnext
        _ ≤ 2 ^ (53 + max (k - 52) Binary.leastExponent) := zpow_le_zpow_right₀ one_le_two (by omega)
        _ = 2 ^ 53 * 2 ^ max (k - 52) Binary.leastExponent := by rw [zpow_add₀ two_ne_zero]; norm_num
    · by_cases hleast : k - 52 ≤ Binary.leastExponent
      · exact .inl (max_eq_right hleast)
      · rw [max_eq_left (not_le.mp hleast).le, le_div_iff₀ (two_zpow_pos _)]
        refine .inr ⟨by omega, ?_⟩
        calc (2 : ℚ) ^ 52 * 2 ^ (k - 52) = 2 ^ (52 + (k - 52)) := by rw [zpow_add₀ two_ne_zero]; norm_num
          _ = 2 ^ k := by rw [add_sub_cancel]
          _ ≤ q := hfirst

/-- Every number that is not negative lies next to a mantissa and an exponent. -/
theorem exists_roundsTo {q : ℚ} (hq : 0 ≤ q) : ∃ m e, Binary.Normalized m e ∧ RoundsTo q m e := by
  obtain ⟨e, hlt, hfull⟩ := exists_fitsExponent hq
  obtain ⟨m, hnear⟩ := exists_nearest (div_nonneg hq (two_zpow_pos e).le)
  obtain ⟨⟨hlow, hhigh⟩, hopen⟩ := hnear
  have hleast : Binary.leastExponent ≤ e := hfull.elim ge_of_eq And.left
  have hnormal : Binary.leastNormal ≤ m ∨ e = Binary.leastExponent := by
    rcases hfull with he | ⟨-, hfull⟩
    · exact .inr he
    · have : (2 : ℚ) ^ 52 < m + 1 := by linarith
      have : 2 ^ 52 < m + 1 := by exact_mod_cast this
      exact .inl (Nat.le_of_lt_succ this)
  have hm : m ≤ 2 * Binary.leastNormal := by
    have : (m : ℚ) < 2 ^ 53 + 1 := by linarith
    have : m < 2 ^ 53 + 1 := by exact_mod_cast this
    exact Nat.le_of_lt_succ this
  rcases hm.lt_or_eq with hm | rfl
  · refine ⟨m, e, ⟨hm, hleast, hnormal⟩, ?_⟩
    unfold RoundsTo lowerGap
    split
    · rename_i hpower
      have hfull := (hfull.resolve_left hpower.2).2
      have hmq : (m : ℚ) = 2 ^ 52 := by rw [hpower.1]; norm_num [Binary.leastNormal]
      exact ⟨⟨by linarith, hhigh⟩, fun hodd => ⟨by linarith, (hopen hodd).2⟩⟩
    · exact ⟨⟨hlow, hhigh⟩, hopen⟩
  · have hgap : lowerGap Binary.leastNormal (e + 1) = 1 / 4 := if_pos ⟨rfl, by omega⟩
    have hhalf : q / 2 ^ (e + 1) = q / 2 ^ e / 2 := by rw [zpow_add_one₀ two_ne_zero, div_div]
    have hmq : (Binary.leastNormal : ℚ) = 2 ^ 52 := by norm_num [Binary.leastNormal]
    push_cast at hlow
    refine ⟨Binary.leastNormal, e + 1, ⟨by decide, by omega, .inl le_rfl⟩, ?_, fun hodd => absurd (by decide) hodd⟩
    rw [hgap, hhalf, hmq]
    rw [hmq] at hlow
    exact ⟨by linarith, by linarith⟩

/-! ### Nearest doubles -/

/-- The least number that is too large for a double: half a unit beyond the greatest one. -/
def overflow : ℚ := (2 ^ 53 - 1 / 2) * 2 ^ (971 : ℤ)

/-- The parts of a double are those of the double next to `q` with a sign: of two that are equally near, the one with
an even mantissa.  What is too large is infinite. -/
def Rounds (negative : Bool) (q : ℚ) : Binary → Prop
  | .nan => False
  | .infinite s => s = negative ∧ overflow ≤ q
  | .finite s m e => s = negative ∧ RoundsTo q m e

/-- The greatest mantissa is odd, so what is rounded to it stays below the midpoint of overflow. -/
theorem RoundsTo.overflow_le_iff {q : ℚ} {m : Nat} {e : Int} (hnormal : Binary.Normalized m e) (h : RoundsTo q m e) :
    overflow ≤ q ↔ 971 < e := by
  obtain ⟨⟨hlow, hhigh⟩, hopen⟩ := h
  constructor
  · intro hlarge
    by_contra he
    have hpow : (2 : ℚ) ^ e ≤ 2 ^ (971 : ℤ) := zpow_le_zpow_right₀ one_le_two (not_lt.mp he)
    have hm : (m : ℚ) + 1 ≤ 2 ^ 53 := by exact_mod_cast hnormal.1
    have hless : q / 2 ^ e < 2 ^ 53 - 1 / 2 := by
      by_cases heven : m % 2 = 0
      · have hm : m + 2 ≤ 2 ^ 53 := by
          have : m < 2 ^ 53 := hnormal.1
          omega
        have hm : (m : ℚ) + 2 ≤ 2 ^ 53 := by exact_mod_cast hm
        linarith
      · linarith [(hopen heven).2]
    rw [div_lt_iff₀ (two_zpow_pos e)] at hless
    have : (2 ^ 53 - 1 / 2 : ℚ) * 2 ^ e ≤ overflow := mul_le_mul_of_nonneg_left hpow (by norm_num)
    linarith
  · intro he
    have hm : Binary.leastNormal ≤ m := hnormal.2.2.resolve_right (by rintro rfl; exact absurd he (by decide))
    have hmq : (2 : ℚ) ^ 52 ≤ m := by exact_mod_cast hm
    have hleast : (2 : ℚ) ^ 52 - 1 / 4 ≤ m - lowerGap m e := by
      unfold lowerGap
      split
      · linarith
      · rename_i hpower
        have hne : m ≠ Binary.leastNormal := fun hm => hpower ⟨hm, by rintro rfl; exact absurd he (by decide)⟩
        have : 2 ^ 52 + 1 ≤ m := Nat.lt_of_le_of_ne hm hne.symm
        have : (2 : ℚ) ^ 52 + 1 ≤ m := by exact_mod_cast this
        linarith
    have hpow : (2 : ℚ) ^ (972 : ℤ) ≤ 2 ^ e := zpow_le_zpow_right₀ one_le_two (by omega)
    calc overflow = (2 ^ 52 - 1 / 4) * 2 ^ (972 : ℤ) := by
          rw [overflow, show (972 : ℤ) = 971 + 1 from rfl, zpow_add_one₀ two_ne_zero]
          ring
      _ ≤ q / 2 ^ e * 2 ^ e := mul_le_mul (hleast.trans hlow) hpow (two_zpow_pos _).le (by linarith)
      _ = q := div_mul_cancel₀ _ (two_zpow_pos e).ne'

end Double

namespace Numeral

/-- The number that a numeral spells, without its sign. -/
def magnitude (n : Numeral) : ℚ := Digit.value (n.whole ++ n.fractionDigits) / 10 ^ n.fractionDigits.length

theorem magnitude_nonneg (n : Numeral) : 0 ≤ n.magnitude := by
  unfold magnitude
  positivity

/-- The parts of the value of a numeral. -/
theorem ofFloat_value {n : Numeral} {m : Nat} {e : Int} (hnormal : Binary.Normalized m e)
    (h : Double.RoundsTo n.magnitude m e) :
    Binary.ofFloat n.value = if e ≤ 971 then .finite n.negative m e else .infinite n.negative := by
  have hsize := Double.ofFloat_pack false hnormal
  rw [← Double.ofScientific_eq hnormal h] at hsize
  unfold value
  cases n.negative with
  | false => exact hsize
  | true =>
      show Binary.ofFloat (-_) = _
      rw [Double.ofFloat_neg, hsize]
      split <;> rfl

/-- **The value of a numeral is the double next to what it spells.** -/
theorem rounds_iff_eq_value {n : Numeral} {x : Float} :
    Double.Rounds n.negative n.magnitude (Binary.ofFloat x) ↔ x = n.value := by
  obtain ⟨m, e, hnormal, hround⟩ := Double.exists_roundsTo n.magnitude_nonneg
  have hvalue := ofFloat_value hnormal hround
  constructor
  · intro h
    apply Double.ofFloat_inj
    cases hx : Binary.ofFloat x with
    | nan =>
        rw [hx] at h
        exact h.elim
    | infinite s =>
        rw [hx] at h
        obtain ⟨rfl, hlarge⟩ := h
        rw [hvalue, if_neg (not_le.mpr ((hround.overflow_le_iff hnormal).mp hlarge))]
    | finite s m' e' =>
        rw [hx] at h
        obtain ⟨rfl, hround'⟩ := h
        have hrange := Binary.inRange_of_ofFloat hx
        rw [ofFloat_value hrange.normalized hround', if_pos hrange.2.2.1]
  · rintro rfl
    rw [hvalue]
    split
    · exact ⟨rfl, hround⟩
    · rename_i he
      exact ⟨rfl, (hround.overflow_le_iff hnormal).mpr (not_le.mp he)⟩

end Numeral
end Pictogram
