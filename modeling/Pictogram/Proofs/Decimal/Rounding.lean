import Pictogram.Proofs.Decimal.Double

/-! # Rounding to a double

Arithmetic keeps the bits of an exact result that a mantissa has room for, and of all that follow them only
how they compare with a half.  `Double.Represents` is what that says of the exact result; shifting the bits
divides it (`represents_shiftRight`), and rounding gives the nearest mantissa (`roundedMantissa_eq`).

`Double.RoundsTo` are the rationals between the midpoints to the two neighbours of a double.  Rounding any of
them gives that double (`roundWithAccuracy_eq`), also next to a power of two, where the rounded mantissa has a
bit too many and is shifted once more.  So a quotient rounds to the double that it lies next to (`div_eq`).
Nothing is rounded to NaN, and no decimal is read as it (`ofScientific_ne_nan`). -/

namespace Pictogram.Double

open Float.Model (Format UnpackedFloat totalExponent)
open Float.Model.UnpackedFloat (Sign Accuracy ExtendedMantissa accuracyOfFraction roundWithAccuracy
  shiftToTargetExponent shiftToExponent)

/-! ### Extended mantissas -/

/-- What a mantissa and its two residual bits say of an exact number. -/
def Represents (a : ExtendedMantissa) (z : ℚ) : Prop :=
  match a.roundBit, a.stickyBit with
  | false, false => z = a.mantissa
  | false, true => a.mantissa < z ∧ z < a.mantissa + 1 / 2
  | true, false => z = a.mantissa + 1 / 2
  | true, true => a.mantissa + 1 / 2 < z ∧ z < a.mantissa + 1

theorem Represents.bounds {a : ExtendedMantissa} {z : ℚ} (h : Represents a z) :
    (a.mantissa : ℚ) ≤ z ∧ z < a.mantissa + 1 := by
  obtain ⟨m, r, s⟩ := a
  cases r <;> cases s <;> simp only [Represents] at h
  · exact ⟨h.ge, by linarith⟩
  · exact ⟨h.1.le, by linarith⟩
  · exact ⟨by linarith, by linarith⟩
  · exact ⟨by linarith, h.2⟩

/-- With a residual bit set, the number lies strictly above the mantissa. -/
theorem Represents.lt {a : ExtendedMantissa} {z : ℚ} (h : Represents a z) (hbit : (a.roundBit || a.stickyBit) = true) :
    (a.mantissa : ℚ) < z := by
  obtain ⟨m, r, s⟩ := a
  cases r <;> cases s <;> simp only [Represents] at h
  · cases hbit
  · exact h.1
  · linarith
  · linarith

/-- The last bit of the mantissa becomes the round bit. -/
theorem represents_shiftRightOne {a : ExtendedMantissa} {z : ℚ} (h : Represents a z) :
    Represents a.shiftRightOne (z / 2) := by
  obtain ⟨hle, hlt⟩ := h.bounds
  have hstrict := h.lt
  obtain ⟨m, r, s⟩ := a
  have hhalf : (m : ℚ) = 2 * (m / 2 : ℕ) + (m % 2 : ℕ) := by exact_mod_cast (Nat.div_add_mod m 2).symm
  simp only [Represents, ExtendedMantissa.shiftRightOne] at hle hlt hstrict ⊢
  cases hrest : r || s with
  | false =>
      obtain ⟨rfl, rfl⟩ := Bool.or_eq_false_iff.mp hrest
      change z = m at h
      rcases Nat.mod_two_eq_zero_or_one m with hm | hm <;> rw [hm] at hhalf ⊢ <;> push_cast at hhalf
      · show z / 2 = (m / 2 : ℕ)
        linarith
      · show z / 2 = (m / 2 : ℕ) + 1 / 2
        linarith
  | true =>
      have hlow := hstrict hrest
      rcases Nat.mod_two_eq_zero_or_one m with hm | hm <;> rw [hm] at hhalf ⊢ <;> push_cast at hhalf
      · exact ⟨by linarith, by linarith⟩
      · exact ⟨by linarith, by linarith⟩

theorem represents_shiftRight {a : ExtendedMantissa} {z : ℚ} (h : Represents a z) (k : Nat) :
    Represents (a >>> k) (z / 2 ^ k) := by
  show Represents (k.repeat ExtendedMantissa.shiftRightOne a) _
  induction k with
  | zero => simpa [Nat.repeat] using h
  | succ k ih =>
      rw [pow_succ, ← div_div]
      exact represents_shiftRightOne ih

theorem represents_exact (m : Nat) : Represents (.ofMantissaAndAccuracy m .exact) m := rfl

/-- What is left of a division says where the quotient lies. -/
theorem represents_div (m : Nat) {k : Nat} (hk : 0 < k) :
    Represents (.ofMantissaAndAccuracy (m / k) (accuracyOfFraction (m % k) k)) (m / k : ℚ) := by
  have hpos : (0 : ℚ) < k := by exact_mod_cast hk
  have hsplit : (m : ℚ) = k * (m / k : ℕ) + (m % k : ℕ) := by exact_mod_cast (Nat.div_add_mod m k).symm
  have hlt : ((m % k : ℕ) : ℚ) < k := by exact_mod_cast Nat.mod_lt m hk
  have hquotient : (m : ℚ) / k = (m / k : ℕ) + (m % k : ℕ) / k := by
    rw [hsplit]
    field_simp
  rw [hquotient]
  generalize m / k = q
  generalize m % k = r at hlt
  unfold accuracyOfFraction
  split
  · rename_i hr
    simp [Represents, ExtendedMantissa.ofMantissaAndAccuracy, hr]
  · rename_i hr
    have hr : (0 : ℚ) < r := by exact_mod_cast Nat.pos_of_ne_zero hr
    have hfraction : (0 : ℚ) < r / k := div_pos hr hpos
    cases hcompare : compare (2 * r) k with
    | lt =>
        have hhalf : (2 * r : ℚ) < k := by exact_mod_cast Nat.compare_eq_lt.mp hcompare
        have hfraction' : (r : ℚ) / k < 1 / 2 := by rw [div_lt_div_iff₀ hpos two_pos]; linarith
        show (q : ℚ) < _ ∧ _ < (q : ℚ) + 1 / 2
        exact ⟨by linarith, by linarith⟩
    | eq =>
        have hhalf : (2 * r : ℚ) = k := by exact_mod_cast Nat.compare_eq_eq.mp hcompare
        show _ = (q : ℚ) + 1 / 2
        rw [← hhalf]
        field_simp
    | gt =>
        have hhalf : (k : ℚ) < 2 * r := by exact_mod_cast Nat.compare_eq_gt.mp hcompare
        have hfraction' : 1 / 2 < (r : ℚ) / k := by rw [div_lt_div_iff₀ two_pos hpos]; linarith
        have hone : (r : ℚ) / k < 1 := (div_lt_one₀ hpos).mpr hlt
        show (q : ℚ) + 1 / 2 < _ ∧ _ < (q : ℚ) + 1
        exact ⟨by linarith, by linarith⟩

/-- The number lies in an interval, whose ends belong to it if it is closed. -/
def Between (closed : Prop) (low high z : ℚ) : Prop :=
  (low ≤ z ∧ z ≤ high) ∧ (¬ closed → low < z ∧ z < high)

theorem Between.mono {closed : Prop} {low low' high z : ℚ} (h : Between closed low high z) (hlow : low' ≤ low) :
    Between closed low' high z :=
  ⟨⟨hlow.trans h.1.1, h.1.2⟩, fun hopen => ⟨hlow.trans_lt (h.2 hopen).1, (h.2 hopen).2⟩⟩

/-- The mantissa next to a number; of two that are equally near, the even one. -/
def Nearest (z : ℚ) (m : Nat) : Prop := Between (m % 2 = 0) (m - 1 / 2) (m + 1 / 2) z

/-- Rounding finds the nearest mantissa; halfway between two, only the even one is nearest. -/
theorem roundedMantissa_eq {a : ExtendedMantissa} {z : ℚ} (h : Represents a z) {m : Nat} (hm : Nearest z m) :
    a.roundedMantissa = m := by
  obtain ⟨⟨hlow, hhigh⟩, hopen⟩ := hm
  obtain ⟨k, r, s⟩ := a
  have hunique (i j : Nat) (h₁ : (i : ℚ) < j + 1) (h₂ : (j : ℚ) < i + 1) : i = j := by
    have h₁ : i < j + 1 := by exact_mod_cast h₁
    have h₂ : j < i + 1 := by exact_mod_cast h₂
    omega
  cases r <;> cases s <;> simp only [Represents] at h
  · exact hunique k m (by linarith) (by linarith)
  · exact hunique k m (by linarith) (by linarith)
  · show k + k % 2 = m
    have heven : m % 2 = 0 := by
      by_contra hodd
      obtain ⟨hlow, hhigh⟩ := hopen hodd
      have h₁ : (m : ℚ) < k + 1 := by linarith
      have h₂ : (k : ℚ) < m := by linarith
      have h₁ : m < k + 1 := by exact_mod_cast h₁
      have h₂ : k < m := by exact_mod_cast h₂
      omega
    have h₁ : (m : ℚ) ≤ k + 1 := by linarith
    have h₂ : (k : ℚ) ≤ m := by linarith
    have h₁ : m ≤ k + 1 := by exact_mod_cast h₁
    have h₂ : k ≤ m := by exact_mod_cast h₂
    omega
  · exact hunique (k + 1) m (by push_cast; linarith) (by push_cast; linarith)

/-! ### The numbers that round to a double -/

/-- Half the distance to the double below, in units of the last bit. -/
def lowerGap (m : Nat) (e : Int) : ℚ := if m = Binary.leastNormal ∧ e ≠ Binary.leastExponent then 1 / 4 else 1 / 2

/-- The rationals between the midpoints to the neighbours of `m · 2 ^ e`; the midpoints belong to it if `m` is
even. -/
def RoundsTo (q : ℚ) (m : Nat) (e : Int) : Prop :=
  Between (m % 2 = 0) (m - lowerGap m e) (m + 1 / 2) (q / 2 ^ e)

theorem lowerGap_bounds (m : Nat) (e : Int) : 1 / 4 ≤ lowerGap m e ∧ lowerGap m e ≤ 1 / 2 := by
  unfold lowerGap
  split <;> norm_num

theorem RoundsTo.nearest {q : ℚ} {m : Nat} {e : Int} (h : RoundsTo q m e) : Nearest (q / 2 ^ e) m := by
  obtain ⟨-, hgap⟩ := lowerGap_bounds m e
  exact Between.mono h (by linarith)

theorem two_zpow_pos (e : Int) : (0 : ℚ) < 2 ^ e := zpow_pos two_pos e

theorem RoundsTo.pos {q : ℚ} {m : Nat} {e : Int} (hm : 0 < m) (h : RoundsTo q m e) : 0 < q := by
  obtain ⟨⟨hlow, -⟩, -⟩ := h
  obtain ⟨-, hgap⟩ := lowerGap_bounds m e
  have hone : (1 : ℚ) ≤ m := by exact_mod_cast hm
  have hscaled : 0 < q / 2 ^ e := by linarith
  exact (div_pos_iff_of_pos_right (two_zpow_pos e)).mp hscaled

/-- The exponent with which a number is rounded: it leaves a mantissa with all its bits, unless it is the least. -/
def FitsExponent (q : ℚ) (e : Int) : Prop :=
  q / 2 ^ e < 2 ^ 53 ∧ (e = Binary.leastExponent ∨ Binary.leastExponent ≤ e ∧ 2 ^ 52 ≤ q / 2 ^ e)

theorem zpow_eq_div {b : ℚ} (hb : b ≠ 0) (k : Int) : b ^ k = b ^ k.toNat / b ^ (-k).toNat := by
  rw [← zpow_natCast, ← zpow_natCast, ← zpow_sub₀ hb]
  congr 1
  omega

theorem div_zpow_eq (q : ℚ) (e e' : Int) : q / 2 ^ e' = q / 2 ^ e * 2 ^ (e - e') := by
  rw [zpow_sub₀ two_ne_zero]
  field_simp

/-- A number that rounds to a double is rounded with the exponent of that double, or it lies below a power of
two and is rounded with the exponent before. -/
theorem RoundsTo.exponent_cases {q : ℚ} {m : Nat} {e e' : Int} (hnormal : Binary.Normalized m e) (h : RoundsTo q m e)
    (hfits : FitsExponent q e') :
    e' = e ∨ e = e' + 1 ∧ m = Binary.leastNormal ∧ Nearest (q / 2 ^ e') (2 * Binary.leastNormal) := by
  obtain ⟨⟨hlow, hhigh⟩, -⟩ := h
  obtain ⟨-, hgap⟩ := lowerGap_bounds m e
  obtain ⟨hm, hleast, hfirst⟩ := hnormal
  obtain ⟨hlt, hfull⟩ := hfits
  have hmq : (m : ℚ) + 1 ≤ 2 ^ 53 := by exact_mod_cast hm
  rcases lt_trichotomy e' e with hless | rfl | hmore
  · have hm' : Binary.leastNormal ≤ m := hfirst.resolve_right (by omega)
    have hmq' : (2 : ℚ) ^ 52 ≤ m := by exact_mod_cast hm'
    have hnext : e = e' + 1 := by
      by_contra hne
      have hpow : (2 : ℚ) ^ (2 : ℤ) ≤ 2 ^ (e - e') := zpow_le_zpow_right₀ one_le_two (by omega)
      have hlarge : q / 2 ^ e * 2 ^ (2 : ℤ) ≤ q / 2 ^ e * 2 ^ (e - e') :=
        mul_le_mul_of_nonneg_left hpow (by linarith)
      rw [← div_zpow_eq q e e'] at hlarge
      norm_num at hlarge
      linarith
    have hdouble : q / 2 ^ e' = q / 2 ^ e * 2 := by
      rw [div_zpow_eq q e e', hnext, add_sub_cancel_left, zpow_one]
    have hpower : m = Binary.leastNormal := by
      have : (m : ℚ) < 2 ^ 52 + 1 := by linarith
      have : m < 2 ^ 52 + 1 := by exact_mod_cast this
      exact Nat.le_antisymm (Nat.le_of_lt_succ this) hm'
    have hquarter : lowerGap m e = 1 / 4 := if_pos ⟨hpower, by omega⟩
    have hmq'' : (m : ℚ) = 2 ^ 52 := by rw [hpower]; norm_num [Binary.leastNormal]
    have hgoal : ((2 * Binary.leastNormal : ℕ) : ℚ) = 2 ^ 53 := by norm_num [Binary.leastNormal]
    refine .inr ⟨hnext, hpower, ?_⟩
    unfold Nearest Between
    rw [hgoal]
    exact ⟨⟨by linarith, by linarith⟩, fun hodd => absurd (by decide) hodd⟩
  · exact .inl rfl
  · have hfull : 2 ^ 52 ≤ q / 2 ^ e' := by
      rcases hfull with rfl | ⟨-, hfull⟩
      · omega
      · exact hfull
    have hpow : (2 : ℚ) ^ (1 : ℤ) ≤ 2 ^ (e' - e) := zpow_le_zpow_right₀ one_le_two (by omega)
    have hlarge : q / 2 ^ e' * 2 ^ (1 : ℤ) ≤ q / 2 ^ e' * 2 ^ (e' - e) :=
      mul_le_mul_of_nonneg_left hpow (by linarith)
    rw [← div_zpow_eq q e' e, zpow_one] at hlarge
    linarith

/-! ### Rounding -/

theorem targetExponent_eq (m : Nat) (e : Int) :
    Format.binary64.targetExponent (totalExponent m e) = max ((m.log2 : Int) + 1 + e - 53) Binary.leastExponent := rfl

/-- Bits are shifted to the exponent with which their number is rounded. -/
theorem fitsExponent_target {m : Nat} {e : Int} {q : ℚ} (hle : (m : ℚ) ≤ q / 2 ^ e) (hlt : q / 2 ^ e < m + 1)
    (hbits : e ≤ Binary.leastExponent ∨ 2 ^ 52 ≤ m) :
    e ≤ Format.binary64.targetExponent (totalExponent m e) ∧
      FitsExponent q (Format.binary64.targetExponent (totalExponent m e)) := by
  have hlog : 2 ^ 52 ≤ m → 52 ≤ m.log2 := fun h => (Nat.le_log2 (by omega)).mpr h
  rw [targetExponent_eq]
  generalize hE : max ((m.log2 : Int) + 1 + e - 53) Binary.leastExponent = E
  have hpos : (0 : ℚ) < 2 ^ (e - E) := two_zpow_pos _
  refine ⟨by omega, ?_, ?_⟩
  · have hnext : (m : ℚ) + 1 ≤ 2 ^ ((m.log2 : ℤ) + 1) := by exact_mod_cast Nat.lt_log2_self
    calc q / 2 ^ E = q / 2 ^ e * 2 ^ (e - E) := div_zpow_eq q e E
      _ < 2 ^ ((m.log2 : ℤ) + 1) * 2 ^ (e - E) := mul_lt_mul_of_pos_right (by linarith) hpos
      _ = 2 ^ ((m.log2 : ℤ) + 1 + (e - E)) := (zpow_add₀ two_ne_zero _ _).symm
      _ ≤ 2 ^ (53 : ℤ) := zpow_le_zpow_right₀ one_le_two (by omega)
      _ = 2 ^ 53 := by norm_num
  · by_cases hleast : E = Binary.leastExponent
    · exact .inl hleast
    · refine .inr ⟨by omega, ?_⟩
      have hm : m ≠ 0 := by
        rintro rfl
        have : Nat.log2 0 = 0 := rfl
        omega
      have hfirst : (2 : ℚ) ^ (m.log2 : ℤ) ≤ m := by exact_mod_cast Nat.log2_self_le hm
      calc (2 : ℚ) ^ 52 = 2 ^ (52 : ℤ) := by norm_num
        _ = 2 ^ ((m.log2 : ℤ) + (e - E)) := by congr 1; omega
        _ = 2 ^ (m.log2 : ℤ) * 2 ^ (e - E) := zpow_add₀ two_ne_zero _ _
        _ ≤ q / 2 ^ e * 2 ^ (e - E) := mul_le_mul_of_nonneg_right (hfirst.trans hle) hpos.le
        _ = q / 2 ^ E := (div_zpow_eq q e E).symm

/-- A mantissa that is not too long stays as it is. -/
theorem shiftToTargetExponent_of_lt {m : Nat} {e : Int} (hm : m < 2 * Binary.leastNormal)
    (he : Binary.leastExponent ≤ e) : shiftToTargetExponent .binary64 m e .exact = (⟨m, false, false⟩, e) := by
  have hlog : m.log2 < 53 := by
    by_cases h : m = 0
    · rw [h]
      decide
    · exact (Nat.log2_lt h).mpr hm
  have hshift : (Format.binary64.targetExponent (totalExponent m e) - e).toNat = 0 := by
    rw [targetExponent_eq]
    omega
  simp only [shiftToTargetExponent, shiftToExponent, hshift]
  simp
  rfl

/-- A mantissa that has become a power of two is one bit too long. -/
theorem shiftToTargetExponent_power {e : Int} (he : Binary.leastExponent ≤ e) :
    shiftToTargetExponent .binary64 (2 * Binary.leastNormal) e .exact =
      (⟨Binary.leastNormal, false, false⟩, e + 1) := by
  have hlog : (2 * Binary.leastNormal).log2 = 53 := by decide
  have hshift : (Format.binary64.targetExponent (totalExponent (2 * Binary.leastNormal) e) - e).toNat = 1 := by
    rw [targetExponent_eq, hlog]
    omega
  simp only [shiftToTargetExponent, shiftToExponent, hshift]
  rfl

/-- **Rounding gives the nearest double.**  `m'` and `e'` are the first bits of the exact result `q`, enough of
them to fill a mantissa. -/
theorem roundWithAccuracy_eq (negative : Bool) {m' : Nat} {e' : Int} {accuracy : Accuracy} {q : ℚ} {m : Nat} {e : Int}
    (hrep : Represents (.ofMantissaAndAccuracy m' accuracy) (q / 2 ^ e'))
    (hbits : e' ≤ Binary.leastExponent ∨ 2 ^ 52 ≤ m') (hnormal : Binary.Normalized m e) (hround : RoundsTo q m e) :
    roundWithAccuracy .binary64 (Binary.sign negative) m' e' accuracy = (Binary.finite negative m e).unpacked := by
  have hmantissa : (ExtendedMantissa.ofMantissaAndAccuracy m' accuracy).mantissa = m' := by
    rcases accuracy with _ | _ | _ | _ <;> rfl
  obtain ⟨hle, hlt⟩ := hrep.bounds
  rw [hmantissa] at hle hlt
  obtain ⟨hshift, hfits⟩ := fitsExponent_target hle hlt hbits
  generalize hE : Format.binary64.targetExponent (totalExponent m' e') = E at hshift hfits
  have hfirst : shiftToTargetExponent .binary64 m' e' accuracy =
      (ExtendedMantissa.ofMantissaAndAccuracy m' accuracy >>> (E - e').toNat, E) := by
    unfold shiftToTargetExponent shiftToExponent
    rw [hE]
    simp only [Prod.mk.injEq, true_and]
    omega
  have hrep' : Represents (ExtendedMantissa.ofMantissaAndAccuracy m' accuracy >>> (E - e').toNat) (q / 2 ^ E) := by
    have hdiv : q / 2 ^ E = q / 2 ^ e' / 2 ^ (E - e').toNat := by
      rw [div_div, ← zpow_natCast, ← zpow_add₀ two_ne_zero]
      congr 2
      omega
    rw [hdiv]
    exact represents_shiftRight hrep _
  unfold roundWithAccuracy
  rw [hfirst]
  rcases hround.exponent_cases hnormal hfits with rfl | ⟨rfl, rfl, hnearest⟩
  · simp only [roundedMantissa_eq hrep' hround.nearest, shiftToTargetExponent_of_lt hnormal.1 hnormal.2.1]
    rfl
  · have hleast : Binary.leastExponent ≤ E := hfits.2.elim ge_of_eq And.left
    simp only [roundedMantissa_eq hrep' hnearest, shiftToTargetExponent_power hleast]
    rfl

/-! ### Products and quotients -/

/-- Products are exact before they are rounded. -/
theorem mul_eq {m₁ m₂ : Nat} {e₁ e₂ : Int} (h₁ : 0 < m₁) (h₂ : 0 < m₂) {q : ℚ} {m : Nat} {e : Int}
    (hq : q = m₁ * 2 ^ e₁ * (m₂ * 2 ^ e₂)) (hbits : 2 ^ 52 ≤ m₁ * m₂) (hnormal : Binary.Normalized m e)
    (hround : RoundsTo q m e) :
    UnpackedFloat.mul .binary64 (.finite .positive m₁ e₁ h₁) (.finite .positive m₂ e₂ h₂) =
      (Binary.finite false m e).unpacked := by
  have hproduct : q / 2 ^ (e₁ + e₂) = (m₁ * m₂ : ℕ) := by
    rw [hq, zpow_add₀ two_ne_zero, Nat.cast_mul]
    field_simp
  refine roundWithAccuracy_eq false (q := q) ?_ (.inr hbits) hnormal hround
  rw [hproduct]
  exact represents_exact _

/-- Dividing leaves enough bits to fill a mantissa. -/
theorem div_eq {m₁ m₂ : Nat} {e₁ e₂ : Int} (h₁ : 0 < m₁) (h₂ : 0 < m₂) {q : ℚ} {m : Nat} {e : Int}
    (hq : q = m₁ * 2 ^ e₁ / (m₂ * 2 ^ e₂)) (hnormal : Binary.Normalized m e) (hround : RoundsTo q m e) :
    UnpackedFloat.div .binary64 (.finite .positive m₁ e₁ h₁) (.finite .positive m₂ e₂ h₂) =
      (Binary.finite false m e).unpacked := by
  simp only [UnpackedFloat.div, UnpackedFloat.divCore]
  have htarget : Format.binary64.targetExponent (totalExponent m₁ e₁ - totalExponent m₂ e₂) =
    max ((m₁.log2 : Int) + 1 + e₁ - ((m₂.log2 : Int) + 1 + e₂) - 53) Binary.leastExponent := rfl
  rw [htarget]
  generalize ht : min (e₁ - e₂)
    (max ((m₁.log2 : Int) + 1 + e₁ - ((m₂.log2 : Int) + 1 + e₂) - 53) Binary.leastExponent) = t
  generalize hs : (e₁ - e₂ - t).toNat = s
  have hsum : (s : Int) = e₁ - e₂ - t := by omega
  refine roundWithAccuracy_eq false (q := q) ?_ ?_ hnormal hround
  · have hquotient : q / 2 ^ t = ((m₁ <<< s : ℕ) : ℚ) / m₂ := by
      rw [hq, Nat.shiftLeft_eq, Nat.cast_mul, Nat.cast_pow, Nat.cast_ofNat, ← zpow_natCast, hsum, zpow_sub₀ two_ne_zero,
        zpow_sub₀ two_ne_zero]
      field_simp
    rw [hquotient]
    exact represents_div _ h₂
  · by_cases hleast : t ≤ Binary.leastExponent
    · exact .inl hleast
    · right
      rw [Nat.le_div_iff_mul_le h₂, Nat.shiftLeft_eq]
      calc 2 ^ 52 * m₂ ≤ 2 ^ 52 * 2 ^ (m₂.log2 + 1) := Nat.mul_le_mul_left _ Nat.lt_log2_self.le
        _ = 2 ^ (52 + (m₂.log2 + 1)) := (Nat.pow_add ..).symm
        _ ≤ 2 ^ (m₁.log2 + s) := Nat.pow_le_pow_right two_pos (by omega)
        _ = 2 ^ m₁.log2 * 2 ^ s := Nat.pow_add ..
        _ ≤ m₁ * 2 ^ s := Nat.mul_le_mul_right _ (Nat.log2_self_le h₁.ne')

/-- A number that has a mantissa and an exponent rounds to itself. -/
theorem roundsTo_self {q : ℚ} {m : Nat} {e : Int} (h : q / 2 ^ e = m) : RoundsTo q m e := by
  obtain ⟨hgap, -⟩ := lowerGap_bounds m e
  unfold RoundsTo Between
  rw [h]
  exact ⟨⟨by linarith, by linarith⟩, fun _ => ⟨by linarith, by linarith⟩⟩

/-- Natural numbers that a mantissa can hold are doubles. -/
theorem ofNat_eq {n : Nat} (hn : 0 < n) (hlt : n < 2 * Binary.leastNormal) :
    ∃ (m : Nat) (e : Int), Binary.InRange m e ∧ (m * 2 ^ e : ℚ) = n ∧
      UnpackedFloat.ofNat .binary64 n = (Binary.finite false m e).unpacked := by
  have hlog : n.log2 < 53 := (Nat.log2_lt hn.ne').mpr hlt
  have hlow : 2 ^ n.log2 ≤ n := Nat.log2_self_le hn.ne'
  have hhigh : n < 2 ^ (n.log2 + 1) := Nat.lt_log2_self
  have hshift : (0 - Format.binary64.targetExponent (totalExponent n 0)).toNat = 52 - n.log2 := by
    rw [targetExponent_eq]
    simp only [Binary.leastExponent]
    omega
  have hfull : Binary.leastNormal ≤ n <<< (52 - n.log2) := by
    calc Binary.leastNormal = 2 ^ (n.log2 + (52 - n.log2)) := by rw [Nat.add_sub_cancel' (by omega)]; rfl
      _ = 2 ^ n.log2 * 2 ^ (52 - n.log2) := Nat.pow_add ..
      _ ≤ n <<< (52 - n.log2) := by rw [Nat.shiftLeft_eq]; exact Nat.mul_le_mul_right _ hlow
  have hfits : n <<< (52 - n.log2) < 2 * Binary.leastNormal := by
    calc n <<< (52 - n.log2) < 2 ^ (n.log2 + 1) * 2 ^ (52 - n.log2) := by
          rw [Nat.shiftLeft_eq]
          exact Nat.mul_lt_mul_of_pos_right hhigh (by positivity)
      _ = 2 ^ (n.log2 + 1 + (52 - n.log2)) := (Nat.pow_add ..).symm
      _ = 2 * Binary.leastNormal := by rw [show n.log2 + 1 + (52 - n.log2) = 53 by omega]; rfl
  have hexact : (n : ℚ) / 2 ^ (0 - ((52 - n.log2 : ℕ) : ℤ)) = (n <<< (52 - n.log2) : ℕ) := by
    rw [zero_sub, zpow_neg, zpow_natCast, div_inv_eq_mul, Nat.shiftLeft_eq]
    push_cast
    ring
  have hrange : Binary.InRange (n <<< (52 - n.log2)) (0 - ((52 - n.log2 : ℕ) : ℤ)) := by
    refine ⟨hfits, ?_, by omega, .inl hfull⟩
    simp only [Binary.leastExponent]
    omega
  refine ⟨_, _, hrange, ?_, ?_⟩
  · rw [← hexact, div_mul_cancel₀ _ (two_zpow_pos _).ne']
  · unfold UnpackedFloat.ofNat UnpackedFloat.ofInt UnpackedFloat.normalize
    rw [Int.compare_eq_gt.mpr (by omega)]
    simp only [Int.toNat_natCast, UnpackedFloat.round, UnpackedFloat.decreaseExponent, hshift]
    refine roundWithAccuracy_eq false (q := n) ?_ (.inr hfull) hrange.normalized (roundsTo_self hexact)
    rw [hexact]
    exact represents_exact _

/-- Whether a double is a natural number. -/
def isNatural (n : Nat) : Binary → Bool
  | .finite false m e => m * 2 ^ e.toNat == n * 2 ^ (-e).toNat
  | _ => false

theorem eq_finite_of_isNatural {n : Nat} {b : Binary} (h : isNatural n b = true) :
    ∃ (m : Nat) (e : Int), (m * 2 ^ e : ℚ) = n ∧ b = .finite false m e := by
  match b, h with
  | .finite false m e, h =>
      have hnat : (m : ℚ) * 2 ^ e.toNat = n * 2 ^ (-e).toNat := by exact_mod_cast of_decide_eq_true h
      refine ⟨m, e, ?_, rfl⟩
      rw [zpow_eq_div two_ne_zero, ← mul_div_assoc, hnat]
      field_simp

theorem isNatural_powersOfTen : ∀ k : Fin Float.exactlyRepresentablePowersOfTen.size,
    isNatural (10 ^ k.val) (Binary.ofFloat Float.exactlyRepresentablePowersOfTen[k]) = true := by
  decide +kernel

theorem powerOfTen_eq {k : Nat} (hk : k < Float.exactlyRepresentablePowersOfTen.size) :
    ∃ (m : Nat) (e : Int), (m * 2 ^ e : ℚ) = 10 ^ k ∧
      Binary.ofFloat Float.exactlyRepresentablePowersOfTen[k] = .finite false m e := by
  obtain ⟨m, e, hvalue, h⟩ := eq_finite_of_isNatural (isNatural_powersOfTen ⟨k, hk⟩)
  exact ⟨m, e, by exact_mod_cast hvalue, h⟩

theorem mantissa_pos {i : Nat} {l : Int} {q : ℚ} (h : (i * 2 ^ l : ℚ) = q) (hq : 0 < q) : 0 < i := by
  rcases Nat.eq_zero_or_pos i with rfl | hi
  · rw [Nat.cast_zero, zero_mul] at h
    exact absurd h hq.ne
  · exact hi

/-- Where digits and power of ten are doubles, dividing these gives the nearest double. -/
theorem toFloat_div_powerOfTen_eq {n k m : Nat} {e : Int} (hn : 0 < n) (hlt : n < 2 * Binary.leastNormal)
    (hk : k < Float.exactlyRepresentablePowersOfTen.size) (hnormal : Binary.Normalized m e)
    (hround : RoundsTo (n / 10 ^ k) m e) :
    n.toUInt64.toFloat / Float.exactlyRepresentablePowersOfTen[k] =
      .ofModel (.pack (Binary.finite false m e).unpacked) := by
  obtain ⟨m₁, e₁, hrange₁, hn₁, hof⟩ := ofNat_eq hn hlt
  obtain ⟨m₂, e₂, hk₂, hpower⟩ := powerOfTen_eq hk
  have hm₁ : 0 < m₁ := mantissa_pos hn₁ (by exact_mod_cast hn)
  have hm₂ : 0 < m₂ := mantissa_pos hk₂ (by positivity)
  have hnumerator : n.toUInt64.toFloat.toModel.unpack = .finite .positive m₁ e₁ hm₁ := by
    have hsame : n.toUInt64.toNat = n := UInt64.toNat_ofNat_of_lt (hlt.trans (by decide))
    show (Float.Model.pack (UnpackedFloat.ofNat .binary64 n.toUInt64.toNat)).unpack = _
    rw [hsame, hof, Binary.unpacked_finite false e₁ hm₁]
    exact unpack_pack _ hm₁ hrange₁
  have hdenominator : Float.exactlyRepresentablePowersOfTen[k].toModel.unpack = .finite .positive m₂ e₂ hm₂ := by
    rw [unpack_eq, hpower, Binary.unpacked_finite false e₂ hm₂]
    rfl
  show Float.ofModel (.pack (UnpackedFloat.div .binary64 n.toUInt64.toFloat.toModel.unpack
    Float.exactlyRepresentablePowersOfTen[k].toModel.unpack)) = _
  rw [hnumerator, hdenominator, div_eq hm₁ hm₂ (by rw [hn₁, hk₂]) hnormal hround]

theorem three_mul_lt_of_pow_le {n k j : Nat} (h : 10 ^ k ≤ n * 2 ^ j) : 3 * k < n.log2 + 1 + j := by
  have hpow : 2 ^ (3 * k) < 2 ^ (n.log2 + 1 + j) := by
    calc 2 ^ (3 * k) = 8 ^ k := by rw [Nat.pow_mul]
      _ ≤ 10 ^ k := Nat.pow_le_pow_left (by decide) k
      _ ≤ n * 2 ^ j := h
      _ < 2 ^ (n.log2 + 1) * 2 ^ j := Nat.mul_lt_mul_of_pos_right Nat.lt_log2_self (by positivity)
      _ = 2 ^ (n.log2 + 1 + j) := (Nat.pow_add ..).symm
  exact (Nat.pow_lt_pow_iff_right (by decide)).mp hpow

/-- A decimal that rounds to a double is not so small that reading it is not tried. -/
theorem length_lt_of_roundsTo {n k m : Nat} {e : Int} (hm : 0 < m) (he : Binary.leastExponent ≤ e)
    (h : RoundsTo (n / 10 ^ k) m e) : 3 * k < n.log2 + 1 + 1075 := by
  obtain ⟨⟨hlow, -⟩, -⟩ := h
  obtain ⟨-, hgap⟩ := lowerGap_bounds m e
  have hone : (1 : ℚ) ≤ m := by exact_mod_cast hm
  have hsmall : (2 : ℚ) ^ Binary.leastExponent ≤ 2 ^ e := zpow_le_zpow_right₀ one_le_two he
  have hleast : (2 : ℚ) ^ (-(1075 : ℕ) : ℤ) ≤ n / 10 ^ k := by
    calc (2 : ℚ) ^ (-(1075 : ℕ) : ℤ) = 2 ^ (-1 + Binary.leastExponent) := rfl
      _ = 2 ^ (-1 : ℤ) * 2 ^ Binary.leastExponent := zpow_add₀ two_ne_zero _ _
      _ ≤ n / 10 ^ k / 2 ^ e * 2 ^ e := mul_le_mul (by norm_num; linarith) hsmall (two_zpow_pos _).le (by linarith)
      _ = n / 10 ^ k := div_mul_cancel₀ _ (two_zpow_pos e).ne'
  generalize 1075 = j at hleast ⊢
  rw [zpow_neg, zpow_natCast, inv_eq_one_div, div_le_div_iff₀ (by positivity) (by positivity), one_mul] at hleast
  exact three_mul_lt_of_pow_le (by exact_mod_cast hleast)

/-- Otherwise the quotient of natural numbers is rounded. -/
theorem unpacked_ofScientific_eq {n k m : Nat} {e : Int} (hn : 0 < n) (hnormal : Binary.Normalized m e)
    (hround : RoundsTo (n / 10 ^ k) m e) :
    UnpackedFloat.ofScientific .binary64 n (-(k : Int)) = (Binary.finite false m e).unpacked := by
  have hlarge : ¬ -(k : Int) > 2 ^ 11 := by omega
  unfold UnpackedFloat.ofScientific
  rw [dif_neg hn.ne', if_neg hlarge]
  split
  · rename_i hsmall
    have hsmall : -(k : Int) < -(2 ^ 11 + n.log2) := hsmall
    have hm : m = 0 := by
      by_contra hne
      have := length_lt_of_roundsTo (Nat.pos_of_ne_zero hne) hnormal.2.1 hround
      omega
    rw [Binary.unpacked, dif_pos hm]
    rfl
  · split
    · rename_i hwhole
      obtain rfl : k = 0 := by omega
      have hshift : n <<< Format.binary64.mantissaBits = n * 2 ^ 53 := Nat.shiftLeft_eq n 53
      have hpower : (10 : ℕ) ^ (-((0 : ℕ) : ℤ)).toNat = 1 := rfl
      refine mul_eq _ _ ?_ ?_ hnormal hround
      · show _ = _ * (2 : ℚ) ^ (-53 : ℤ) * _
        rw [hshift]
        norm_num
        ring
      · rw [hshift, hpower]
        omega
    · refine div_eq hn _ ?_ hnormal hround
      rw [neg_neg, Int.toNat_natCast]
      simp

theorem RoundsTo.eq_zero {m : Nat} {e : Int} (h : RoundsTo 0 m e) : m = 0 := by
  rcases Nat.eq_zero_or_pos m with hm | hm
  · exact hm
  · exact absurd (h.pos hm) (lt_irrefl 0)

/-- Zero is read as zero, however many places it has. -/
theorem ofScientific_zero (k : Nat) : Float.ofScientific 0 true k = .ofModel (.pack (.zero .positive)) := by
  unfold Float.ofScientific
  split
  · rename_i hfast
    have hk : k < Float.exactlyRepresentablePowersOfTen.size := Nat.lt_succ_of_le hfast.2
    obtain ⟨m, e, hvalue, hpower⟩ := powerOfTen_eq hk
    have hm : 0 < m := mantissa_pos hvalue (by positivity)
    have hdenominator : Float.exactlyRepresentablePowersOfTen[k].toModel.unpack = .finite .positive m e hm := by
      rw [unpack_eq, hpower, Binary.unpacked_finite false e hm]
      rfl
    show Float.ofModel (.pack (UnpackedFloat.div .binary64 (Nat.toUInt64 0).toFloat.toModel.unpack
      Float.exactlyRepresentablePowersOfTen[k].toModel.unpack)) = _
    rw [hdenominator]
    rfl
  · rfl

/-- **Decimals are read as the nearest double.** -/
theorem ofScientific_eq {n k m : Nat} {e : Int} (hnormal : Binary.Normalized m e) (hround : RoundsTo (n / 10 ^ k) m e) :
    Float.ofScientific n true k = .ofModel (.pack (Binary.finite false m e).unpacked) := by
  rcases Nat.eq_zero_or_pos n with rfl | hn
  · rw [Nat.cast_zero, zero_div] at hround
    rw [ofScientific_zero, Binary.unpacked, dif_pos hround.eq_zero]
    rfl
  · unfold Float.ofScientific
    split
    · rename_i hfast
      exact toFloat_div_powerOfTen_eq hn hfast.1 _ hnormal hround
    · have hexponent : Int.negOfNat k = -(k : Int) := Int.negOfNat_eq
      show Float.ofModel (.pack (UnpackedFloat.ofScientific .binary64 n (Int.negOfNat k))) = _
      rw [hexponent, unpacked_ofScientific_eq hn hnormal hround]

/-! ### Decimals are numbers -/

theorem roundWithAccuracy_ne_notANumber (s : Sign) (m : Nat) (e : Int) (accuracy : Accuracy) :
    roundWithAccuracy .binary64 s m e accuracy ≠ .notANumber := by
  unfold roundWithAccuracy
  dsimp only
  split <;> rintro ⟨⟩

theorem div_ne_notANumber {a : UnpackedFloat} (ha : a ≠ .notANumber) (s : Sign) (m : Nat) (e : Int) (hm : 0 < m) :
    UnpackedFloat.div .binary64 a (.finite s m e hm) ≠ .notANumber := by
  cases a with
  | notANumber => exact absurd rfl ha
  | finite s' m' e' hm' => exact roundWithAccuracy_ne_notANumber _ _ _ _
  | _ => rintro ⟨⟩

theorem ofNat_ne_notANumber (n : Nat) : UnpackedFloat.ofNat .binary64 n ≠ .notANumber := by
  unfold UnpackedFloat.ofNat UnpackedFloat.ofInt UnpackedFloat.normalize UnpackedFloat.round
  split
  · exact roundWithAccuracy_ne_notANumber _ _ _ _
  · rintro ⟨⟩
  · exact roundWithAccuracy_ne_notANumber _ _ _ _

theorem unpacked_ofScientific_ne_notANumber (n : Nat) (e : Int) :
    UnpackedFloat.ofScientific .binary64 n e ≠ .notANumber := by
  fun_cases UnpackedFloat.ofScientific .binary64 n e with
  | case1 | case2 | case3 => rintro ⟨⟩
  | case4 => exact roundWithAccuracy_ne_notANumber _ _ _ _
  | case5 => exact div_ne_notANumber (by simp) _ _ _ _

/-- No decimal is read as NaN. -/
theorem ofScientific_ne_nan (n k : Nat) : Float.ofScientific n true k ≠ .nan := by
  unfold Float.ofScientific
  split
  · rename_i hfast
    have hk : k < Float.exactlyRepresentablePowersOfTen.size := Nat.lt_succ_of_le hfast.2
    obtain ⟨m, e, hvalue, hpower⟩ := powerOfTen_eq hk
    have hm : 0 < m := mantissa_pos hvalue (by positivity)
    have hnumerator : n.toUInt64.toFloat ≠ .nan := ofModel_pack_ne_nan (ofNat_ne_notANumber _)
    apply ofModel_pack_ne_nan
    rw [unpack_eq Float.exactlyRepresentablePowersOfTen[k], hpower, Binary.unpacked_finite false e hm]
    exact div_ne_notANumber (unpack_ne_notANumber hnumerator) _ _ _ _
  · exact ofModel_pack_ne_nan (unpacked_ofScientific_ne_notANumber _ _)

end Pictogram.Double
