import Pictogram.Decimal.Shortest
import Pictogram.Proofs.Decimal.Rounding

/-! # Shortest decimals round to their double

The candidates for the decimal of a double are tested by comparing natural numbers, and the test says exactly
that the candidate rounds to the double (`Shortest.holds_inUnits_iff`).  Seventeen digits are enough for one of
the two candidates to pass (`Shortest.exists_nearest?`): the grid is then finer than the interval around the
double.  So a decimal is found, and rounds to the double that it is found for
(`ShortDecimal.roundsTo_ofBinary`). -/

namespace Pictogram

open Double (RoundsTo Between lowerGap zpow_eq_div)

/-- The number that a decimal stands for. -/
def ShortDecimal.value (d : ShortDecimal) : ℚ := d.digits * 10 ^ d.exponent

namespace Shortest

theorem value_strip (fuel : Nat) (d : ShortDecimal) : (strip fuel d).value = d.value := by
  induction fuel generalizing d with
  | zero => rfl
  | succ fuel ih =>
      unfold strip
      split
      · rename_i hzero
        have hdigits : (d.digits : ℚ) = 10 * (d.digits / 10 : ℕ) := by
          exact_mod_cast (Nat.mul_div_cancel' (Nat.dvd_of_mod_eq_zero hzero)).symm
        rw [ih]
        simp only [ShortDecimal.value]
        rw [hdigits, zpow_add_one₀ (by norm_num)]
        ring
      · rfl

/-! ### The interval in units -/

/-- What the numbers of the interval are multiplied by to make them natural. -/
def stretch (e p : Int) : ℚ := 4 * (2 ^ (e - 2).toNat * 10 ^ (-p).toNat)

theorem stretch_pos (e p : Int) : 0 < stretch e p := by
  unfold stretch
  positivity

theorem le_iff_of_stretch {a b : Nat} {x y c : ℚ} (hc : 0 < c) (ha : (a : ℚ) = x * c) (hb : (b : ℚ) = y * c) :
    a ≤ b ↔ x ≤ y := by
  have hcast : a ≤ b ↔ (a : ℚ) ≤ b := Nat.cast_le.symm
  rw [hcast, ha, hb, mul_le_mul_iff_left₀ hc]

theorem lt_iff_of_stretch {a b : Nat} {x y c : ℚ} (hc : 0 < c) (ha : (a : ℚ) = x * c) (hb : (b : ℚ) = y * c) :
    a < b ↔ x < y := by
  rw [← Nat.not_le, le_iff_of_stretch hc hb ha, not_le]

theorem denominator_inUnits (m : Nat) (e p : Int) (g : Nat) :
    ((g * ((interval m e).inUnits p).denominator : ℕ) : ℚ) = g * 10 ^ p / 2 ^ e * stretch e p := by
  have htwo : (2 : ℚ) ^ e = 4 * (2 ^ (e - 2).toNat / 2 ^ (2 - e).toNat) := by
    rw [← neg_sub e 2, ← zpow_eq_div two_ne_zero, zpow_sub₀ two_ne_zero]
    norm_num
    ring
  have hten : (10 : ℚ) ^ p = 10 ^ p.toNat / 10 ^ (-p).toNat := zpow_eq_div (by norm_num) p
  simp only [interval, Interval.inUnits, Nat.one_shiftLeft, stretch, Nat.pow_eq]
  rw [htwo, hten]
  push_cast
  field_simp

theorem value_inUnits (m : Nat) (e p : Int) :
    (((interval m e).inUnits p).value : ℚ) = m * stretch e p := by
  simp only [interval, Interval.inUnits, Nat.one_shiftLeft, stretch, Nat.pow_eq]
  push_cast
  ring

theorem low_inUnits {m : Nat} (hm : 0 < m) (e p : Int) :
    (((interval m e).inUnits p).low : ℚ) = (m - lowerGap m e) * stretch e p := by
  simp only [interval, Interval.inUnits, Nat.one_shiftLeft, stretch, Nat.pow_eq, lowerGap]
  split
  · rw [Nat.cast_mul, Nat.cast_mul, Nat.cast_sub (by omega)]
    push_cast
    ring
  · rw [Nat.cast_mul, Nat.cast_mul, Nat.cast_sub (by omega)]
    push_cast
    ring

theorem high_inUnits (m : Nat) (e p : Int) :
    (((interval m e).inUnits p).high : ℚ) = (m + 1 / 2) * stretch e p := by
  simp only [interval, Interval.inUnits, Nat.one_shiftLeft, stretch, Nat.pow_eq]
  push_cast
  ring

/-- A candidate passes if and only if it rounds to the double. -/
theorem holds_inUnits_iff {m : Nat} (hm : 0 < m) (e p : Int) (g : Nat) :
    ((interval m e).inUnits p).holds g = true ↔ RoundsTo (g * 10 ^ p) m e := by
  have hpos := stretch_pos e p
  have hlow := low_inUnits hm e p
  have hhigh := high_inUnits m e p
  have hunits := denominator_inUnits m e p g
  have hclosed : ((interval m e).inUnits p).closed = decide (m % 2 = 0) := rfl
  unfold Interval.holds RoundsTo Between
  dsimp only
  rw [hclosed]
  by_cases heven : m % 2 = 0
  · simp only [heven, decide_true, if_true, Bool.and_eq_true, decide_eq_true_eq, not_true_eq_false, false_implies,
      and_true]
    rw [le_iff_of_stretch hpos hlow hunits, le_iff_of_stretch hpos hunits hhigh]
  · simp only [heven, decide_false, Bool.false_eq_true, if_false, Bool.and_eq_true, decide_eq_true_eq,
      not_false_eq_true, true_implies]
    rw [lt_iff_of_stretch hpos hlow hunits, lt_iff_of_stretch hpos hunits hhigh]
    exact ⟨fun h => ⟨⟨h.1.le, h.2.le⟩, h⟩, fun h => h.2⟩

/-! ### Candidates -/

theorem holds_of_nearest? {i : Interval} {g : Nat} (h : i.nearest? = some g) : i.holds g = true := by
  unfold Interval.nearest? at h
  dsimp only at h
  split at h
  · cases h
  · rename_i hbelow _
    obtain rfl := Option.some.inj h
    exact hbelow
  · rename_i _ habove
    obtain rfl := Option.some.inj h
    exact habove
  · rename_i hbelow habove
    obtain rfl := Option.some.inj h
    split_ifs <;> assumption

theorem holds_of_nearest?_eq_none {i : Interval} (h : i.nearest? = none) :
    i.holds (i.value / i.denominator) = false ∧ i.holds (i.value / i.denominator + 1) = false := by
  unfold Interval.nearest? at h
  dsimp only at h
  split at h
  · rename_i hbelow habove
    exact ⟨hbelow, habove⟩
  all_goals cases h

/-! ### Magnitudes -/

theorem lt_pow_length_toDigits (n : Nat) : n < 10 ^ (Nat.toDigits 10 n).length :=
  (Nat.length_toDigits_le_iff (by decide) Nat.length_toDigits_pos).mp le_rfl

theorem pow_length_toDigits_le {n : Nat} (hn : 0 < n) : 10 ^ ((Nat.toDigits 10 n).length - 1) ≤ n := by
  rcases Nat.eq_zero_or_pos ((Nat.toDigits 10 n).length - 1) with hone | hmore
  · rw [hone]
    exact hn
  · by_contra hlt
    have hshort := (Nat.length_toDigits_le_iff (by decide) hmore).mpr (not_le.mp hlt)
    omega

theorem pow_magnitude_le {i : Interval} (hvalue : 0 < i.value) (hden : 0 < i.denominator) :
    (10 : ℚ) ^ (i.magnitude - 1) ≤ i.value / i.denominator := by
  have hden' : (0 : ℚ) < i.denominator := by exact_mod_cast hden
  unfold Interval.magnitude
  split
  · rename_i hle
    generalize hlength : (Nat.toDigits 10 (i.value / i.denominator)).length = length
    have hpos : 0 < length := hlength ▸ Nat.length_toDigits_pos
    have hexponent : (length : Int) - 1 = ((length - 1 : ℕ) : Int) := by omega
    have hpow : 10 ^ (length - 1) ≤ i.value / i.denominator :=
      hlength ▸ pow_length_toDigits_le (Nat.div_pos hle hden)
    rw [hexponent, zpow_natCast]
    calc (10 : ℚ) ^ (length - 1) ≤ (i.value / i.denominator : ℕ) := by exact_mod_cast hpow
      _ ≤ i.value / i.denominator := Nat.cast_div_le
  · generalize hlength : (Nat.toDigits 10 ((i.denominator - 1) / i.value)).length = length
    have hlt : (i.denominator - 1) / i.value < 10 ^ length := hlength ▸ lt_pow_length_toDigits _
    have hexponent : 1 - (length : Int) - 1 = -(length : Int) := by omega
    have hscaled : i.denominator ≤ i.value * 10 ^ length := by
      rw [Nat.div_lt_iff_lt_mul hvalue, Nat.mul_comm] at hlt
      omega
    rw [hexponent, zpow_neg, zpow_natCast, inv_eq_one_div, div_le_div_iff₀ (by positivity) hden', one_mul]
    exact_mod_cast hscaled

/-- The magnitude of a double is its own. -/
theorem pow_magnitude_interval_le {m : Nat} (hm : 0 < m) (e : Int) :
    (10 : ℚ) ^ ((interval m e).magnitude - 1) ≤ m * 2 ^ e := by
  have hvalue := value_inUnits m e 0
  have hden := denominator_inUnits m e 0 1
  have hstretch := stretch_pos e 0
  simp only [Interval.inUnits, neg_zero, Int.toNat_zero, Nat.pow_eq, pow_zero, mul_one, zpow_zero, Nat.one_mul,
    Nat.cast_one] at hvalue hden
  have hpos : 0 < (interval m e).value := by
    have : (0 : ℚ) < (interval m e).value := by rw [hvalue]; exact mul_pos (by exact_mod_cast hm) hstretch
    exact_mod_cast this
  have hpos' : 0 < (interval m e).denominator := by
    have : (0 : ℚ) < (interval m e).denominator := by rw [hden]; exact mul_pos (by positivity) hstretch
    exact_mod_cast this
  have hle := pow_magnitude_le hpos hpos'
  rw [hvalue, hden] at hle
  convert hle using 1
  field_simp

/-- With all digits, the grid is finer than the interval. -/
theorem unit_lt {m : Nat} {e : Int} (hm : 0 < m) (hlt : m < 2 * Binary.leastNormal) :
    (10 : ℚ) ^ ((interval m e).magnitude - mostDigits) / 2 ^ e < lowerGap m e + 1 / 2 := by
  have hle := pow_magnitude_interval_le hm e
  have hunit : (10 : ℚ) ^ ((interval m e).magnitude - mostDigits) / 2 ^ e ≤ m / 10 ^ 16 := by
    have hsplit : (interval m e).magnitude - mostDigits = (interval m e).magnitude - 1 + (-16) := by
      simp only [mostDigits]
      omega
    rw [hsplit, zpow_add₀ (by norm_num), div_le_iff₀ (Double.two_zpow_pos e)]
    norm_num
    linarith
  have hsize : (m : ℚ) < 2 ^ 53 := by exact_mod_cast hlt
  unfold lowerGap
  split
  · rename_i hpower
    have hm : (m : ℚ) = 2 ^ 52 := by rw [hpower.1]; norm_num [Binary.leastNormal]
    rw [hm] at hunit
    norm_num at hunit ⊢
    linarith
  · norm_num at hunit ⊢
    linarith

/-- With all digits, one of the candidates passes. -/
theorem exists_nearest? {m : Nat} {e : Int} (hm : 0 < m) (hlt : m < 2 * Binary.leastNormal) :
    ∃ g, ((interval m e).inUnits ((interval m e).magnitude - mostDigits)).nearest? = some g := by
  have hunit := unit_lt (e := e) hm hlt
  generalize (interval m e).magnitude - mostDigits = p at hunit ⊢
  cases hnearest : ((interval m e).inUnits p).nearest? with
  | some g => exact ⟨g, rfl⟩
  | none =>
      exfalso
      obtain ⟨hbelow, habove⟩ := holds_of_nearest?_eq_none hnearest
      have hpos := stretch_pos e p
      have hden : 0 < ((interval m e).inUnits p).denominator := by
        simp only [interval, Interval.inUnits, Nat.one_shiftLeft, Nat.pow_eq]
        positivity
      generalize hg : ((interval m e).inUnits p).value / ((interval m e).inUnits p).denominator = g at hbelow habove
      have hlow : (g * 10 ^ p / 2 ^ e : ℚ) ≤ m := by
        rw [← le_iff_of_stretch hpos (denominator_inUnits m e p g) (value_inUnits m e p), ← hg]
        exact Nat.div_mul_le_self _ _
      have hhigh : (m : ℚ) < (g + 1 : ℕ) * 10 ^ p / 2 ^ e := by
        rw [← lt_iff_of_stretch hpos (value_inUnits m e p) (denominator_inUnits m e p (g + 1)), ← hg, Nat.mul_comm]
        exact Nat.lt_mul_div_succ _ hden
      have hstep : ((g + 1 : ℕ) * 10 ^ p / 2 ^ e : ℚ) = g * 10 ^ p / 2 ^ e + 10 ^ p / 2 ^ e := by
        push_cast
        ring
      obtain ⟨hgap, -⟩ := Double.lowerGap_bounds m e
      have hlow' : (g * 10 ^ p / 2 ^ e : ℚ) ≤ m - lowerGap m e := by
        by_contra hinside
        have hround : RoundsTo (g * 10 ^ p) m e :=
          ⟨⟨by linarith, by linarith⟩, fun _ => ⟨by linarith, by linarith⟩⟩
        rw [← holds_inUnits_iff hm, hbelow] at hround
        cases hround
      have hhigh' : (m : ℚ) + 1 / 2 ≤ (g + 1 : ℕ) * 10 ^ p / 2 ^ e := by
        by_contra hinside
        have hround : RoundsTo ((g + 1 : ℕ) * 10 ^ p) m e :=
          ⟨⟨by linarith, by linarith⟩, fun _ => ⟨by linarith, by linarith⟩⟩
        rw [← holds_inUnits_iff hm, habove] at hround
        cases hround
      linarith

end Shortest

/-- **The decimal of a double rounds to it.** -/
theorem ShortDecimal.roundsTo_ofBinary {m : Nat} {e : Int} (hm : 0 < m) (hlt : m < 2 * Binary.leastNormal) :
    RoundsTo (ofBinary m e).value m e := by
  unfold ofBinary
  dsimp only
  cases hfound : (List.range' 1 Shortest.mostDigits).findSome? _ with
  | none =>
      obtain ⟨g, hg⟩ := Shortest.exists_nearest? (e := e) hm hlt
      have hlast := List.findSome?_eq_none_iff.mp hfound Shortest.mostDigits (by decide)
      rw [hg] at hlast
      cases hlast
  | some d =>
      obtain ⟨count, -, hcount⟩ := List.exists_of_findSome?_eq_some hfound
      obtain ⟨g, hg, rfl⟩ := Option.map_eq_some_iff.mp hcount
      rw [Option.getD_some, Shortest.value_strip]
      exact (Shortest.holds_inUnits_iff hm _ _ _).mp (Shortest.holds_of_nearest? hg)

end Pictogram
