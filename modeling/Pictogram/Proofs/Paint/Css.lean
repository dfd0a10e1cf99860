import Mathlib
import Pictogram.Proofs.Decimal.Nearest
import Pictogram.Proofs.Decimal.Spelling
import Pictogram.Proofs.Paint.Channels

/-! # Colours from markup to canvas

A colour text denotes four channels, each by a pair of hexadecimal digits (`Color.Denotes`); the texts that denote channels
are `#` with six or eight digits behind it (`Color.exists_denotes_iff`).  Unpacking a colour gives back the channels that it
was packed from (`Color.Channels.unpacked_color`).  The style text of a canvas shows three of them in decimal and the alpha
in thousandths (`Color.Channels.css_color`).  Thousandths are written as a numeral that spells them exactly
(`Color.exists_text_eq_thousandthsText`), and no two alphas have the same thousandths, so that the style text shows the
channels (`Color.Channels.style_inj`). -/

namespace Pictogram

/-! ### Hexadecimal digits -/

namespace CodeUnit

/-- The unit is the hexadecimal digit of a number, in lower or upper case. -/
def HexDigit (u : CodeUnit) (n : Nat) : Prop :=
  (lit "0123456789abcdef")[n]? = some u ∨ (lit "0123456789ABCDEF")[n]? = some u

theorem HexDigit.lt {u : CodeUnit} {n : Nat} (h : HexDigit u n) : n < 16 := by
  rcases h with h | h
  · exact (List.getElem?_eq_some_iff.mp h).1
  · exact (List.getElem?_eq_some_iff.mp h).1

/-- A pair of digits is a byte. -/
theorem HexDigit.toNat_pair {u v : CodeUnit} {high low : Nat} (hu : HexDigit u high) (hv : HexDigit v low) :
    (UInt8.ofNat (16 * high + low)).toNat = 16 * high + low := by
  have := hu.lt
  have := hv.lt
  rw [UInt8.toNat_ofNat']
  omega

/-- Digits are read from three ranges of units. -/
theorem cases_of_hexDigit? {u : CodeUnit} {n : Nat} (h : u.hexDigit? = some n) :
    u = UInt16.ofNat (48 + n) ∧ n < 10 ∨ (u = UInt16.ofNat (87 + n) ∨ u = UInt16.ofNat (55 + n)) ∧ 10 ≤ n ∧ n < 16 := by
  have hunit {k : Nat} (hk : u.toNat = k) : u = UInt16.ofNat k := by rw [← hk, UInt16.ofNat_toNat]
  unfold hexDigit? at h
  split_ifs at h with hdecimal hlower hupper
  · have hrange : 48 ≤ u.toNat ∧ u.toNat ≤ 57 := hdecimal
    have hn := Option.some.inj h
    exact .inl ⟨hunit (by omega), by omega⟩
  · have hrange : 97 ≤ u.toNat ∧ u.toNat ≤ 102 := hlower
    have hn := Option.some.inj h
    exact .inr ⟨.inl (hunit (by omega)), by omega⟩
  · have hrange : 65 ≤ u.toNat ∧ u.toNat ≤ 70 := hupper
    have hn := Option.some.inj h
    exact .inr ⟨.inr (hunit (by omega)), by omega⟩

theorem hexDigit?_eq_some_iff {u : CodeUnit} {n : Nat} : u.hexDigit? = some n ↔ HexDigit u n := by
  constructor
  · intro h
    rcases cases_of_hexDigit? h with ⟨rfl, hn⟩ | ⟨rfl | rfl, hlow, hn⟩
    · interval_cases n <;> exact .inl (by decide)
    · interval_cases n <;> exact .inl (by decide)
    · interval_cases n <;> exact .inr (by decide)
  · intro h
    have hn := h.lt
    rcases h with h | h <;> interval_cases n <;> obtain rfl := Option.some.inj h <;> decide

end CodeUnit

open CodeUnit (HexDigit hexDigit?_eq_some_iff)

namespace Color

/-! ### Channels -/

/-- Pairs of hexadecimal digits and the numbers that they spell, in order. -/
inductive HexPairs : Text → List Nat → Prop
  | nil : HexPairs [] []
  | cons {u v : CodeUnit} {high low : Nat} {t : Text} {numbers : List Nat} (hu : HexDigit u high) (hv : HexDigit v low)
      (ht : HexPairs t numbers) : HexPairs (u :: v :: t) ((16 * high + low) :: numbers)

theorem HexPairs.length_eq {t : Text} {numbers : List Nat} (h : HexPairs t numbers) : t.length = 2 * numbers.length := by
  induction h with
  | nil => rfl
  | cons _ _ _ ih => rw [List.length_cons, List.length_cons, ih, List.length_cons, Nat.mul_succ]

theorem HexPairs.digits {t : Text} {numbers : List Nat} (h : HexPairs t numbers) : ∀ u ∈ t, ∃ n, HexDigit u n := by
  induction h with
  | nil => simp
  | cons hu hv _ ih => exact List.forall_mem_cons.mpr ⟨⟨_, hu⟩, List.forall_mem_cons.mpr ⟨⟨_, hv⟩, ih⟩⟩

/-- Digits in even number are pairs that spell bytes. -/
theorem exists_hexPairs (count : Nat) {t : Text} (hlength : t.length = 2 * count) (h : ∀ u ∈ t, ∃ n, HexDigit u n) :
    ∃ bytes : List UInt8, bytes.length = count ∧ HexPairs t (bytes.map UInt8.toNat) := by
  induction count generalizing t with
  | zero =>
      obtain rfl := List.length_eq_zero_iff.mp hlength
      exact ⟨[], rfl, .nil⟩
  | succ count ih =>
      match t, hlength, h with
      | u :: v :: t, hlength, h =>
          obtain ⟨⟨high, hu⟩, hrest⟩ := List.forall_mem_cons.mp h
          obtain ⟨⟨low, hv⟩, hrest⟩ := List.forall_mem_cons.mp hrest
          obtain ⟨bytes, hcount, hpairs⟩ := ih (by simp only [List.length_cons] at hlength; omega) hrest
          refine ⟨UInt8.ofNat (16 * high + low) :: bytes, by rw [List.length_cons, hcount], ?_⟩
          rw [List.map_cons, hu.toNat_pair hv]
          exact .cons hu hv hpairs

theorem hexBytes?_of_hexPairs {t : Text} {numbers : List Nat} (h : HexPairs t numbers) :
    hexBytes? t = some (numbers.map UInt8.ofNat) := by
  induction h with
  | nil => rfl
  | cons hu hv _ ih => simp [hexBytes?, hexDigit?_eq_some_iff.mpr hu, hexDigit?_eq_some_iff.mpr hv, ih]

theorem hexPairs_of_hexBytes? {t : Text} {bytes : List UInt8} (h : hexBytes? t = some bytes) :
    HexPairs t (bytes.map UInt8.toNat) := by
  fun_induction hexBytes? t generalizing bytes with
  | case1 =>
      cases h
      exact .nil
  | case2 => cases h
  | case3 u v t ih =>
      simp only [Option.bind_eq_bind, Option.bind_eq_some_iff, Option.pure_def, Option.some.injEq] at h
      obtain ⟨high, hu, low, hv, rest, hrest, rfl⟩ := h
      have hu := hexDigit?_eq_some_iff.mp hu
      have hv := hexDigit?_eq_some_iff.mp hv
      rw [List.map_cons, hu.toNat_pair hv]
      exact .cons hu hv (ih hrest)

theorem hexPairs_iff {t : Text} {bytes : List UInt8} : HexPairs t (bytes.map UInt8.toNat) ↔ hexBytes? t = some bytes := by
  refine ⟨fun h => ?_, hexPairs_of_hexBytes?⟩
  rw [hexBytes?_of_hexPairs h, List.map_map]
  congr 1
  exact List.map_id'' (fun b => UInt8.ofNat_toNat) bytes

/-- The four channels of a colour. -/
@[ext] structure Channels where
  red : UInt8
  green : UInt8
  blue : UInt8
  alpha : UInt8
deriving DecidableEq, Repr

/-- The text is `#` and pairs of digits for red, green, blue and alpha, which is full when left out. -/
def Denotes (value : Text) (c : Channels) : Prop :=
  ∃ digits, value = unit '#' :: digits ∧
    (HexPairs digits [c.red.toNat, c.green.toNat, c.blue.toNat] ∧ c.alpha = 0xFF ∨
      HexPairs digits [c.red.toNat, c.green.toNat, c.blue.toNat, c.alpha.toNat])

/-- The text is `#` and six or eight hexadecimal digits. -/
def IsText (value : Text) : Prop :=
  ∃ digits, value = unit '#' :: digits ∧ (digits.length = 6 ∨ digits.length = 8) ∧ ∀ u ∈ digits, ∃ n, HexDigit u n

theorem exists_denotes_iff {value : Text} : (∃ c, Denotes value c) ↔ IsText value := by
  constructor
  · rintro ⟨c, digits, rfl, ⟨hpairs, -⟩ | hpairs⟩
    · exact ⟨digits, rfl, .inl hpairs.length_eq, hpairs.digits⟩
    · exact ⟨digits, rfl, .inr hpairs.length_eq, hpairs.digits⟩
  · rintro ⟨digits, rfl, hlength | hlength, hdigits⟩
    · obtain ⟨bytes, hcount, hpairs⟩ := exists_hexPairs 3 hlength hdigits
      obtain ⟨red, green, blue, rfl⟩ := List.length_eq_three.mp hcount
      exact ⟨⟨red, green, blue, 0xFF⟩, digits, rfl, .inl ⟨hpairs, rfl⟩⟩
    · obtain ⟨bytes, hcount, hpairs⟩ := exists_hexPairs 4 hlength hdigits
      match bytes, hcount with
      | [red, green, blue, alpha], _ => exact ⟨⟨red, green, blue, alpha⟩, digits, rfl, .inr hpairs⟩

theorem denotes_iff_spells {value : Text} {c : Channels} : Denotes value c ↔ Spells value c.alpha c.red c.green c.blue := by
  have hthree (digits : Text) : HexPairs digits [c.red.toNat, c.green.toNat, c.blue.toNat] ↔
      hexBytes? digits = some [c.red, c.green, c.blue] := @hexPairs_iff digits [_, _, _]
  have hfour (digits : Text) : HexPairs digits [c.red.toNat, c.green.toNat, c.blue.toNat, c.alpha.toNat] ↔
      hexBytes? digits = some [c.red, c.green, c.blue, c.alpha] := @hexPairs_iff digits [_, _, _, _]
  simp only [Denotes, Spells, hthree, hfour]

/-! ### Packing and unpacking -/

/-- The colour with these channels. -/
def Channels.color (c : Channels) : Color := ofChannels c.alpha c.red c.green c.blue

theorem toNat_argb_inj {color color' : Color} : color.argb.toNat = color'.argb.toNat ↔ color = color' := by
  rw [UInt32.toNat_inj, Color.mk.injEq]

theorem Channels.toNat_color (c : Channels) :
    c.color.argb.toNat = c.alpha.toNat * 2 ^ 24 + c.red.toNat * 2 ^ 16 + c.green.toNat * 2 ^ 8 + c.blue.toNat :=
  toNat_ofChannels c.alpha c.red c.green c.blue

theorem read?_eq_some_iff_denotes {value : Text} {color : Color} :
    read? value = some color ↔ ∃ c, Denotes value c ∧ color = c.color := by
  rw [read?_eq_some_iff]
  constructor
  · rintro ⟨alpha, red, green, blue, hspells, rfl⟩
    exact ⟨⟨red, green, blue, alpha⟩, denotes_iff_spells.mpr hspells, rfl⟩
  · rintro ⟨c, hdenotes, rfl⟩
    exact ⟨c.alpha, c.red, c.green, c.blue, denotes_iff_spells.mp hdenotes, rfl⟩

/-- A byte of the number of a colour. -/
theorem toNat_toUInt8_shiftRight (word k : UInt32) (hk : k.toNat < 32) :
    (word >>> k).toUInt8.toNat = word.toNat / 2 ^ k.toNat % 2 ^ 8 := by
  rw [UInt32.toNat_toUInt8, UInt32.toNat_shiftRight, Nat.mod_eq_of_lt hk, Nat.shiftRight_eq_div_pow]

theorem Channels.unpacked_color (c : Channels) :
    c.color.red = c.red ∧ c.color.green = c.green ∧ c.color.blue = c.blue ∧ c.color.alpha = c.alpha := by
  have hnumber := c.toNat_color
  have hred := c.red.toNat_lt
  have hgreen := c.green.toNat_lt
  have hblue := c.blue.toNat_lt
  have halpha := c.alpha.toNat_lt
  refine ⟨UInt8.toNat_inj.mp ?_, UInt8.toNat_inj.mp ?_, UInt8.toNat_inj.mp ?_, UInt8.toNat_inj.mp ?_⟩
  · rw [Color.red, toNat_toUInt8_shiftRight _ 16 (by decide), hnumber, show UInt32.toNat 16 = 16 from rfl]
    omega
  · rw [Color.green, toNat_toUInt8_shiftRight _ 8 (by decide), hnumber, show UInt32.toNat 8 = 8 from rfl]
    omega
  · rw [Color.blue, UInt32.toNat_toUInt8, hnumber]
    omega
  · rw [Color.alpha, toNat_toUInt8_shiftRight _ 24 (by decide), hnumber, show UInt32.toNat 24 = 24 from rfl]
    omega

theorem Channels.color_inj {c c' : Channels} (h : c.color = c'.color) : c = c' := by
  obtain ⟨hred, hgreen, hblue, halpha⟩ := c.unpacked_color
  obtain ⟨hred', hgreen', hblue', halpha'⟩ := c'.unpacked_color
  rw [h] at hred hgreen hblue halpha
  exact Channels.ext (hred.symm.trans hred') (hgreen.symm.trans hgreen') (hblue.symm.trans hblue')
    (halpha.symm.trans halpha')

theorem Denotes.unique {value : Text} {c c' : Channels} (h : Denotes value c) (h' : Denotes value c') : c = c' := by
  have hread : read? value = some c.color := read?_eq_some_iff_denotes.mpr ⟨c, h, rfl⟩
  have hread' : read? value = some c'.color := read?_eq_some_iff_denotes.mpr ⟨c', h', rfl⟩
  exact Channels.color_inj (Option.some.inj (hread.symm.trans hread'))

/-! ### Thousandths -/

theorem thousandths_eq_round (channel : UInt8) : (thousandths channel : ℤ) = round (1000 * (channel.toNat : ℚ) / 255) := by
  have hsum : 1000 * (channel.toNat : ℚ) / 255 + 1 / 2 = ((2000 * channel.toNat + 255 : ℕ) : ℚ) / (510 : ℕ) := by
    push_cast
    ring
  rw [round_eq, hsum, Rat.floor_natCast_div_natCast, thousandths]
  rfl

theorem thousandths_inj {a b : UInt8} : thousandths a = thousandths b ↔ a = b := by
  refine ⟨fun h => ?_, congrArg thousandths⟩
  unfold thousandths at h
  have ha := a.toNat_lt
  have hb := b.toNat_lt
  exact UInt8.toNat_inj.mp (by omega)

/-- Digits behind a positive number are written behind it. -/
theorem ofNat_mul_add_value {m : Nat} (hm : 0 < m) (ds : List Digit) :
    Text.ofNat (m * 10 ^ ds.length + Digit.value ds) = Text.ofNat m ++ ds.map Digit.unit := by
  induction ds using List.reverseRecOn with
  | nil => simp [Digit.value]
  | append_singleton ds d ih =>
      have hpos : 0 < m * 10 ^ ds.length + Digit.value ds := Nat.add_pos_left (by positivity) _
      have hd := d.isLt
      have hnumber : m * 10 ^ (ds ++ [d]).length + Digit.value (ds ++ [d]) =
          10 * (m * 10 ^ ds.length + Digit.value ds) + d.val := by
        have hsingle : Digit.value [d] = d.val := Nat.zero_add _
        rw [Digit.value_append, hsingle, List.length_append, List.length_singleton, pow_succ]
        ring
      have hlast : (10 * (m * 10 ^ ds.length + Digit.value ds) + d.val) / 10 = m * 10 ^ ds.length + Digit.value ds ∧
          (10 * (m * 10 ^ ds.length + Digit.value ds) + d.val) % 10 = d.val := by omega
      rw [hnumber, Text.ofNat, Nat.toDigits_eq_if (by decide), if_neg (by omega), hlast.1, hlast.2, List.map_append,
        ← Text.ofNat, ih, List.append_assoc, List.map_append, List.map_singleton, List.map_singleton, Digit.unit_eq_digitChar]

/-- Digits without the zeros at their end. -/
theorem exists_map_unit_eq_dropWhile (ds : List Digit) : ∃ (shown : List Digit) (count : Nat),
    ds = shown ++ .replicate count 0 ∧
      ((ds.map Digit.unit).reverse.dropWhile (· = unit '0')).reverse = shown.map Digit.unit := by
  induction ds using List.reverseRecOn with
  | nil => exact ⟨[], 0, rfl, rfl⟩
  | append_singleton ds d ih =>
      by_cases hd : d = 0
      · obtain ⟨shown, count, hds, htext⟩ := ih
        refine ⟨shown, count + 1, ?_, ?_⟩
        · rw [hd, List.replicate_succ', ← List.append_assoc, ← hds]
        · have hzero : Digit.unit d = unit '0' := by rw [hd]; rfl
          simpa [hzero] using htext
      · refine ⟨ds ++ [d], 0, (List.append_nil _).symm, ?_⟩
        have hunit : Digit.unit d ≠ unit '0' := by
          revert d
          decide
        simp [hunit]

/-- **Thousandths are written as a numeral that spells them.** -/
theorem exists_text_eq_thousandthsText (n : Nat) :
    ∃ numeral : Numeral, numeral.WellFormed ∧ numeral.text = thousandthsText n ∧ numeral.magnitude = n / 1000 := by
  obtain ⟨whole, hne, hwhole, hvalue, -⟩ := Digit.exists_map_unit_eq_ofNat (n / 1000)
  obtain ⟨ds, hlength, hds⟩ : ∃ ds : List Digit, ds.length = 3 ∧ Digit.value ds = n % 1000 := by
    refine ⟨[⟨n % 1000 / 100, by omega⟩, ⟨n % 100 / 10, by omega⟩, ⟨n % 10, by omega⟩], rfl, ?_⟩
    simp only [Digit.value, List.foldl_cons, List.foldl_nil]
    omega
  have hdigits : (Text.ofNat (1000 + n % 1000)).drop 1 = ds.map Digit.unit := by
    have h := ofNat_mul_add_value Nat.one_pos ds
    rw [hlength, hds] at h
    rw [show 1000 + n % 1000 = 1 * 10 ^ 3 + n % 1000 from rfl, h]
    rfl
  obtain ⟨shown, count, rfl, hshown⟩ := exists_map_unit_eq_dropWhile ds
  have hfraction :
      Numeral.fractionDigits ⟨false, whole, if shown = [] then none else some shown⟩ = shown := by
    unfold Numeral.fractionDigits
    split <;> simp_all
  refine ⟨⟨false, whole, if shown = [] then none else some shown⟩, .inl hne, ?_, ?_⟩
  · simp only [thousandthsText, hdigits, hshown, hwhole, Numeral.text, List.map_eq_nil_iff]
    split_ifs <;> rfl
  · have hcount : shown.length + count = 3 := by simpa using hlength
    have hnumber : (n : ℚ) = 1000 * (n / 1000 : ℕ) + (n % 1000 : ℕ) := by
      exact_mod_cast (Nat.div_add_mod n 1000).symm
    have hthousand : (10 : ℚ) ^ shown.length * 10 ^ count = 1000 := by
      rw [← pow_add, hcount]
      norm_num
    rw [Digit.value_append, Digit.value_replicate_zero, Nat.add_zero, List.length_replicate] at hds
    rw [Numeral.magnitude, hfraction, Digit.value_append, hvalue, hnumber, ← hds, ← hthousand]
    push_cast
    field_simp

theorem thousandthsText_inj {m n : Nat} : thousandthsText m = thousandthsText n ↔ m = n := by
  refine ⟨fun h => ?_, congrArg thousandthsText⟩
  obtain ⟨M, hM, htext, hm⟩ := exists_text_eq_thousandthsText m
  obtain ⟨N, hN, htext', hn⟩ := exists_text_eq_thousandthsText n
  obtain rfl := Numeral.text_injective hM hN (by rw [htext, htext', h])
  have hquotient : (m : ℚ) / 1000 = n / 1000 := by rw [← hm, ← hn]
  have hnumber : (m : ℚ) = n := by linarith
  exact_mod_cast hnumber

/-- The alpha of a canvas style is the text of a double.  The shortest text of a double is found by a search, so the
texts are compared one by one. -/
theorem thousandthsText_eq_ofFloat (channel : UInt8) : thousandthsText (thousandths channel) =
    Decimal.ofFloat (Float.ofInt (round (1000 * (channel.toNat : ℚ) / 255)) / 1000) := by
  have hall : ∀ n : Fin 256, thousandthsText (thousandths (UInt8.ofNat n)) =
      Decimal.ofFloat (Float.ofInt (thousandths (UInt8.ofNat n)) / 1000) := by decide +kernel
  have hchannel := hall ⟨channel.toNat, channel.toNat_lt⟩
  rw [UInt8.ofNat_toNat] at hchannel
  rw [hchannel, thousandths_eq_round]

/-! ### The style text -/

/-- Three channels in decimal and the alpha as a double in thousandths. -/
def Channels.style (c : Channels) : Text :=
  lit "rgba(" ++ Text.ofNat c.red.toNat ++ lit ", " ++ Text.ofNat c.green.toNat ++ lit ", " ++ Text.ofNat c.blue.toNat ++
    lit ", " ++ Decimal.ofFloat (Float.ofInt (round (1000 * (c.alpha.toNat : ℚ) / 255)) / 1000) ++ lit ")"

theorem Channels.css_color (c : Channels) : c.color.css = c.style := by
  obtain ⟨hred, hgreen, hblue, halpha⟩ := c.unpacked_color
  rw [css, style, hred, hgreen, hblue, halpha, thousandthsText_eq_ofFloat]

/-- A number can be told apart from a comma and what follows it. -/
theorem ofNat_append_inj {m n : Nat} {s t : Text}
    (h : Text.ofNat m ++ (lit ", " ++ s) = Text.ofNat n ++ (lit ", " ++ t)) : m = n ∧ s = t := by
  have hcomma : lit ", " = [unit ',', unit ' '] := by decide
  have hscan (r : Text) : Digit.scan (lit ", " ++ r) = ([], lit ", " ++ r) := by
    rw [hcomma]
    exact Digit.scan_of_ofUnit?_eq_none (by decide) _
  obtain ⟨ds, -, hds, hm, -⟩ := Digit.exists_map_unit_eq_ofNat m
  obtain ⟨es, -, hes, hn, -⟩ := Digit.exists_map_unit_eq_ofNat n
  have h := congrArg Digit.scan h
  rw [hds, hes, Digit.scan_append, Digit.scan_append, hscan, hscan, List.append_nil, List.append_nil] at h
  obtain ⟨rfl, hrest⟩ := Prod.mk.inj h
  exact ⟨hm.symm.trans hn, List.append_cancel_left hrest⟩

/-- **The style text shows the channels.** -/
theorem Channels.style_inj {c c' : Channels} : c.style = c'.style ↔ c = c' := by
  refine ⟨fun h => ?_, congrArg style⟩
  simp only [style, ← thousandthsText_eq_ofFloat, List.append_assoc] at h
  obtain ⟨hred, h⟩ := ofNat_append_inj (List.append_cancel_left h)
  obtain ⟨hgreen, h⟩ := ofNat_append_inj h
  obtain ⟨hblue, h⟩ := ofNat_append_inj h
  have halpha := thousandths_inj.mp (thousandthsText_inj.mp (List.append_cancel_right h))
  exact Channels.ext (UInt8.toNat_inj.mp hred) (UInt8.toNat_inj.mp hgreen) (UInt8.toNat_inj.mp hblue) halpha

end Color

namespace Paint

open Color (Channels Denotes IsText)

theorem read_eq_none_iff {value : Text} : read value = .ok none ↔ value = lit "none" := by
  unfold read
  split_ifs with hnone
  · simp [hnone]
  · split <;> simp [hnone]

theorem read_eq_solid_iff {value : Text} {color : Color} :
    read value = .ok (solid color) ↔ ∃ c, Denotes value c ∧ color = c.color := by
  rw [← Color.read?_eq_some_iff_denotes]
  refine ⟨read?_of_read, fun h => ?_⟩
  have hnone : value ≠ lit "none" := by
    rintro rfl
    cases h
  simp [read, hnone, h]

theorem exists_read_iff {value : Text} : (∃ paint, read value = .ok paint) ↔ value = lit "none" ∨ IsText value := by
  constructor
  · rintro ⟨_ | color, hread⟩
    · exact .inl (read_eq_none_iff.mp hread)
    · obtain ⟨c, hdenotes, -⟩ := read_eq_solid_iff.mp hread
      exact .inr (Color.exists_denotes_iff.mp ⟨c, hdenotes⟩)
  · rintro (hnone | htext)
    · exact ⟨none, read_eq_none_iff.mpr hnone⟩
    · obtain ⟨c, hdenotes⟩ := Color.exists_denotes_iff.mpr htext
      exact ⟨solid c.color, read_eq_solid_iff.mpr ⟨c, hdenotes, rfl⟩⟩

theorem read_eq_error_iff {value : Text} {fault : Fault} :
    read value = .error fault ↔ ¬ (value = lit "none" ∨ IsText value) ∧ fault = .invalidColor value := by
  have hfault {fault : Fault} (h : read value = .error fault) : fault = .invalidColor value := by
    unfold read at h
    split_ifs at h
    split at h <;> cases h
    rfl
  rw [← exists_read_iff]
  constructor
  · intro h
    exact ⟨by simp [h], hfault h⟩
  · rintro ⟨hrefused, rfl⟩
    cases hread : read value with
    | ok paint => exact absurd ⟨paint, hread⟩ hrefused
    | error fault => rw [hfault hread]

/-- **Channels from markup to canvas.**  A paint is read from `none` and from the texts of colours, and nothing else.  The
number of a colour packs the channels that its text denotes, its style shows them, and so two colour texts have the same
style exactly if they denote the same channels. -/
theorem read_keeps_channels (value : Text) :
    ((∃ paint, read value = .ok paint) ↔ value = lit "none" ∨ IsText value) ∧
    (∀ fault, read value = .error fault ↔ ¬ (value = lit "none" ∨ IsText value) ∧ fault = .invalidColor value) ∧
    (read value = .ok none ↔ value = lit "none") ∧
    (∀ color, read value = .ok (solid color) ↔ ∃ c, Denotes value c ∧
      color.argb.toNat = c.alpha.toNat * 2 ^ 24 + c.red.toNat * 2 ^ 16 + c.green.toNat * 2 ^ 8 + c.blue.toNat) ∧
    (∀ color, read value = .ok (solid color) → ∃ c, Denotes value c ∧ color.css = c.style) ∧
    (∀ other color color', read value = .ok (solid color) → read other = .ok (solid color') →
      (color.css = color'.css ↔ ∃ c, Denotes value c ∧ Denotes other c)) := by
  refine ⟨exists_read_iff, fun fault => read_eq_error_iff, read_eq_none_iff, fun color => ?_, ?_, ?_⟩
  · simp only [read_eq_solid_iff, ← Channels.toNat_color, Color.toNat_argb_inj]
  · intro color hread
    obtain ⟨c, hdenotes, rfl⟩ := read_eq_solid_iff.mp hread
    exact ⟨c, hdenotes, c.css_color⟩
  · intro other color color' hread hread'
    obtain ⟨c, hdenotes, rfl⟩ := read_eq_solid_iff.mp hread
    obtain ⟨c', hdenotes', rfl⟩ := read_eq_solid_iff.mp hread'
    rw [c.css_color, c'.css_color, Channels.style_inj]
    constructor
    · rintro rfl
      exact ⟨c, hdenotes, hdenotes'⟩
    · rintro ⟨d, hd, hd'⟩
      rw [hdenotes.unique hd, hdenotes'.unique hd']

/-- Two spellings of a colour, and a colour whose alpha is not full. -/
theorem read_keeps_channels_spellings :
    read (lit "#0a141E") = .ok (solid ⟨0xFF0A141E⟩) ∧ read (lit "#0A141eff") = .ok (solid ⟨0xFF0A141E⟩) ∧
      read (lit "#0a141e80") = .ok (solid ⟨0x800A141E⟩) ∧
      (∃ c, Denotes (lit "#0a141e80") c ∧ (⟨0x800A141E⟩ : Color).css = c.style) ∧
      (∃ c, Denotes (lit "#0a141E") c ∧ Denotes (lit "#0A141eff") c) ∧
      ¬ ∃ c, Denotes (lit "#0a141E") c ∧ Denotes (lit "#0a141e80") c := by
  have hsix : read (lit "#0a141E") = .ok (solid ⟨0xFF0A141E⟩) := by decide
  have height : read (lit "#0A141eff") = .ok (solid ⟨0xFF0A141E⟩) := by decide
  have halpha : read (lit "#0a141e80") = .ok (solid ⟨0x800A141E⟩) := by decide
  have hcss : (⟨0xFF0A141E⟩ : Color).css ≠ (⟨0x800A141E⟩ : Color).css := by decide +kernel
  obtain ⟨-, -, -, -, -, hsame⟩ := read_keeps_channels (lit "#0a141E")
  obtain ⟨-, -, -, -, hstyle, -⟩ := read_keeps_channels (lit "#0a141e80")
  exact ⟨hsix, height, halpha, hstyle _ halpha, (hsame _ _ _ hsix height).mp rfl,
    fun h => hcss ((hsame _ _ _ hsix halpha).mpr h)⟩

end Paint

end Pictogram
