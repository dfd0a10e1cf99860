import Pictogram.Proofs.Paint.Css

/-! # Colours on signed words and doubles

Where every number is a double and bits are moved on signed words of 32 bits, a colour is packed by shifting its alpha
and joining the number of the other digits; the word is negative for an alpha of 128 or more, and is read as unsigned in
the end.  This is the number of the colour (`argb_of_read?`).  The channels are unpacked by a shift and a mask on signed
words, and the alpha of a style is computed on doubles and rounded; neither changes the style text (`css_eq_words`). -/

namespace Pictogram

open CodeUnit (HexDigit hexDigit?_eq_some_iff)

namespace Color

/-! ### Packing -/

/-- Packs an alpha and the number of the other channels on signed words. -/
def packSigned (alpha rgb : Nat) : UInt32 := (Int32.ofNat alpha <<< 24 ||| Int32.ofNat rgb).toUInt32

/-- Read as unsigned, the word is the alpha in front of the other channels, also where it is negative. -/
theorem toNat_packSigned {alpha rgb : Nat} (halpha : alpha < 0x100) (hrgb : rgb < 0x1000000) :
    (packSigned alpha rgb).toNat = alpha * 0x1000000 + rgb := by
  have hunsigned : packSigned alpha rgb = UInt32.ofNat alpha <<< 24 ||| UInt32.ofNat rgb := rfl
  have hhigh : (UInt32.ofNat alpha).toNat = alpha := UInt32.toNat_ofNat_of_lt' (show alpha < 0x100000000 by omega)
  have hlow : (UInt32.ofNat rgb).toNat = rgb := UInt32.toNat_ofNat_of_lt' (show rgb < 0x100000000 by omega)
  have hshift : (UInt32.ofNat alpha <<< 24).toNat = alpha * 0x1000000 := by
    rw [UInt32.toNat_shiftLeft, hhigh, Nat.shiftLeft_eq]
    exact Nat.mod_eq_of_lt (show alpha * 0x1000000 < 0x100000000 by omega)
  rw [hunsigned, UInt32.toNat_or, hshift, hlow]
  exact or_eq_add 24 (show 0x1000000 ∣ _ by omega) hrgb

theorem packSigned_channels (alpha red green blue : UInt8) :
    packSigned alpha.toNat (red.toNat * 0x10000 + green.toNat * 0x100 + blue.toNat) =
      (ofChannels alpha red green blue).argb := by
  have hred := red.toNat_lt
  have hgreen := green.toNat_lt
  have hblue := blue.toNat_lt
  apply UInt32.toNat_inj.mp
  rw [toNat_packSigned alpha.toNat_lt (by omega), toNat_ofChannels]
  omega

/-- The number that hexadecimal digits spell. -/
def hexNumber (t : Text) : Nat := t.foldl (fun n u => 16 * n + u.hexDigit?.getD 0) 0

namespace HexPairs

variable {t : Text} {numbers : List Nat}

theorem foldl_eq (h : HexPairs t numbers) (n : Nat) :
    t.foldl (fun n u => 16 * n + u.hexDigit?.getD 0) n = numbers.foldl (fun n m => 256 * n + m) n := by
  induction h generalizing n with
  | nil => rfl
  | @cons u v high low t numbers hu hv _ ih =>
      rw [List.foldl_cons, List.foldl_cons, hexDigit?_eq_some_iff.mpr hu, hexDigit?_eq_some_iff.mpr hv, ih,
        List.foldl_cons]
      congr 1
      simp only [Option.getD_some]
      omega

theorem take (h : HexPairs t numbers) (count : Nat) : HexPairs (t.take (2 * count)) (numbers.take count) := by
  induction h generalizing count with
  | nil => simpa using HexPairs.nil
  | cons hu hv _ ih =>
      cases count with
      | zero => exact .nil
      | succ count => exact .cons hu hv (ih count)

theorem drop (h : HexPairs t numbers) (count : Nat) : HexPairs (t.drop (2 * count)) (numbers.drop count) := by
  induction h generalizing count with
  | nil => simpa using HexPairs.nil
  | cons hu hv ht ih =>
      cases count with
      | zero => exact .cons hu hv ht
      | succ count => exact ih count

end HexPairs

/-- **Reading a colour packs its digits on signed words.**  The first six digits are one number, and the last two are the
alpha, which is full when they are left out. -/
theorem argb_of_read? {digits : Text} {c : Color} (h : read? (unit '#' :: digits) = some c) :
    c.argb = packSigned (if digits.length = 8 then hexNumber (digits.drop 6) else 0xFF) (hexNumber (digits.take 6)) := by
  obtain ⟨⟨red, green, blue, alpha⟩, ⟨digits', hdigits, hpairs⟩, rfl⟩ := read?_eq_some_iff_denotes.mp h
  obtain rfl := (List.cons.inj hdigits).2
  have hrgb : hexNumber (digits.take 6) = red.toNat * 0x10000 + green.toNat * 0x100 + blue.toNat := by
    have hfirst : HexPairs (digits.take 6) [red.toNat, green.toNat, blue.toNat] := by
      rcases hpairs with ⟨hpairs, -⟩ | hpairs
      · exact hpairs.take 3
      · exact hpairs.take 3
    rw [hexNumber, hfirst.foldl_eq]
    simp only [List.foldl_cons, List.foldl_nil]
    omega
  have halpha : (if digits.length = 8 then hexNumber (digits.drop 6) else 0xFF) = alpha.toNat := by
    rcases hpairs with ⟨hpairs, rfl⟩ | hpairs
    · rw [if_neg (by simp [hpairs.length_eq])]
      rfl
    · have hlength : digits.length = 8 := hpairs.length_eq
      have hlast : HexPairs (digits.drop 6) [alpha.toNat] := hpairs.drop 3
      rw [if_pos hlength, hexNumber, hlast.foldl_eq]
      simp
  rw [hrgb, halpha, packSigned_channels]
  rfl

/-! ### Unpacking -/

/-- The byte from bit `k` on, unpacked on signed words. -/
def unpackSigned (word k : UInt32) : Int := ((word >>> k).toInt32 &&& 0xFF).toInt

theorem unpackSigned_eq (word k : UInt32) : unpackSigned word k = (word >>> k).toUInt8.toNat := by
  have hmask : ((word >>> k).toInt32 &&& 0xFF).toBitVec = (word >>> k).toBitVec &&& 255#32 := rfl
  have hbyte : ((word >>> k).toBitVec &&& 255#32).toNat = (word >>> k).toNat % 256 := by
    rw [BitVec.toNat_and]
    exact Nat.and_two_pow_sub_one_eq_mod (word >>> k).toNat 8
  rw [unpackSigned, ← Int32.toInt_toBitVec, hmask, BitVec.toInt_eq_toNat_of_lt, hbyte]
  · rfl
  · omega

end Color

/-! ### Alpha -/

namespace Binary

/-- The number that a double stands for, and zero if it stands for none. -/
def toRat : Binary → ℚ
  | nan => 0
  | infinite _ => 0
  | finite negative m e => (if negative then -1 else 1) * m * 2 ^ e

/-- A double that is not negative and has a negative exponent, rounded to the nearest whole number, and up if halfway. -/
def roundNat? : Binary → Option Nat
  | finite false m (.negSucc k) => some ((2 * m + 2 ^ (k + 1)) / (2 * 2 ^ (k + 1)))
  | _ => none

theorem round_of_roundNat? {b : Binary} {n : Nat} (h : b.roundNat? = some n) : round b.toRat = n := by
  unfold roundNat? at h
  split at h
  · next m k =>
    cases h
    have hvalue : toRat (.finite false m (.negSucc k)) + 1 / 2 =
        ((2 * m + 2 ^ (k + 1) : ℕ) : ℚ) / ((2 * 2 ^ (k + 1) : ℕ) : ℚ) := by
      simp only [toRat, Bool.false_eq_true, if_false, one_mul, zpow_negSucc]
      push_cast
      field_simp
    rw [round_eq, hvalue, Rat.floor_natCast_div_natCast]
    rfl
  · cases h

end Binary

namespace Color

/-- The alpha of a channel in thousandths, computed on doubles. -/
def doubleThousandths (channel : Float) : Float := channel / 255 * 1000

theorem round_doubleThousandths (channel : UInt8) :
    round (Binary.ofFloat (doubleThousandths (.ofNat channel.toNat))).toRat = thousandths channel := by
  have hall : ∀ n : Fin 256, (Binary.ofFloat (doubleThousandths (.ofNat n))).roundNat? =
      some (thousandths (UInt8.ofNat n)) := by decide +kernel
  have hchannel := hall ⟨channel.toNat, channel.toNat_lt⟩
  rw [UInt8.ofNat_toNat] at hchannel
  exact Binary.round_of_roundNat? hchannel

/-- **The style text of a colour is what signed words and doubles give.** -/
theorem css_eq_words (c : Color) : c.css =
    lit "rgba(" ++ Text.ofNat (unpackSigned c.argb 16).toNat ++ lit ", " ++ Text.ofNat (unpackSigned c.argb 8).toNat ++
      lit ", " ++ Text.ofNat (unpackSigned c.argb 0).toNat ++ lit ", " ++
      Decimal.ofFloat (Float.ofInt (round (Binary.ofFloat (doubleThousandths (.ofInt (unpackSigned c.argb 24)))).toRat) /
        1000) ++ lit ")" := by
  have hblue : (c.argb >>> 0).toUInt8 = c.blue := by simp [blue]
  have halpha : Float.ofInt (unpackSigned c.argb 24) = .ofNat c.alpha.toNat := by
    rw [unpackSigned_eq]
    rfl
  rw [halpha, round_doubleThousandths, thousandths_eq_round, ← thousandthsText_eq_ofFloat, unpackSigned_eq,
    unpackSigned_eq, unpackSigned_eq, hblue]
  rfl

end Color
end Pictogram
