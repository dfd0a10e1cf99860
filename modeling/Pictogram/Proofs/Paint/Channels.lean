import Pictogram.Style

/-! # The channels of a colour

The number of a colour is its four channels side by side, each in a byte of its own (`Color.toNat_ofChannels`).  A
colour text spells the channels in bytes (`Color.Spells`), and reading it gives the colour of those channels
(`Color.read?_eq_some_iff`).  So a paint that an attribute gives is a colour exactly if the attribute is there and is
not `none`, and then the attribute spells its number (`Style.isSolid_of_readPaint`, `Style.spells_of_readPaint`). -/

namespace Pictogram

namespace Color

/-! ### Packing -/

theorem toNat_shiftLeft_channel (channel : UInt8) {k : UInt32} (hk : k.toNat ≤ 24) :
    (channel.toUInt32 <<< k).toNat = channel.toNat * Nat.pow 2 k.toNat := by
  have hword : channel.toNat * Nat.pow 2 k.toNat < 0x100000000 := calc
    channel.toNat * Nat.pow 2 k.toNat ≤ 0xFF * Nat.pow 2 24 :=
      Nat.mul_le_mul (Nat.le_of_lt_succ channel.toNat_lt) (Nat.pow_le_pow_right (by decide) hk)
    _ < 0x100000000 := by decide
  have hshift : k.toNat % 32 = k.toNat := Nat.mod_eq_of_lt (by omega)
  rw [UInt32.toNat_shiftLeft, UInt8.toNat_toUInt32, hshift, Nat.shiftLeft_eq]
  exact Nat.mod_eq_of_lt hword

/-- A number with zeros below bit `k` and a number below bit `k` are joined by adding them. -/
theorem or_eq_add (k : Nat) {high low : Nat} (hhigh : Nat.pow 2 k ∣ high) (hlow : low < Nat.pow 2 k) :
    high ||| low = high + low := by
  obtain ⟨a, rfl⟩ := hhigh
  exact (Nat.two_pow_add_eq_or_of_lt hlow a).symm

theorem toNat_ofChannels (alpha red green blue : UInt8) :
    (ofChannels alpha red green blue).argb.toNat =
      alpha.toNat * 0x1000000 + red.toNat * 0x10000 + green.toNat * 0x100 + blue.toNat := by
  have halpha : (alpha.toUInt32 <<< 24).toNat = alpha.toNat * 0x1000000 := toNat_shiftLeft_channel alpha (by decide)
  have hred : (red.toUInt32 <<< 16).toNat = red.toNat * 0x10000 := toNat_shiftLeft_channel red (by decide)
  have hgreen : (green.toUInt32 <<< 8).toNat = green.toNat * 0x100 := toNat_shiftLeft_channel green (by decide)
  have hred_lt : red.toNat < 0x100 := red.toNat_lt
  have hgreen_lt : green.toNat < 0x100 := green.toNat_lt
  have hpair : alpha.toNat * 0x1000000 ||| red.toNat * 0x10000 = alpha.toNat * 0x1000000 + red.toNat * 0x10000 :=
    or_eq_add 24 (show 0x1000000 ∣ _ by omega) (show _ < 0x1000000 by omega)
  have htriple : alpha.toNat * 0x1000000 + red.toNat * 0x10000 ||| green.toNat * 0x100 =
      alpha.toNat * 0x1000000 + red.toNat * 0x10000 + green.toNat * 0x100 :=
    or_eq_add 16 (show 0x10000 ∣ _ by omega) (show _ < 0x10000 by omega)
  rw [ofChannels, UInt32.toNat_or, UInt32.toNat_or, UInt32.toNat_or, UInt8.toNat_toUInt32, halpha, hred, hgreen, hpair,
    htriple]
  exact or_eq_add 8 (show 0x100 ∣ _ by omega) blue.toNat_lt

/-! ### Reading -/

/-- A colour text spells four channels in bytes, alpha last and full when left out. -/
def Spells (value : Text) (alpha red green blue : UInt8) : Prop :=
  ∃ digits, value = unit '#' :: digits ∧
    (hexBytes? digits = some [red, green, blue] ∧ alpha = 0xFF ∨ hexBytes? digits = some [red, green, blue, alpha])

theorem read?_eq_some_iff {value : Text} {c : Color} :
    read? value = some c ↔
      ∃ alpha red green blue, Spells value alpha red green blue ∧ c = ofChannels alpha red green blue := by
  constructor
  · intro h
    unfold read? at h
    split at h
    · cases h
    · split at h
      · next hash digits hhash =>
        split at h
        · next red green blue hbytes =>
          cases h
          exact ⟨0xFF, red, green, blue, ⟨digits, by rw [hhash], .inl ⟨hbytes, rfl⟩⟩, rfl⟩
        · next red green blue alpha hbytes =>
          cases h
          exact ⟨alpha, red, green, blue, ⟨digits, by rw [hhash], .inr hbytes⟩, rfl⟩
        · cases h
      · cases h
  · rintro ⟨alpha, red, green, blue, ⟨digits, rfl, ⟨hbytes, rfl⟩ | hbytes⟩, rfl⟩ <;> simp [read?, hbytes]

end Color

namespace Paint

theorem isSolid_of_read {value : Text} {paint : Paint} (h : read value = .ok paint) :
    paint.isSolid = (value != lit "none") := by
  unfold read at h
  split at h
  · next hnone =>
    cases h
    simp [hnone, isSolid]
  · next hsome =>
    split at h <;> cases h
    simp [hsome, isSolid]

theorem read?_of_read {value : Text} {c : Color} (h : read value = .ok (solid c)) : Color.read? value = some c := by
  unfold read at h
  split at h
  · cases h
  · split at h <;> cases h
    assumption

end Paint

namespace Style

/-- An attribute that is there and not `none` gives a colour. -/
theorem isSolid_of_readPaint {value : Option Text} {paint : Paint} (h : readPaint value = .ok paint) :
    paint.isSolid = value.any (· != lit "none") := by
  cases value with
  | none =>
      cases h
      rfl
  | some value => exact Paint.isSolid_of_read h

theorem spells_of_readPaint {value : Option Text} {c : Color} (h : readPaint value = .ok (.solid c)) :
    ∃ text ∈ value, ∃ alpha red green blue, Color.Spells text alpha red green blue ∧
      c = .ofChannels alpha red green blue := by
  cases value with
  | none => cases h
  | some value => exact ⟨value, rfl, Color.read?_eq_some_iff.mp (Paint.read?_of_read h)⟩

end Style
end Pictogram
