import Pictogram.Decimal.Layout
import Pictogram.Proofs.Decimal.Munch
import Pictogram.Proofs.Decimal.Shortest

/-! # The text of a double as a numeral

The text of a decimal is a numeral, or a numeral with an exponent behind it, that together spell the decimal
(`exists_laidOut`); the numeral has no zero in front (`Numeral.Strict`).  Without an exponent the digits of
the numeral spell the decimal itself (`Numeral.Spells`, `layout_cases`).

So the text of a double is a numeral if the double is plain, that is, finite and written without an
exponent, and the numeral is read as that double again (`Decimal.exists_text_of_plain`).  Otherwise the text has
something in it that belongs to no numeral (`Decimal.cases_of_not_plain`). -/

namespace Pictogram

/-! ### Digits -/

namespace Digit

theorem value_append (ds es : List Digit) : value (ds ++ es) = value ds * 10 ^ es.length + value es := by
  have hfold (n : Nat) : es.foldl (fun n d => 10 * n + d.val) n = n * 10 ^ es.length + value es := by
    unfold value
    induction es generalizing n with
    | nil => simp
    | cons e es ih =>
        rw [List.foldl_cons, ih, List.foldl_cons, ih (10 * 0 + e.val), List.length_cons, Nat.pow_succ]
        ring_nf
  unfold value at hfold ⊢
  rw [List.foldl_append, hfold]

theorem value_replicate_zero (k : Nat) : value (.replicate k 0) = 0 := by
  induction k with
  | zero => rfl
  | succ k ih => rw [List.replicate_succ', value_append, ih]; rfl

theorem unit_eq_digitChar (d : Digit) : d.unit = Pictogram.unit (Nat.digitChar d.val) := by
  revert d
  decide

/-- The digits of a number in decimal; a zero in front stands alone. -/
theorem exists_map_unit_eq_ofNat (n : Nat) :
    ∃ ds : List Digit, ds ≠ [] ∧ Text.ofNat n = ds.map unit ∧ value ds = n ∧ (ds = [0] ∨ ds.head? ≠ some 0) := by
  induction n using Nat.strongRecOn with
  | ind n ih =>
      unfold Text.ofNat
      rw [Nat.toDigits_eq_if (by decide)]
      split
      · rename_i hn
        refine ⟨[⟨n, hn⟩], List.cons_ne_nil _ _, ?_, ?_, ?_⟩
        · rw [List.map_singleton, List.map_singleton, unit_eq_digitChar]
        · simp [value]
        · by_cases hzero : n = 0
          · exact .inl (by simp [hzero])
          · exact .inr (by simpa [Fin.ext_iff] using hzero)
      · rename_i hn
        obtain ⟨ds, hne, hds, hvalue, hhead⟩ := ih (n / 10) (by omega)
        unfold Text.ofNat at hds
        refine ⟨ds ++ [⟨n % 10, Nat.mod_lt n (by decide)⟩], by simp, ?_, ?_, ?_⟩
        · rw [List.map_append, hds, List.map_append, List.map_singleton, List.map_singleton, unit_eq_digitChar]
        · rw [value_append, hvalue]
          simp [value]
          omega
        · right
          rw [List.head?_append_of_ne_nil _ hne]
          refine hhead.resolve_left ?_
          rintro rfl
          have hsmall : n / 10 = 0 := hvalue.symm
          omega

end Digit

/-! ### Decimals -/

namespace ShortDecimal

/-- The double nearest to a decimal with a sign: an exponent above zero is written out in zeros. -/
def nearest (d : ShortDecimal) (negative : Bool) : Float :=
  let size := Float.ofScientific (d.digits * 10 ^ d.exponent.toNat) true (-d.exponent).toNat
  if negative then -size else size

theorem quotient_eq (d : ShortDecimal) :
    ((d.digits * 10 ^ d.exponent.toNat : Nat) / 10 ^ (-d.exponent).toNat : ℚ) = d.value := by
  rw [value, Double.zpow_eq_div (by norm_num)]
  push_cast
  ring

/-- The shortest decimal of a double is nearest to that double. -/
theorem nearest_ofBinary {x : Float} {negative : Bool} {m : Nat} {e : Int}
    (hx : Binary.ofFloat x = .finite negative m e) (hm : 0 < m) : (ofBinary m e).nearest negative = x := by
  have hrange := Binary.inRange_of_ofFloat hx
  have hround := roundsTo_ofBinary (e := e) hm hrange.1
  rw [← quotient_eq] at hround
  have hsize := Double.ofScientific_eq hrange.normalized hround
  rw [Binary.unpacked_finite false e hm] at hsize
  have hpacked : x = .ofModel (.pack (.finite (Binary.sign negative) m e hm)) := by
    rw [← Binary.unpacked_finite negative e hm, ← hx, ← Double.unpack_eq]
    exact (Float.ofBits_toBits x).symm
  unfold nearest
  rw [hsize, hpacked]
  cases negative with
  | false => rfl
  | true =>
      show Float.ofModel (.pack (Float.Model.pack _).unpack.neg) = _
      rw [Double.unpack_pack _ hm hrange]
      rfl

theorem digits_ofBinary_pos {x : Float} {negative : Bool} {m : Nat} {e : Int}
    (hx : Binary.ofFloat x = .finite negative m e) (hm : 0 < m) : 0 < (ofBinary m e).digits := by
  have hround := roundsTo_ofBinary (e := e) hm (Binary.inRange_of_ofFloat hx).1
  have hpos := hround.pos hm
  rw [Nat.pos_iff_ne_zero]
  intro hzero
  simp [value, hzero] at hpos

end ShortDecimal

namespace Numeral

/-- The digits of a numeral spell a decimal: an exponent above zero is written out in zeros, one below
is the length of the fraction. -/
def Spells (n : Numeral) (d : ShortDecimal) : Prop :=
  Digit.value (n.whole ++ n.fractionDigits) = d.digits * 10 ^ d.exponent.toNat ∧
    n.fractionDigits.length = (-d.exponent).toNat

theorem Spells.value_eq {n : Numeral} {d : ShortDecimal} (h : n.Spells d) : n.value = d.nearest n.negative := by
  rw [value, h.1, h.2, ShortDecimal.nearest]

/-- A numeral without a zero in front of other whole digits, and with digits around its point. -/
def Strict (n : Numeral) : Prop :=
  n.whole ≠ [] ∧ (1 < n.whole.length → n.whole.head?.map Fin.val ≠ some 0) ∧ n.fraction ≠ some []

instance (n : Numeral) : Decidable n.Strict := inferInstanceAs (Decidable (_ ∧ _))

theorem strict_of_head {n : Numeral} (hne : n.whole ≠ []) (hhead : n.whole.head? ≠ some 0) (h : n.fraction ≠ some []) :
    n.Strict := by
  refine ⟨hne, fun _ hzero => hhead ?_, h⟩
  obtain ⟨d, hd, hvalue⟩ := Option.map_eq_some_iff.mp hzero
  rw [hd, Option.some_inj]
  exact Fin.ext hvalue

/-- Digits with a point among them. -/
def split (ds : List Digit) (k : Nat) : Numeral := ⟨false, ds.take k, some (ds.drop k)⟩

theorem digits_split (ds : List Digit) (k : Nat) : (split ds k).whole ++ (split ds k).fractionDigits = ds :=
  List.take_append_drop k ds

theorem whole_split_ne_nil {ds : List Digit} {k : Nat} (hk : 0 < k) (hds : ds ≠ []) : (split ds k).whole ≠ [] := by
  simp [split, hds]
  omega

theorem strict_split {ds : List Digit} {k : Nat} (hk : 0 < k) (hlt : k < ds.length) (hhead : ds.head? ≠ some 0) :
    (split ds k).Strict := by
  have hne : ds ≠ [] := List.ne_nil_of_length_pos (by omega)
  refine strict_of_head (whole_split_ne_nil hk hne) ?_ ?_
  · rw [split, List.head?_take, if_neg (by omega)]
    exact hhead
  · rw [split, ne_eq, Option.some_inj, List.drop_eq_nil_iff]
    omega

/-- What a numeral spells is a number. -/
theorem value_ne_nan (n : Numeral) : n.value ≠ Float.nan := by
  have hsize := Double.ofScientific_ne_nan (Digit.value (n.whole ++ n.fractionDigits)) n.fractionDigits.length
  unfold value
  cases n.negative with
  | false => exact hsize
  | true => exact Double.neg_ne_nan hsize

theorem not_mem_text (n : Numeral) : Pictogram.unit 'e' ∉ n.text := by
  have hdigit (ds : List Digit) : Pictogram.unit 'e' ∉ ds.map Digit.unit := by
    intro h
    obtain ⟨d, -, hd⟩ := List.mem_map.mp h
    exact absurd hd (by revert d; decide)
  obtain ⟨negative, whole, fraction⟩ := n
  have hsign : Pictogram.unit 'e' ∉ signText negative := by cases negative <;> decide
  have hpoint : Pictogram.unit 'e' ≠ Pictogram.unit '.' := by decide
  cases fraction with
  | none => simp [text, fractionText, hsign, hdigit]
  | some ds => simp [text, fractionText, hsign, hdigit, hpoint]

/-- A sign in front of a numeral that has none. -/
theorem signText_append_text {n : Numeral} (h : n.negative = false) (negative : Bool) :
    signText negative ++ n.text = { n with negative }.text := by
  simp [text, h, signText]

end Numeral

namespace Decimal

theorem zeros_eq (k : Int) : zeros k = (List.replicate k.toNat (0 : Digit)).map Digit.unit := by
  rw [List.map_replicate]
  rfl

/-- A numeral, and an exponent behind it or nothing, that spell a decimal as its text does. -/
structure LaidOut (d : ShortDecimal) (n : Numeral) (tail : Text) (e : Int) : Prop where
  positive : n.negative = false
  wellFormed : n.WellFormed
  text : layout d = n.text ++ tail
  tail_cases : tail = [] ∧ e = 0 ∨ tail = signedExponent e
  value : Digit.value (n.whole ++ n.fractionDigits) * 10 ^ (e - n.fractionDigits.length).toNat =
    d.digits * 10 ^ d.exponent.toNat
  places : (-(e - n.fractionDigits.length)).toNat = (-d.exponent).toNat
  strict : 0 < d.digits → n.Strict

theorem exists_laidOut (d : ShortDecimal) : ∃ n tail e, LaidOut d n tail e := by
  obtain ⟨ds, hne, hds, hvalue, hzero⟩ := Digit.exists_map_unit_eq_ofNat d.digits
  have hhead (hpos : 0 < d.digits) : ds.head? ≠ some 0 := by
    refine hzero.resolve_left ?_
    rintro rfl
    exact Nat.ne_of_lt hpos hvalue
  have hlength : 0 < ds.length := List.length_pos_iff.mpr hne
  have hzeros : (ds.length : Int) + d.exponent - ds.length = d.exponent := by omega
  obtain ⟨t, ht⟩ : ∃ t, layout d = t := ⟨_, rfl⟩
  have htext := ht
  unfold layout at htext
  simp only [hds, List.length_map, zeros_eq, hzeros, ← List.map_take, ← List.map_drop] at htext
  split_ifs at htext with hwhole hpoint hlead hone
  · refine ⟨⟨false, ds ++ .replicate d.exponent.toNat 0, none⟩, [], 0, rfl, .inl (by simp [hne]), ?_, .inl ⟨rfl, rfl⟩,
      ?_, ?_, ?_⟩
    · rw [ht, ← htext]
      simp [Numeral.text, Numeral.signText, Numeral.fractionText]
    · simp [Numeral.fractionDigits, Digit.value_append, Digit.value_replicate_zero, hvalue]
    · simp [Numeral.fractionDigits]
      omega
    · intro hpos
      refine Numeral.strict_of_head (by simp [hne]) ?_ (by simp)
      rw [List.head?_append_of_ne_nil _ hne]
      exact hhead hpos
  · have hk : 0 < (ds.length + d.exponent).toNat := by omega
    have hlt : (ds.length + d.exponent).toNat < ds.length := by omega
    refine ⟨.split ds (ds.length + d.exponent).toNat, [], 0, rfl, .inl (Numeral.whole_split_ne_nil hk hne), ?_,
      .inl ⟨rfl, rfl⟩, ?_, ?_, fun hpos => Numeral.strict_split hk hlt (hhead hpos)⟩
    · rw [ht, ← htext]
      simp [Numeral.split, Numeral.text, Numeral.signText, Numeral.fractionText]
    · have hexponent : d.exponent.toNat = 0 := by omega
      have hscale (k : Nat) : (0 - (k : Int)).toNat = 0 := by omega
      rw [Numeral.digits_split, hvalue, hexponent, hscale]
    · simp only [Numeral.split, Numeral.fractionDigits, Option.getD_some, List.length_drop]
      omega
  · refine ⟨⟨false, [0], some (.replicate (-(ds.length + d.exponent)).toNat 0 ++ ds)⟩, [], 0, rfl,
      .inl (List.cons_ne_nil _ _), ?_, .inl ⟨rfl, rfl⟩, ?_, ?_, fun _ => ⟨by simp, by simp, by simp [hne]⟩⟩
    · have hlit : lit "0." = [unit '0', unit '.'] := by decide
      have hzero : Digit.unit 0 = unit '0' := by decide
      rw [ht, ← htext]
      simp [Numeral.text, Numeral.signText, Numeral.fractionText, hlit, hzero]
    · have hexponent : d.exponent.toNat = 0 := by omega
      have hscale (k : Nat) : (0 - (k : Int)).toNat = 0 := by omega
      have hzero : Digit.value [0] = 0 := rfl
      rw [hexponent, hscale]
      simp only [Numeral.fractionDigits, Option.getD_some, Digit.value_append, Digit.value_replicate_zero, hvalue,
        hzero, Nat.zero_mul, Nat.zero_add]
    · simp only [Numeral.fractionDigits, Option.getD_some, List.length_append, List.length_replicate]
      omega
  · refine ⟨⟨false, ds, none⟩, signedExponent (ds.length + d.exponent - 1), d.exponent, rfl, .inl hne, ?_, .inr ?_, ?_,
      ?_, fun hpos => Numeral.strict_of_head hne (hhead hpos) (by simp)⟩
    · rw [ht, ← htext]
      simp [Numeral.text, Numeral.signText, Numeral.fractionText]
    · congr 1
      omega
    · simp [Numeral.fractionDigits, hvalue]
    · simp [Numeral.fractionDigits]
  · have hscale : ds.length + d.exponent - 1 - ((Numeral.split ds 1).fractionDigits.length : Int) = d.exponent := by
      simp only [Numeral.split, Numeral.fractionDigits, Option.getD_some, List.length_drop]
      omega
    refine ⟨.split ds 1, signedExponent (ds.length + d.exponent - 1), ds.length + d.exponent - 1, rfl,
      .inl (Numeral.whole_split_ne_nil Nat.one_pos hne), ?_, .inr rfl, ?_, ?_,
      fun hpos => Numeral.strict_split Nat.one_pos (by omega) (hhead hpos)⟩
    · rw [ht, ← htext]
      simp [Numeral.split, Numeral.text, Numeral.signText, Numeral.fractionText]
    · rw [Numeral.digits_split, hvalue, hscale]
    · rw [hscale]

theorem readExponent?_signedExponent (e : Int) : readExponent? (signedExponent e) = some e := by
  obtain ⟨ds, hne, hds, hvalue, -⟩ := Digit.exists_map_unit_eq_ofNat e.natAbs
  have hscan : Digit.scan (Text.ofNat e.natAbs) = (ds, []) := by
    rw [hds, ← List.append_nil (ds.map Digit.unit), Digit.scan_append]
    simp [Digit.scan]
  obtain ⟨d, ds, rfl⟩ := List.exists_cons_of_ne_nil hne
  have hplus : unit '+' ≠ unit '-' := by decide
  unfold signedExponent readExponent?
  by_cases hneg : e < 0
  · simp only [hneg, if_true, true_or, hscan, hvalue]
    congr 1
    omega
  · simp only [hneg, if_false, if_true, true_or, hplus, hscan, hvalue, Bool.false_eq_true]
    congr 1
    omega

/-- The text of a decimal is a numeral that spells it, or has an exponent. -/
theorem layout_cases (d : ShortDecimal) :
    (∃ n : Numeral, n.negative = false ∧ n.WellFormed ∧ layout d = n.text ∧ n.Spells d) ∨
      ∃ (n : Numeral) (t : Text), n.negative = false ∧ n.WellFormed ∧ layout d = n.text ++ unit 'e' :: t := by
  obtain ⟨n, tail, e, h⟩ := exists_laidOut d
  rcases h.tail_cases with ⟨rfl, rfl⟩ | rfl
  · have hscale : (0 - (n.fractionDigits.length : Int)).toNat = 0 := by omega
    have hvalue := h.value
    have hplaces := h.places
    rw [hscale, Nat.pow_zero, Nat.mul_one] at hvalue
    refine .inl ⟨n, h.positive, h.wellFormed, by simpa using h.text, hvalue, ?_⟩
    omega
  · exact .inr ⟨n, _, h.positive, h.wellFormed, h.text⟩

/-! ### Doubles -/

/-- The text of a finite double other than zero is that of its shortest decimal, with its sign. -/
theorem ofFloat_cases {x : Float} {negative : Bool} {m : Nat} {e : Int}
    (hx : Binary.ofFloat x = .finite negative m e) (hm : m ≠ 0) :
    (∃ n : Numeral, n.negative = negative ∧ n.WellFormed ∧ ofFloat x = n.text ∧ n.Spells (.ofBinary m e)) ∨
      ∃ (n : Numeral) (t : Text), n.WellFormed ∧ ofFloat x = n.text ++ unit 'e' :: t := by
  have htext : ofFloat x = Numeral.signText negative ++ layout (.ofBinary m e) := by
    simp only [ofFloat, hx, ofBinary, if_neg hm]
    rfl
  rcases layout_cases (.ofBinary m e) with ⟨n, hn, hwf, hlayout, hspells⟩ | ⟨n, t, hn, hwf, hlayout⟩
  · refine .inl ⟨{ n with negative }, rfl, hwf, ?_, hspells⟩
    rw [htext, hlayout, Numeral.signText_append_text hn]
  · refine .inr ⟨{ n with negative }, t, hwf, ?_⟩
    rw [htext, hlayout, ← List.append_assoc, Numeral.signText_append_text hn]

/-- A numeral that spells the decimal of a double is read as that double. -/
theorem value_of_spells {x : Float} {negative : Bool} {m : Nat} {e : Int} (hx : Binary.ofFloat x = .finite negative m e)
    (hm : 0 < m) {n : Numeral} (hn : n.negative = negative) (hspells : n.Spells (.ofBinary m e)) : n.value = x := by
  rw [hspells.value_eq, hn, ShortDecimal.nearest_ofBinary hx hm]

/-- A finite double that is written without an exponent. -/
def Plain (x : Float) : Prop := x.isFinite = true ∧ unit 'e' ∉ ofFloat x

instance (x : Float) : Decidable (Plain x) := inferInstanceAs (Decidable (_ ∧ _))

example : Plain 0.000001 ∧ ¬ Plain 0.0000001 ∧ Plain 123456789012345680000 ∧ ¬ Plain 1000000000000000000000 := by
  decide +kernel

theorem not_plain_of_exponent {x : Float} {n : Numeral} {t : Text} (h : ofFloat x = n.text ++ unit 'e' :: t) :
    ¬ Plain x := by
  rintro ⟨-, hmem⟩
  rw [h] at hmem
  simp at hmem

/-- What is plain is written as a numeral that is read as the same number. -/
theorem exists_text_of_plain {x : Float} (h : Plain x) :
    ∃ n : Numeral, n.WellFormed ∧ ofFloat x = n.text ∧ (n.value == x) = true := by
  obtain ⟨negative, m, e, hx⟩ := (Double.isFinite_iff x).mp h.1
  by_cases hm : m = 0
  · have hzero : x.toModel.unpack = .zero (Binary.sign negative) := by
      rw [Double.unpack_eq, hx, Binary.unpacked, dif_pos hm]
    refine ⟨⟨false, [0], none⟩, by decide, ?_, ?_⟩
    · simp only [ofFloat, hx, ofBinary, if_pos hm]
      decide
    · have hvalue : Numeral.value ⟨false, [0], none⟩ = 0 := rfl
      rw [hvalue]
      exact Double.zero_beq hzero
  · rcases ofFloat_cases hx hm with ⟨n, hn, hwf, htext, hspells⟩ | ⟨n, t, -, htext⟩
    · have hvalue := value_of_spells hx (Nat.pos_of_ne_zero hm) hn hspells
      refine ⟨n, hwf, htext, ?_⟩
      rw [hvalue]
      exact Float.beq_self_iff.mpr (Double.ne_nan_of_isFinite h.1)
    · exact absurd h (not_plain_of_exponent htext)

/-- What is not plain has an exponent, or is no number. -/
theorem cases_of_not_plain {x : Float} (h : ¬ Plain x) :
    (∃ (n : Numeral) (t : Text), n.WellFormed ∧ ofFloat x = n.text ++ unit 'e' :: t) ∨
      ofFloat x = lit "NaN" ∨ ofFloat x = lit "Infinity" ∨ ofFloat x = lit "-Infinity" := by
  cases hx : Binary.ofFloat x with
  | nan =>
      refine .inr (.inl ?_)
      simp only [ofFloat, hx, ofBinary]
  | infinite negative =>
      right
      right
      simp only [ofFloat, hx, ofBinary]
      cases negative with
      | false => exact .inl rfl
      | true => exact .inr rfl
  | finite negative m e =>
      have hfinite : x.isFinite = true := (Double.isFinite_iff x).mpr ⟨negative, m, e, hx⟩
      left
      by_cases hm : m = 0
      · have htext : ofFloat x = lit "0" := by simp only [ofFloat, hx, ofBinary, if_pos hm]
        refine absurd ⟨hfinite, ?_⟩ h
        rw [htext]
        decide
      · rcases ofFloat_cases hx hm with ⟨n, -, -, htext, -⟩ | hexponent
        · refine absurd ⟨hfinite, ?_⟩ h
          rw [htext]
          exact n.not_mem_text
        · exact hexponent

end Decimal
end Pictogram
