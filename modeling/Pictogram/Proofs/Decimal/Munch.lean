import Pictogram.Decimal.Numeral

/-! # Longest numerals

Scanning takes the longest numeral that a text begins with.  After the text of a numeral it goes on
as far as the digits and the point that follow allow (`scan?_text_append_of_fraction`,
`scan?_text_append_of_whole`), and not at all where they do not (`EndsBefore.scan?_text_append`).  So
it fails only where no numeral begins (`scan?_eq_none_iff`), and it finds `n` exactly when no longer
numeral begins there (`scan?_eq_some_iff`). -/

namespace Pictogram

namespace Digit

theorem toNat_unit (d : Digit) : d.unit.toNat = 48 + d.val := by
  have := d.isLt
  simp only [unit, UInt16.toNat_ofNat']
  omega

@[simp] theorem ofUnit?_unit (d : Digit) : ofUnit? d.unit = some d := by
  have := d.isLt
  unfold ofUnit?
  rw [dif_pos (by rw [toNat_unit]; omega)]
  simp [toNat_unit]

theorem unit_ne_of_ofUnit?_eq_none {u : CodeUnit} (h : ofUnit? u = none) (d : Digit) : d.unit ≠ u := by
  rintro rfl
  rw [ofUnit?_unit] at h
  cases h

theorem scan_append (ds : List Digit) (t : Text) :
    scan (ds.map unit ++ t) = (ds ++ (scan t).1, (scan t).2) := by
  induction ds with
  | nil => rfl
  | cons d ds ih => simp [scan, ih]

theorem scan_of_ofUnit?_eq_none {u : CodeUnit} (h : ofUnit? u = none) (t : Text) :
    scan (u :: t) = ([], u :: t) := by
  unfold scan
  rw [h]

theorem length_scan_le (t : Text) : (scan t).2.length ≤ t.length := by
  have := congrArg List.length (scan_eq_append t)
  simp only [List.length_append] at this
  omega

end Digit

namespace Numeral

/-! ### Scanning the text of a numeral -/

theorem scanSign_of_ne {u : CodeUnit} {t : Text} (h : u ≠ Pictogram.unit '-') :
    scanSign (u :: t) = (false, u :: t) := by
  simp [scanSign, h]

/-- A sign is scanned in front of anything that has none of its own. -/
theorem scanSign_append (negative : Bool) {t : Text} (h : scanSign t = (false, t)) :
    scanSign (signText negative ++ t) = (negative, t) := by
  cases negative with
  | false => exact h
  | true => rfl

theorem scanSign_unsigned {n : Numeral} (wf : n.WellFormed) (t : Text) :
    scanSign (n.whole.map Digit.unit ++ fractionText n.fraction ++ t) =
      (false, n.whole.map Digit.unit ++ fractionText n.fraction ++ t) := by
  obtain ⟨negative, whole, fraction⟩ := n
  cases whole with
  | cons d whole => exact scanSign_of_ne (Digit.unit_ne_of_ofUnit?_eq_none (by decide) d)
  | nil =>
      cases fraction with
      | none => simp [WellFormed, fractionDigits] at wf
      | some ds => exact scanSign_of_ne (by decide)

/-- After a numeral with a point, scanning takes the digits that follow. -/
theorem scan?_text_append_of_fraction {n : Numeral} {ds : List Digit} (wf : n.WellFormed)
    (h : n.fraction = some ds) (t : Text) :
    scan? (n.text ++ t) =
      some ({ n with fraction := some (ds ++ (Digit.scan t).1) }, (Digit.scan t).2) := by
  have sign := scanSign_append n.negative (scanSign_unsigned wf t)
  have whole : Digit.scan (n.whole.map Digit.unit ++ fractionText n.fraction ++ t) =
      (n.whole, Pictogram.unit '.' :: (ds.map Digit.unit ++ t)) := by
    rw [List.append_assoc, Digit.scan_append, h]
    simp [fractionText, Digit.scan_of_ofUnit?_eq_none (show Digit.ofUnit? (Pictogram.unit '.') = none by decide)]
  have wf' : n.whole ≠ [] ∨ ds ≠ [] := by simpa [WellFormed, fractionDigits, h] using wf
  have point : scanFraction (!n.whole.isEmpty) (Pictogram.unit '.' :: (ds.map Digit.unit ++ t)) =
      (some (ds ++ (Digit.scan t).1), (Digit.scan t).2) := by
    simp only [scanFraction, Digit.scan_append]
    refine if_pos ⟨trivial, ?_⟩
    rcases wf' with hw | hd
    · left; simpa using hw
    · right; simp [hd]
  simp only [scan?, text, List.append_assoc] at sign whole ⊢
  simp only [sign, whole, point]
  refine if_pos ?_
  rcases wf' with hw | hd
  · exact .inl hw
  · exact .inr (by simp [fractionDigits, hd])

/-- After a numeral without a point, scanning takes the digits that follow and a fraction. -/
theorem scan?_text_append_of_whole {n : Numeral} (wf : n.WellFormed) (h : n.fraction = none) (t : Text) :
    scan? (n.text ++ t) =
      some ({ n with whole := n.whole ++ (Digit.scan t).1, fraction := (scanFraction true (Digit.scan t).2).1 },
        (scanFraction true (Digit.scan t).2).2) := by
  have sign := scanSign_append n.negative (scanSign_unsigned wf t)
  have hw : n.whole ≠ [] := by simpa [WellFormed, fractionDigits, h] using wf
  have whole : Digit.scan (n.whole.map Digit.unit ++ fractionText n.fraction ++ t) =
      (n.whole ++ (Digit.scan t).1, (Digit.scan t).2) := by
    rw [h]
    simp [fractionText, Digit.scan_append]
  have hb : (!(n.whole ++ (Digit.scan t).1).isEmpty) = true := by simp [hw]
  simp only [scan?, text, List.append_assoc] at sign whole ⊢
  simp only [sign, whole, hb]
  exact if_pos (.inl (by simp [hw]))

/-- No digit follows the numeral, and a point only if it already has one. -/
def EndsBefore (n : Numeral) (t : Text) : Prop :=
  ∀ u ∈ t.head?, Digit.ofUnit? u = none ∧ (u = Pictogram.unit '.' → n.fraction ≠ none)

/-- A numeral is scanned as it stands if it cannot go on. -/
theorem EndsBefore.scan?_text_append {n : Numeral} {t : Text} (h : n.EndsBefore t) (wf : n.WellFormed) :
    scan? (n.text ++ t) = some (n, t) := by
  have hscan : Digit.scan t = ([], t) := by
    cases t with
    | nil => rfl
    | cons u t => exact Digit.scan_of_ofUnit?_eq_none (h u rfl).1 t
  cases hfraction : n.fraction with
  | some ds =>
      rw [scan?_text_append_of_fraction wf hfraction, hscan]
      simp [← hfraction]
  | none =>
      have hpoint : scanFraction true t = (none, t) := by
        cases t with
        | nil => rfl
        | cons u t => exact if_neg fun hu => (h u rfl).2 hu.1 hfraction
      rw [scan?_text_append_of_whole wf hfraction, hscan, hpoint]
      simp [← hfraction]

theorem ofUnit?_of_isSeparator {u : CodeUnit} (h : isSeparator u = true) :
    Digit.ofUnit? u = none ∧ u ≠ Pictogram.unit '.' := by
  simp only [isSeparator, Bool.or_eq_true, decide_eq_true_eq] at h
  rcases h with (((rfl | rfl) | rfl) | rfl) | rfl
  all_goals decide

/-! ### The longest numeral -/

theorem length_scanFraction_le (b : Bool) (t : Text) : (scanFraction b t).2.length ≤ t.length := by
  have := congrArg List.length (scanFraction_eq_append b t)
  simp only [List.length_append] at this
  omega

/-- Where a numeral begins, scanning finds one that is at least as long. -/
theorem exists_scan?_text_append {m : Numeral} (wf : m.WellFormed) (t : Text) :
    ∃ n r, scan? (m.text ++ t) = some (n, r) ∧ r.length ≤ t.length := by
  cases h : m.fraction with
  | some ds => exact ⟨_, _, scan?_text_append_of_fraction wf h t, Digit.length_scan_le t⟩
  | none =>
      refine ⟨_, _, scan?_text_append_of_whole wf h t, ?_⟩
      exact Nat.le_trans (length_scanFraction_le _ _) (Digit.length_scan_le t)

@[simp] theorem scan?_text {n : Numeral} (wf : n.WellFormed) : scan? n.text = some (n, []) := by
  have e : scan? n.text = scan? (n.text ++ []) := by rw [List.append_nil]
  rw [e]
  cases h : n.fraction with
  | some ds =>
      rw [scan?_text_append_of_fraction wf h]
      simp [Digit.scan, ← h]
  | none =>
      rw [scan?_text_append_of_whole wf h]
      simp [Digit.scan, scanFraction, ← h]

theorem text_injective {m n : Numeral} (hm : m.WellFormed) (hn : n.WellFormed) (h : m.text = n.text) :
    m = n := by
  have e := scan?_text hm
  rw [h, scan?_text hn] at e
  exact (Prod.mk.inj (Option.some.inj e)).1.symm

/-- Whether `n` is the longest numeral at the front of its text followed by `rest`. -/
def Longest (n : Numeral) (rest : Text) : Prop :=
  n.WellFormed ∧ ∀ (m : Numeral) (r : Text), m.WellFormed → n.text ++ rest = m.text ++ r →
    m.text.length ≤ n.text.length

/-- Scanning fails exactly where no numeral begins. -/
theorem scan?_eq_none_iff {t : Text} :
    scan? t = none ↔ ∀ (m : Numeral) (r : Text), m.WellFormed → t ≠ m.text ++ r := by
  constructor
  · rintro h m r wf rfl
    obtain ⟨n, r', e, _⟩ := exists_scan?_text_append wf r
    rw [h] at e
    cases e
  · intro h
    cases hs : scan? t with
    | none => rfl
    | some p =>
        obtain ⟨e, wf⟩ := scan?_eq_append (n := p.1) (r := p.2) hs
        exact absurd e (h p.1 p.2 wf)

/-- Scanning finds exactly the longest numeral. -/
theorem scan?_eq_some_iff {t r : Text} {n : Numeral} :
    scan? t = some (n, r) ↔ t = n.text ++ r ∧ n.Longest r := by
  constructor
  · intro h
    obtain ⟨rfl, wf⟩ := scan?_eq_append h
    refine ⟨rfl, wf, ?_⟩
    intro m r' hm e
    obtain ⟨n', r'', hs, hle⟩ := exists_scan?_text_append hm r'
    rw [← e, h] at hs
    obtain ⟨rfl, rfl⟩ := Prod.mk.inj (Option.some.inj hs)
    have := congrArg List.length e
    simp only [List.length_append] at this
    omega
  · rintro ⟨rfl, wf, longest⟩
    obtain ⟨n', r', hs, hle⟩ := exists_scan?_text_append wf r
    obtain ⟨e, wf'⟩ := scan?_eq_append hs
    have hlen := congrArg List.length e
    have := longest n' r' wf' e
    simp only [List.length_append] at hlen
    obtain ⟨ht, rfl⟩ := List.append_inj e (by omega)
    rw [hs, text_injective wf wf' ht]

end Numeral
end Pictogram
