import Mathlib
import Pictogram.Plane
import Pictogram.Proofs.Decimal.Munch
import Pictogram.Proofs.Decimal.Nearest

/-! # Numerals as a regular language

`Numeral.pattern` is the regular expression `-?([0-9]+(\.[0-9]*)?|\.[0-9]+)`.  The texts that match it are those of the
well-formed numerals (`Numeral.mem_pattern_iff`).

`Numeral.IsValue` says of a text alone which double it stands for: the one next to the number of its digits, divided by ten
for each digit behind the point.  For the text of a numeral that is the value of the numeral (`Numeral.isValue_text_iff`).

So what is found at an offset is the longest match there, and a number attribute is a match from end to end
(`Numeral.findAt_longest_readNumber`). -/

namespace Pictogram
namespace Numeral

open RegularExpression (char)

/-! ### The pattern -/

def digitPattern : RegularExpression CodeUnit := ((lit "0123456789").map char).sum

/-- A minus sign or none; then digits, with or without a point and further digits behind it, or a point and digits. -/
def pattern : RegularExpression CodeUnit :=
  (1 + char (unit '-')) *
    (digitPattern * digitPattern.star * (1 + char (unit '.') * digitPattern.star) +
      char (unit '.') * (digitPattern * digitPattern.star))

theorem mem_sum_map_char {us t : Text} : t ∈ ((us.map char).sum).matches' ↔ ∃ u ∈ us, t = [u] := by
  induction us with
  | nil => simp
  | cons u us ih =>
      rw [List.map_cons, List.sum_cons, RegularExpression.matches'_add, Language.mem_add, ih, List.exists_mem_cons_iff]
      rfl

theorem mem_digits_iff {u : CodeUnit} : u ∈ lit "0123456789" ↔ ∃ d : Digit, u = d.unit := by
  have hall : lit "0123456789" = (List.finRange 10).map Digit.unit := by decide
  rw [hall, List.mem_map]
  simp [eq_comm]

theorem mem_digitPattern_iff {t : Text} : t ∈ digitPattern.matches' ↔ ∃ d : Digit, t = [d.unit] := by
  unfold digitPattern
  rw [mem_sum_map_char]
  simp only [mem_digits_iff]
  constructor
  · rintro ⟨u, ⟨d, rfl⟩, rfl⟩
    exact ⟨d, rfl⟩
  · rintro ⟨d, rfl⟩
    exact ⟨d.unit, ⟨d, rfl⟩, rfl⟩

theorem mem_star_digitPattern_iff {t : Text} :
    t ∈ digitPattern.star.matches' ↔ ∃ ds : List Digit, t = ds.map Digit.unit := by
  rw [RegularExpression.matches'_star, Language.mem_kstar]
  constructor
  · rintro ⟨parts, rfl, hparts⟩
    induction parts with
    | nil => exact ⟨[], rfl⟩
    | cons part parts ih =>
        obtain ⟨hpart, hrest⟩ := List.forall_mem_cons.mp hparts
        obtain ⟨d, rfl⟩ := mem_digitPattern_iff.mp hpart
        obtain ⟨ds, hds⟩ := ih hrest
        exact ⟨d :: ds, by rw [List.flatten_cons, hds]; rfl⟩
  · rintro ⟨ds, rfl⟩
    refine ⟨ds.map fun d => [d.unit], ?_, ?_⟩
    · induction ds with
      | nil => rfl
      | cons d ds ih => rw [List.map_cons, List.map_cons, List.flatten_cons, ← ih]; rfl
    · intro part hpart
      obtain ⟨d, -, rfl⟩ := List.mem_map.mp hpart
      exact mem_digitPattern_iff.mpr ⟨d, rfl⟩

/-- One digit or more. -/
theorem mem_digits_plus_iff {t : Text} :
    t ∈ (digitPattern * digitPattern.star).matches' ↔ ∃ ds : List Digit, ds ≠ [] ∧ t = ds.map Digit.unit := by
  rw [RegularExpression.matches'_mul, Language.mem_mul]
  constructor
  · rintro ⟨a, ha, b, hb, rfl⟩
    obtain ⟨d, rfl⟩ := mem_digitPattern_iff.mp ha
    obtain ⟨ds, rfl⟩ := mem_star_digitPattern_iff.mp hb
    exact ⟨d :: ds, List.cons_ne_nil d ds, rfl⟩
  · rintro ⟨_ | ⟨d, ds⟩, hne, rfl⟩
    · exact absurd rfl hne
    · exact ⟨_, mem_digitPattern_iff.mpr ⟨d, rfl⟩, _, mem_star_digitPattern_iff.mpr ⟨ds, rfl⟩, rfl⟩

theorem mem_point_mul_iff {P : RegularExpression CodeUnit} {t : Text} :
    t ∈ (char (unit '.') * P).matches' ↔ ∃ b ∈ P.matches', t = unit '.' :: b := by
  rw [RegularExpression.matches'_mul, RegularExpression.matches'_char, Language.mem_mul]
  constructor
  · rintro ⟨a, rfl, b, hb, rfl⟩
    exact ⟨b, hb, rfl⟩
  · rintro ⟨b, hb, rfl⟩
    exact ⟨_, rfl, b, hb, rfl⟩

theorem mem_sign_iff {t : Text} :
    t ∈ (1 + char (unit '-')).matches' ↔ ∃ negative, t = signText negative := by
  rw [RegularExpression.matches'_add, RegularExpression.matches'_epsilon, RegularExpression.matches'_char,
    Language.mem_add, Language.mem_one]
  constructor
  · rintro (rfl | rfl)
    · exact ⟨false, rfl⟩
    · exact ⟨true, rfl⟩
  · rintro ⟨_ | _, rfl⟩
    · exact .inl rfl
    · exact .inr rfl

theorem mem_fraction_iff {t : Text} :
    t ∈ (1 + char (unit '.') * digitPattern.star).matches' ↔ ∃ fraction, t = fractionText fraction := by
  rw [RegularExpression.matches'_add, RegularExpression.matches'_epsilon, Language.mem_add, Language.mem_one,
    mem_point_mul_iff]
  constructor
  · rintro (rfl | ⟨b, hb, rfl⟩)
    · exact ⟨none, rfl⟩
    · obtain ⟨ds, rfl⟩ := mem_star_digitPattern_iff.mp hb
      exact ⟨some ds, rfl⟩
  · rintro ⟨_ | ds, rfl⟩
    · exact .inl rfl
    · exact .inr ⟨_, mem_star_digitPattern_iff.mpr ⟨ds, rfl⟩, rfl⟩

/-- The numerals are the texts that match the pattern. -/
theorem mem_pattern_iff {t : Text} : t ∈ pattern.matches' ↔ ∃ n : Numeral, n.WellFormed ∧ t = n.text := by
  constructor
  · intro h
    obtain ⟨a, ha, b, hb, rfl⟩ := Language.mem_mul.mp h
    obtain ⟨negative, rfl⟩ := mem_sign_iff.mp ha
    rcases (Language.mem_add ..).mp hb with hb | hb
    · obtain ⟨c, hc, d, hd, rfl⟩ := Language.mem_mul.mp hb
      obtain ⟨whole, hne, rfl⟩ := mem_digits_plus_iff.mp hc
      obtain ⟨fraction, rfl⟩ := mem_fraction_iff.mp hd
      exact ⟨⟨negative, whole, fraction⟩, .inl hne, (List.append_assoc ..).symm⟩
    · obtain ⟨c, hc, rfl⟩ := mem_point_mul_iff.mp hb
      obtain ⟨ds, hne, rfl⟩ := mem_digits_plus_iff.mp hc
      exact ⟨⟨negative, [], some ds⟩, .inr hne, by simp [text, fractionText]⟩
  · rintro ⟨⟨negative, whole, fraction⟩, hwf, rfl⟩
    refine Language.mem_mul.mpr ⟨_, mem_sign_iff.mpr ⟨negative, rfl⟩, _, ?_, (List.append_assoc ..).symm⟩
    refine (Language.mem_add ..).mpr ?_
    by_cases hne : whole = []
    · subst hne
      cases fraction with
      | none => simp [WellFormed, fractionDigits] at hwf
      | some ds =>
          have hds : ds ≠ [] := hwf.resolve_left (by simp)
          exact .inr (mem_point_mul_iff.mpr ⟨_, mem_digits_plus_iff.mpr ⟨ds, hds, rfl⟩, rfl⟩)
    · exact .inl (Language.mem_mul.mpr
        ⟨_, mem_digits_plus_iff.mpr ⟨whole, hne, rfl⟩, _, mem_fraction_iff.mpr ⟨fraction, rfl⟩, rfl⟩)

/-! ### Values -/

/-- The number that the digits of a text spell, divided by ten for each unit behind the point. -/
def spelled (t : Text) : ℚ :=
  Digit.value (t.filterMap Digit.ofUnit?) / 10 ^ (t.dropWhile (· ≠ unit '.')).tail.length

/-- The double that a text stands for: the one next to the number that it spells, with its sign. -/
def IsValue (t : Text) (x : Float) : Prop :=
  Double.Rounds (t.head? == some (unit '-')) (spelled t) (Binary.ofFloat x)

theorem filterMap_map_unit (ds : List Digit) : (ds.map Digit.unit).filterMap Digit.ofUnit? = ds := by
  rw [List.filterMap_map]
  simp

theorem filterMap_text (n : Numeral) : n.text.filterMap Digit.ofUnit? = n.whole ++ n.fractionDigits := by
  have hsign : (signText n.negative).filterMap Digit.ofUnit? = [] := by
    cases n.negative <;> decide
  have hfraction : (fractionText n.fraction).filterMap Digit.ofUnit? = n.fractionDigits := by
    unfold fractionDigits
    cases n.fraction with
    | none => rfl
    | some ds =>
        rw [fractionText, List.filterMap_cons_none (by decide), filterMap_map_unit]
        rfl
  rw [text, List.filterMap_append, List.filterMap_append, hsign, filterMap_map_unit, hfraction, List.nil_append]

/-- What stands behind the point of a numeral are the digits of its fraction. -/
theorem length_tail_dropWhile_text (n : Numeral) :
    (n.text.dropWhile (· ≠ unit '.')).tail.length = n.fractionDigits.length := by
  have hfront : ∀ u ∈ signText n.negative ++ n.whole.map Digit.unit, decide (u ≠ unit '.') = true := by
    intro u hu
    rw [decide_eq_true_iff]
    rcases List.mem_append.mp hu with hu | hu
    · cases hnegative : n.negative <;> rw [hnegative] at hu
      · cases hu
      · rw [List.mem_singleton.mp hu]
        decide
    · obtain ⟨d, -, rfl⟩ := List.mem_map.mp hu
      exact Digit.unit_ne_of_ofUnit?_eq_none (by decide) d
  rw [text, List.dropWhile_append_of_pos hfront, fractionDigits]
  cases n.fraction with
  | none => rfl
  | some ds =>
      rw [fractionText, List.dropWhile_cons_of_neg (by simp)]
      simp

theorem spelled_text (n : Numeral) : spelled n.text = n.magnitude := by
  rw [spelled, filterMap_text, length_tail_dropWhile_text, magnitude]

theorem head?_text {n : Numeral} (wf : n.WellFormed) : (n.text.head? == some (unit '-')) = n.negative := by
  have hsign := scanSign_append n.negative (scanSign_unsigned wf [])
  rw [List.append_nil, ← List.append_assoc] at hsign
  change scanSign n.text = _ at hsign
  generalize n.text = t at hsign
  cases t with
  | nil => exact (Prod.mk.inj hsign).1
  | cons u t =>
      rw [scanSign] at hsign
      by_cases hu : u = unit '-'
      · rw [if_pos hu] at hsign
        rw [← (Prod.mk.inj hsign).1, hu]
        exact beq_self_eq_true _
      · rw [if_neg hu] at hsign
        rw [← (Prod.mk.inj hsign).1]
        simpa using hu

/-- The text of a numeral stands for its value and for nothing else. -/
theorem isValue_text_iff {n : Numeral} (wf : n.WellFormed) {x : Float} : IsValue n.text x ↔ x = n.value := by
  rw [IsValue, head?_text wf, spelled_text, rounds_iff_eq_value]

/-! ### The longest match -/

/-- `p` is the longest text in front of `t` that matches the pattern. -/
structure IsLongestMatch (t p : Text) : Prop where
  front : p <+: t
  mem : p ∈ pattern.matches'
  longest : ∀ p', p' <+: t → p' ∈ pattern.matches' → p'.length ≤ p.length

variable {t r : Text} {n : Numeral}

theorem isLongestMatch_of_scan? (h : scan? t = some (n, r)) : IsLongestMatch t n.text := by
  obtain ⟨rfl, wf, hlongest⟩ := scan?_eq_some_iff.mp h
  refine ⟨List.prefix_append _ _, mem_pattern_iff.mpr ⟨n, wf, rfl⟩, ?_⟩
  rintro p' ⟨r', hr'⟩ hp'
  obtain ⟨m, hm, rfl⟩ := mem_pattern_iff.mp hp'
  exact hlongest m r' hm hr'.symm

theorem ne_nil_of_mem_pattern {p : Text} (h : p ∈ pattern.matches') : p ≠ [] := by
  obtain ⟨n, wf, rfl⟩ := mem_pattern_iff.mp h
  exact text_ne_nil wf

/-- Scanning finds something exactly where there is a match. -/
theorem exists_match_iff : (∃ p, p ≠ [] ∧ p <+: t ∧ p ∈ pattern.matches') ↔ scan? t ≠ none := by
  constructor
  · rintro ⟨p, -, ⟨r, rfl⟩, hp⟩ hnone
    obtain ⟨m, hm, rfl⟩ := mem_pattern_iff.mp hp
    exact scan?_eq_none_iff.mp hnone m r hm rfl
  · intro hsome
    obtain ⟨⟨n, r⟩, h⟩ := Option.ne_none_iff_exists'.mp hsome
    have hlongest := isLongestMatch_of_scan? h
    exact ⟨n.text, ne_nil_of_mem_pattern hlongest.mem, hlongest.front, hlongest.mem⟩

theorem findAt_of_neg {offset : Int} (h : offset < 0) : findAt t offset = ⟨0, 0, false⟩ := by
  rw [findAt, scanAt?, if_pos h]

theorem findAt_of_scan?_eq_none {offset : Int} (h : scan? (t.drop offset.toNat) = none) :
    findAt t offset = ⟨0, 0, false⟩ := by
  rw [findAt, scanAt?, h, ite_self]

theorem findAt_of_scan? {offset : Int} (hoffset : 0 ≤ offset) (h : scan? (t.drop offset.toNat) = some (n, r)) :
    findAt t offset = ⟨n.text.length, n.value, true⟩ := by
  rw [findAt, scanAt?, if_neg (not_lt.mpr hoffset), h]

/-- What is found at an offset is the numeral that scanning takes there. -/
theorem findAt_cases (t : Text) (offset : Int) :
    findAt t offset = ⟨0, 0, false⟩ ∧ (0 ≤ offset → scan? (t.drop offset.toNat) = none) ∨
      ∃ n r, findAt t offset = ⟨n.text.length, n.value, true⟩ ∧ 0 ≤ offset ∧
        scan? (t.drop offset.toNat) = some (n, r) := by
  rcases lt_or_ge offset 0 with hneg | hoffset
  · exact .inl ⟨findAt_of_neg hneg, fun hoffset => absurd hneg (not_lt.mpr hoffset)⟩
  · cases h : scan? (t.drop offset.toNat) with
    | none => exact .inl ⟨findAt_of_scan?_eq_none h, fun _ => rfl⟩
    | some found => exact .inr ⟨found.1, found.2, findAt_of_scan? hoffset h, hoffset, rfl⟩

theorem ok_findAt_iff (t : Text) (offset : Int) :
    (findAt t offset).ok = true ↔ 0 ≤ offset ∧ ∃ p, p ≠ [] ∧ p <+: t.drop offset.toNat ∧ p ∈ pattern.matches' := by
  rw [exists_match_iff]
  rcases findAt_cases t offset with ⟨hfound, hnone⟩ | ⟨n, r, hfound, hoffset, hsome⟩
  · rw [hfound]
    exact ⟨fun h => (by cases h), fun h => absurd (hnone h.1) h.2⟩
  · rw [hfound, hsome]
    exact ⟨fun _ => ⟨hoffset, Option.some_ne_none _⟩, fun _ => rfl⟩

/-- A numeral that is found lies within the text. -/
theorem add_length_le_of_front {offset : Int} (hoffset : 0 ≤ offset) {p : Text} (hp : p ≠ [])
    (h : p <+: t.drop offset.toNat) : offset + p.length ≤ t.length := by
  have hle := h.length_le
  have hpos := List.length_pos_iff.mpr hp
  rw [List.length_drop] at hle
  omega

end Numeral

/-! ### Number attributes -/

namespace Text

theorem trimEnd_eq_nil_iff {t : Text} : t.trimEnd = [] ↔ ∀ u ∈ t, u.isBlank = true := by
  rw [trimEnd, List.reverse_eq_nil_iff, List.dropWhile_eq_nil_iff]
  simp

/-- Only blanks are trimmed away whole. -/
theorem trim_eq_nil_iff {t : Text} : t.trim = [] ↔ ∀ u ∈ t, u.isBlank = true := by
  rw [trim, trimEnd_eq_nil_iff, trimStart]
  constructor
  · intro h
    cases hrest : t.dropWhile CodeUnit.isBlank with
    | nil => exact List.dropWhile_eq_nil_iff.mp hrest
    | cons u rest =>
        have hblank : u.isBlank = true := h u (by rw [hrest]; exact List.mem_cons_self)
        have hfirst := List.head_dropWhile_not CodeUnit.isBlank (l := t) (by rw [hrest]; exact List.cons_ne_nil u rest)
        simp [hrest, hblank] at hfirst
  · intro h u hu
    exact h u (List.dropWhile_sublist _ |>.mem hu)

end Text

open Numeral (pattern IsValue mem_pattern_iff isValue_text_iff)

theorem readNumber_of_text {key v : Text} {n : Numeral} (wf : n.WellFormed) (h : v.trim = n.text) :
    readNumber key (some v) = .ok n.value := by
  simp [readNumber, h, Numeral.text_ne_nil wf, Numeral.scan?_text wf]

theorem readNumber_of_notMem {key v : Text} (hblank : v.trim ≠ []) (h : v.trim ∉ pattern.matches') :
    readNumber key (some v) = .error (.invalidNumber key v) := by
  unfold readNumber
  simp only [if_neg hblank]
  split
  · next n hscan =>
    obtain ⟨htext, wf⟩ := Numeral.scan?_eq_append hscan
    exact absurd (mem_pattern_iff.mpr ⟨n, wf, by rw [htext, List.append_nil]⟩) h
  · rfl

namespace Numeral

/-- **Scanning takes the longest numeral, and a number attribute is one numeral.**  At an offset of a text something is
found exactly if the offset is not negative and some text that is not empty and matches the pattern begins there.  Then the
longest such text is found; it has a unit at least, ends within the text, and stands for the value found and for no
other.  Otherwise the length is zero.  A number attribute that is missing or blank is zero.  If it matches the pattern from
end to end, blanks around it aside, it is the number that it stands for.  Any other attribute is an invalid number. -/
theorem findAt_longest_readNumber :
    (∀ (t : Text) (offset : Int),
      ((findAt t offset).ok = true ↔
        0 ≤ offset ∧ ∃ p, p ≠ [] ∧ p <+: t.drop offset.toNat ∧ p ∈ pattern.matches') ∧
      ((findAt t offset).ok = true →
        ∃ p, IsLongestMatch (t.drop offset.toNat) p ∧ (findAt t offset).length = p.length ∧
          1 ≤ (findAt t offset).length ∧ offset + (findAt t offset).length ≤ t.length ∧
          ∀ x, IsValue p x ↔ x = (findAt t offset).value) ∧
      ((findAt t offset).ok = false → (findAt t offset).length = 0)) ∧
    ∀ key : Text, readNumber key none = .ok 0 ∧
      ∀ v : Text,
        ((∀ u ∈ v, u.isBlank = true) → readNumber key (some v) = .ok 0) ∧
        (v.trim ∈ pattern.matches' → ∃ x, readNumber key (some v) = .ok x ∧ ∀ y, IsValue v.trim y ↔ y = x) ∧
        ((∃ u ∈ v, u.isBlank = false) → v.trim ∉ pattern.matches' →
          readNumber key (some v) = .error (.invalidNumber key v) ∧
            (Fault.invalidNumber key v).code = .invalidNumber) := by
  refine ⟨fun t offset => ⟨ok_findAt_iff t offset, ?_, ?_⟩, fun key => ⟨rfl, fun v => ⟨?_, ?_, ?_⟩⟩⟩
  · intro hok
    rcases findAt_cases t offset with ⟨hfound, -⟩ | ⟨n, r, hfound, hoffset, hscan⟩
    · rw [hfound] at hok
      cases hok
    · have hlongest := isLongestMatch_of_scan? hscan
      have hne := ne_nil_of_mem_pattern hlongest.mem
      obtain ⟨-, wf⟩ := scan?_eq_append hscan
      rw [hfound]
      exact ⟨n.text, hlongest, rfl, List.length_pos_iff.mpr hne, add_length_le_of_front hoffset hne hlongest.front,
        fun x => isValue_text_iff wf⟩
  · intro hok
    rcases findAt_cases t offset with ⟨hfound, -⟩ | ⟨n, r, hfound, -⟩
    · rw [hfound]
    · rw [hfound] at hok
      cases hok
  · intro hblank
    exact if_pos (Text.trim_eq_nil_iff.mpr hblank)
  · intro hmem
    obtain ⟨n, wf, htext⟩ := mem_pattern_iff.mp hmem
    refine ⟨n.value, readNumber_of_text wf htext, fun y => ?_⟩
    rw [htext]
    exact isValue_text_iff wf
  · rintro ⟨u, hu, hblank⟩ hmem
    refine ⟨readNumber_of_notMem (fun htrim => ?_) hmem, rfl⟩
    have hu := Text.trim_eq_nil_iff.mp htrim u hu
    rw [hblank] at hu
    cases hu

/-- A numeral with a sign and a point at its ends and a second point behind it.  The attributes are blank, a numeral
between blanks, and a numeral with a unit name behind it. -/
theorem findAt_longest_signedPoint :
    findAt (lit "M-1..5") 1 = ⟨3, -1, true⟩ ∧ IsLongestMatch (lit "-1..5") (lit "-1.") ∧ IsValue (lit "-1.") (-1) ∧
      (findAt (lit "M-1..5") (-1)).length = 0 ∧
      readNumber (lit "x") (some (lit " \t")) = .ok 0 ∧
      (∃ x, readNumber (lit "x") (some (lit " -.5\n")) = .ok x ∧ IsValue (lit "-.5") x) ∧
      readNumber (lit "x") (some (lit "10px")) = .error (.invalidNumber (lit "x") (lit "10px")) := by
  obtain ⟨hscan, hread⟩ := findAt_longest_readNumber
  obtain ⟨-, hattribute⟩ := hread (lit "x")
  have hfound : findAt (lit "M-1..5") 1 = ⟨3, -1, true⟩ := by decide +kernel
  obtain ⟨p, hlongest, hlength, -, -, hvalue⟩ := (hscan (lit "M-1..5") 1).2.1 (by rw [hfound])
  rw [hfound] at hlength hvalue
  obtain rfl : p = lit "-1." := by
    rw [List.prefix_iff_eq_take.mp hlongest.front, ← hlength]
    decide
  refine ⟨hfound, hlongest, (hvalue (-1)).mpr rfl, (hscan (lit "M-1..5") (-1)).2.2 (by decide +kernel),
    (hattribute (lit " \t")).1 (List.all_eq_true.mp (by decide)), ?_, ?_⟩
  · have htrim : (lit " -.5\n").trim = lit "-.5" := by decide +kernel
    obtain ⟨x, hx, hvalue⟩ := (hattribute (lit " -.5\n")).2.1 (by decide +kernel)
    rw [htrim] at hvalue
    exact ⟨x, hx, (hvalue x).mpr rfl⟩
  · exact ((hattribute (lit "10px")).2.2 ⟨unit '1', by decide, by decide⟩ (by decide +kernel)).1

end Numeral
end Pictogram
