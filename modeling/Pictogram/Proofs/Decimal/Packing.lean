import Mathlib.Data.List.Chain
import Pictogram.Proofs.Path.Grammar

/-! # Numerals in a row

Numerals are written one after the other, each behind a run of separators.  The run may be empty where the next
numeral cannot be taken for a part of the one before: it begins with a minus sign, or with a point when the one before
already has its point (`Spaced.Follows`).  Such a row is read back numeral for numeral, whatever comes behind it that
begins with a unit of no row (`values_row`). -/

namespace Pictogram
namespace Numeral

open PathData (list_of_scan?_eq_none list_of_scan?_eq_some not_isSeparator_of_text)

/-- A numeral and the separators in front of it. -/
structure Spaced where
  gap : Text
  numeral : Numeral
  all_isSeparator : gap.all isSeparator = true := by decide
  wellFormed : numeral.WellFormed := by decide

namespace Spaced

def text (s : Spaced) : Text := s.gap ++ s.numeral.text

/-- The numeral of `s` is kept apart from the one before by a separator, or by its own first unit. -/
def Follows (before s : Spaced) : Prop :=
  s.gap ≠ [] ∨ s.numeral.text.head? = some (unit '-') ∨
    s.numeral.text.head? = some (unit '.') ∧ unit '.' ∈ before.numeral.text

instance (before s : Spaced) : Decidable (Follows before s) := inferInstanceAs (Decidable (_ ∨ _ ∨ _ ∧ _))

end Spaced

/-- A unit that stands in no row of numerals. -/
def IsAlien (u : CodeUnit) : Prop :=
  Digit.ofUnit? u = none ∧ u ≠ unit '.' ∧ u ≠ unit '-' ∧ isSeparator u = false

instance (u : CodeUnit) : Decidable (IsAlien u) := inferInstanceAs (Decidable (_ ∧ _ ∧ _ ∧ _))

/-! ### Where a numeral ends -/

variable {n : Numeral} {gap rest : Text} {u : CodeUnit}

theorem fraction_ne_none_of_mem (h : unit '.' ∈ n.text) : n.fraction ≠ none := by
  intro hnone
  rw [text, hnone, fractionText, List.append_nil, List.mem_append] at h
  rcases h with h | h
  · unfold signText at h
    split at h
    · exact absurd (List.mem_singleton.mp h) (by decide)
    · cases h
  · obtain ⟨d, -, hd⟩ := List.mem_map.mp h
    exact Digit.unit_ne_of_ofUnit?_eq_none (by decide) d hd

/-- A separator ends a numeral. -/
theorem endsBefore_append (hgap : ∀ u ∈ gap, isSeparator u = true) (hrest : gap = [] → n.EndsBefore rest) :
    n.EndsBefore (gap ++ rest) := by
  cases gap with
  | nil => exact hrest rfl
  | cons v gap =>
      intro u hu
      obtain rfl : v = u := Option.some.inj hu
      obtain ⟨hdigit, hpoint⟩ := ofUnit?_of_isSeparator (hgap v List.mem_cons_self)
      exact ⟨hdigit, fun hu => absurd hu hpoint⟩

theorem endsBefore_of_isAlien (h : ∀ u ∈ rest.head?, IsAlien u) : n.EndsBefore rest := by
  intro u hu
  obtain ⟨hdigit, hpoint, -⟩ := h u hu
  exact ⟨hdigit, fun hu => absurd hu hpoint⟩

/-- A numeral ends in front of one that follows it. -/
theorem Spaced.Follows.endsBefore {before s : Spaced} (h : before.Follows s) (rest : Text) :
    before.numeral.EndsBefore (s.text ++ rest) := by
  rw [Spaced.text, List.append_assoc]
  refine endsBefore_append (List.all_eq_true.mp s.all_isSeparator) ?_
  intro hgap u hu
  have hhead : s.numeral.text.head? = some u := by
    rwa [List.head?_append_of_ne_nil _ (text_ne_nil s.wellFormed)] at hu
  rcases h with hgap' | hminus | ⟨hpoint, hmem⟩
  · exact absurd hgap hgap'
  · obtain rfl := Option.some.inj (hminus.symm.trans hhead)
    exact ⟨by decide, fun h => absurd h (by decide)⟩
  · obtain rfl := Option.some.inj (hpoint.symm.trans hhead)
    exact ⟨by decide, fun _ => fraction_ne_none_of_mem hmem⟩

/-! ### Reading a row -/

theorem skipSeparators_append (hgap : ∀ u ∈ gap, isSeparator u = true)
    (hrest : ∀ u ∈ rest.head?, isSeparator u = false) : skipSeparators (gap ++ rest) = rest := by
  rw [skipSeparators, List.dropWhile_append_of_pos hgap]
  cases rest with
  | nil => rfl
  | cons u rest => exact List.dropWhile_cons_of_neg (by simp [hrest u rfl])

/-- No numeral begins with a unit that stands in none. -/
theorem scan?_eq_none_of_isAlien (h : ∀ u ∈ rest.head?, IsAlien u) : scan? rest = none := by
  cases rest with
  | nil => rfl
  | cons u rest =>
      obtain ⟨hdigit, hpoint, hminus, -⟩ := h u rfl
      have hfraction : scanFraction false (u :: rest) = (none, u :: rest) := if_neg fun hu => hpoint hu.1
      simp only [scan?, scanSign_of_ne hminus, Digit.scan_of_ofUnit?_eq_none hdigit]
      simp [hfraction, WellFormed, fractionDigits]

theorem list_of_isAlien {trailing residue : Text} (htrailing : ∀ u ∈ trailing, isSeparator u = true)
    (hresidue : ∀ u ∈ residue.head?, IsAlien u) : list (trailing ++ residue) = ([], residue) := by
  have hskip : skipSeparators (trailing ++ residue) = residue :=
    skipSeparators_append htrailing fun u hu => (hresidue u hu).2.2.2
  rw [list_of_scan?_eq_none (by rw [hskip]; exact scan?_eq_none_of_isAlien hresidue), hskip]

/-- One numeral is taken off a row if it ends where the rest begins. -/
theorem list_spaced {s : Spaced} (hends : s.numeral.EndsBefore rest) :
    list (s.text ++ rest) = (s.numeral :: (list rest).1, (list rest).2) := by
  have hskip : skipSeparators (s.text ++ rest) = s.numeral.text ++ rest := by
    rw [Spaced.text, List.append_assoc]
    apply skipSeparators_append (List.all_eq_true.mp s.all_isSeparator)
    intro u hu
    obtain ⟨back, hback⟩ := List.head?_eq_some_iff.mp hu
    exact not_isSeparator_of_text s.wellFormed hback
  exact list_of_scan?_eq_some (by rw [hskip]; exact hends.scan?_text_append s.wellFormed)

/-- A row is read back, up to what is no part of it. -/
theorem list_row {row : List Spaced} {trailing residue : Text} (hrow : row.IsChain Spaced.Follows)
    (htrailing : ∀ u ∈ trailing, isSeparator u = true) (hresidue : ∀ u ∈ residue.head?, IsAlien u) :
    list (row.flatMap Spaced.text ++ (trailing ++ residue)) = (row.map Spaced.numeral, residue) := by
  induction row with
  | nil => exact list_of_isAlien htrailing hresidue
  | cons s row ih =>
      obtain ⟨hnext, hrow⟩ := List.isChain_cons.mp hrow
      have hends : s.numeral.EndsBefore (row.flatMap Spaced.text ++ (trailing ++ residue)) := by
        cases row with
        | nil =>
            rw [List.flatMap_nil, List.nil_append]
            exact endsBefore_append htrailing fun _ => endsBefore_of_isAlien hresidue
        | cons s' row =>
            rw [List.flatMap_cons, List.append_assoc]
            exact Spaced.Follows.endsBefore (hnext s' rfl) _
      rw [List.flatMap_cons, List.append_assoc, list_spaced hends, ih hrow]
      rfl

/-- **Number lists are split where the numerals are.**  Write numerals one after the other, with separators in front
of each and behind the last.  Between two of them there need be no separator if the second begins with a minus sign, or
with a point while the first holds a point.  Then the values read are those of the numerals in order, also with a text
behind them that begins with no digit, point, minus sign or separator, and reading stops in front of that text. -/
theorem values_row (row : List Spaced) (hrow : row.IsChain Spaced.Follows) (trailing : Text)
    (htrailing : ∀ u ∈ trailing, isSeparator u = true) :
    values (row.flatMap Spaced.text ++ trailing) = row.map (·.numeral.value) ∧
      ∀ residue : Text, (∀ u ∈ residue.head?, IsAlien u) →
        values (row.flatMap Spaced.text ++ (trailing ++ residue)) = row.map (·.numeral.value) ∧
          (list (row.flatMap Spaced.text ++ (trailing ++ residue))).2 = residue := by
  have hread (residue : Text) (hresidue : ∀ u ∈ residue.head?, IsAlien u) :
      values (row.flatMap Spaced.text ++ (trailing ++ residue)) = row.map (·.numeral.value) ∧
        (list (row.flatMap Spaced.text ++ (trailing ++ residue))).2 = residue := by
    rw [values, list_row hrow htrailing hresidue, List.map_map]
    exact ⟨rfl, rfl⟩
  refine ⟨?_, hread⟩
  have hall := (hread [] (by simp)).1
  rwa [List.append_nil] at hall

/-- Packed numerals, of which only the first and the fourth have a separator in front. -/
theorem values_packedRow :
    let row : List Spaced :=
      [{ gap := lit ",", numeral := ⟨false, [1], none⟩ }, { gap := [], numeral := ⟨true, [2], some [5]⟩ },
        { gap := [], numeral := ⟨false, [], some [5]⟩ }, { gap := lit " ", numeral := ⟨false, [1], some []⟩ },
        { gap := [], numeral := ⟨false, [], some [5]⟩ }]
    row.flatMap Spaced.text = lit ",1-2.5.5 1..5" ∧ row.IsChain Spaced.Follows ∧
      values (lit ",1-2.5.5 1..5\n") = [1, -2.5, 0.5, 1, 0.5] ∧
      values (lit ",1-2.5.5 1..5\npx 7") = [1, -2.5, 0.5, 1, 0.5] := by
  intro row
  have hrow : row.IsChain Spaced.Follows := by decide +kernel
  obtain ⟨hvalues, hresidue⟩ := values_row row hrow (lit "\n") (List.all_eq_true.mp (by decide))
  have halien : ∀ u ∈ (lit "px 7").head?, IsAlien u := by
    rintro u ⟨⟩
    decide
  have hnumbers : row.map (·.numeral.value) = [1, -2.5, 0.5, 1, 0.5] := by decide +kernel
  rw [hnumbers] at hvalues hresidue
  exact ⟨by decide +kernel, hrow, hvalues, (hresidue (lit "px 7") halien).1⟩

end Numeral
end Pictogram
