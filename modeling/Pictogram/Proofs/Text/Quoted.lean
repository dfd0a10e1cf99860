import Pictogram.Text.Quoted

/-! # Spellings in quoted text

In quoted text a unit stands for itself, has a short escape or is written by its number.  `Text.Escaped`
says so unit by unit, and escaping is one way to spell a text (`escaped_escape`). -/

namespace Pictogram
namespace Text

/-- A text and a way to write it between double quotes. -/
inductive Escaped : Text → Text → Prop where
  | nil : Escaped [] []
  | plain {u : CodeUnit} {t w : Text} (control : ¬ u < 0x20) (quote : u ≠ unit '"') (backslash : u ≠ unit '\\')
      (rest : Escaped t w) : Escaped (u :: t) (u :: w)
  | short {u e : CodeUnit} {t w : Text} (escape : shortEscape? u = some e) (rest : Escaped t w) :
      Escaped (u :: t) (unit '\\' :: e :: w)
  | byNumber (u : CodeUnit) {t w : Text} (rest : Escaped t w) : Escaped (u :: t) (hexEscape u ++ w)

theorem Escaped.escapeUnit_append (u : CodeUnit) {t w : Text} (h : Escaped t w) :
    Escaped (u :: t) (escapeUnit u ++ w) := by
  unfold escapeUnit
  cases hu : shortEscape? u with
  | some e => exact .short hu h
  | none =>
      by_cases hraw : u < 0x20 ∨ u.isHighSurrogate ∨ u.isLowSurrogate
      · simp only [if_pos hraw]
        exact .byNumber u h
      · have hne {v e : CodeUnit} (hv : shortEscape? v = some e) : u ≠ v := by
          rintro rfl
          rw [hu] at hv
          cases hv
        simp only [if_neg hraw]
        exact .plain (fun hcontrol => hraw (.inl hcontrol)) (hne rfl) (hne rfl) h

theorem escaped_escape (t : Text) : Escaped t (escape t) := by
  fun_induction escape t with
  | case1 => exact .nil
  | case2 u =>
      have h := Escaped.nil.escapeUnit_append u
      rwa [List.append_nil] at h
  | case3 u v t h ih =>
      obtain ⟨hu, hv⟩ := Bool.and_eq_true_iff.mp h
      have hplain {w : CodeUnit} (hw : w.isHighSurrogate ∨ w.isLowSurrogate) :
          ¬ w < 0x20 ∧ w ≠ unit '"' ∧ w ≠ unit '\\' := by
        refine ⟨fun hlow => ?_, ?_, ?_⟩
        · simp only [CodeUnit.isHighSurrogate, CodeUnit.isLowSurrogate, Bool.and_eq_true, decide_eq_true_eq,
            UInt16.le_iff_toNat_le, UInt16.lt_iff_toNat_lt, UInt16.reduceToNat] at hw hlow
          omega
        all_goals
          rintro rfl
          revert hw
          decide
      obtain ⟨hcontrol, hquote, hbackslash⟩ := hplain (.inl hu)
      obtain ⟨hcontrol', hquote', hbackslash'⟩ := hplain (.inr hv)
      exact .plain hcontrol hquote hbackslash (.plain hcontrol' hquote' hbackslash' ih)
  | case4 u v t h ih => exact ih.escapeUnit_append u

end Text
end Pictogram
