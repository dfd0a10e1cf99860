import Pictogram.Plane
import Pictogram.Proofs.Path.Grammar

/-! # Transforms and view boxes

A matrix and a view box are lists of numerals.  Such a list is read as far as it goes: the numerals that a
text begins with, each as long as possible and with separators around them (`Numeral.Begins`).  What comes
behind them, from the first unit that begins no numeral, is ignored.

So a transform is read when what stands between `matrix(` and `)` begins with exactly six numerals, and a view
box when the text begins with exactly four (`numerals_of_transform_and_viewBox`).  Neither need consist of
them (`read_trailing_units`). -/

namespace Pictogram

/-! ### The numerals of a text -/

namespace Numeral

open PathData

/-- The text holds the numerals `ns`, with separators around them, and nothing else. -/
def Consists (t : Text) (ns : List Numeral) : Prop := Lexes t (ns.map .numeral)

/-- The text begins with the numerals `ns`, with separators around them, and what follows begins no further
numeral. -/
def Begins (t : Text) (ns : List Numeral) : Prop :=
  ∃ ls, Lexes t (ns.map .numeral ++ ls) ∧ ∀ n, ls.head? ≠ some (.numeral n)

/-- Lexemes are numerals up to a first one that is none. -/
theorem exists_map_numeral_append (ls : List PathLexeme) :
    ∃ (ns : List Numeral) (ls' : List PathLexeme), ls = ns.map .numeral ++ ls' ∧
      ∀ n, ls'.head? ≠ some (.numeral n) := by
  induction ls with
  | nil => exact ⟨[], [], rfl, by simp⟩
  | cons l ls ih =>
      cases l with
      | numeral n =>
          obtain ⟨ns, ls', rfl, hls'⟩ := ih
          exact ⟨n :: ns, ls', rfl, hls'⟩
      | unit u => exact ⟨[], .unit u :: ls, rfl, by simp⟩

/-- The numerals that a text begins with are those that are read of it. -/
theorem begins_iff {t : Text} {ns : List Numeral} : Begins t ns ↔ (list t).1 = ns := by
  constructor
  · rintro ⟨ls, hlexes, hls⟩
    exact (list_of_lexes hlexes hls).1
  · rintro rfl
    obtain ⟨ls, hlexes, -⟩ := existsUnique_lexes t
    obtain ⟨ns, ls', rfl, hls'⟩ := exists_map_numeral_append ls
    rw [(list_of_lexes hlexes hls').1]
    exact ⟨ls', hlexes, hls'⟩

theorem values_of_begins {t : Text} {ns : List Numeral} (h : Begins t ns) : values t = ns.map value := by
  rw [values, begins_iff.mp h]

theorem skipSeparators_of_lexes {t : Text} (h : Lexes t []) : skipSeparators t = [] := by
  generalize hls : ([] : List PathLexeme) = ls at h
  induction h with
  | nil => rfl
  | separator hu _ ih =>
      unfold skipSeparators at ih ⊢
      rw [List.dropWhile_cons_of_pos hu, ih hls]
  | numeral | unit => cases hls

/-- Reading stops at a unit that is no separator, or at the end. -/
theorem skipSeparators_list (t : Text) : skipSeparators (list t).2 = (list t).2 := by
  fun_induction list t with
  | case1 t =>
      dsimp only
      cases ht : skipSeparators t with
      | nil => rfl
      | cons u rest => exact List.dropWhile_cons_of_neg (not_isSeparator_of_skipSeparators ht)
  | case2 t n rest _ _ ns rest' e ih =>
      rw [e] at ih
      exact ih

/-- Of a text that consists of numerals, nothing is left. -/
theorem rest_of_consists {t : Text} {ns : List Numeral} (h : Consists t ns) : (list t).2 = [] := by
  have hlexes : Lexes t (ns.map .numeral ++ []) := by
    rw [List.append_nil]
    exact h
  obtain ⟨-, hrest⟩ := list_of_lexes hlexes (by simp)
  rw [← skipSeparators_list]
  exact skipSeparators_of_lexes hrest

end Numeral

/-! ### Transforms -/

namespace Affine

theorem matrixBody?_eq_some_iff {value content : Text} :
    matrixBody? value = some content ↔ value.trim = lit "matrix(" ++ (content ++ lit ")") := by
  unfold matrixBody?
  split
  · next hnone =>
    refine ⟨fun h => (by cases h), fun h => ?_⟩
    rw [Text.stripFront?_eq_some_iff.mpr h] at hnone
    cases hnone
  · next body hbody =>
    rw [Text.stripFront?_eq_some_iff.mp hbody, List.append_cancel_left_eq]
    constructor
    · intro h
      split at h
      · next hlast =>
        cases h
        obtain ⟨content, rfl⟩ := List.getLast?_eq_some_iff.mp hlast
        rw [List.dropLast_concat]
        rfl
      · cases h
    · rintro rfl
      rw [if_pos (by simp [show lit ")" = [unit ')'] from rfl])]
      simp [show lit ")" = [unit ')'] from rfl]

theorem read_of_not_form {value : Text} (h : ¬ ∃ content, value.trim = lit "matrix(" ++ (content ++ lit ")")) :
    read value = .error (.unsupportedTransform value) := by
  have hnone : matrixBody? value = none := by
    cases hbody : matrixBody? value with
    | none => rfl
    | some content => exact absurd ⟨content, matrixBody?_eq_some_iff.mp hbody⟩ h
  simp only [read, hnone]

theorem read_eq_ok_iff {value content : Text} (h : value.trim = lit "matrix(" ++ (content ++ lit ")")) {t : Affine} :
    read value = .ok t ↔
      ∃ ns, Numeral.Begins content ns ∧ ns.map Numeral.value = [t.a, t.b, t.c, t.d, t.e, t.f] := by
  simp only [read, matrixBody?_eq_some_iff.mpr h]
  constructor
  · intro ht
    split at ht
    · next hvalues =>
      cases ht
      exact ⟨_, Numeral.begins_iff.mpr rfl, hvalues⟩
    · cases ht
  · rintro ⟨ns, hns, hmap⟩
    rw [Numeral.values_of_begins hns, hmap]

theorem read_of_length_ne {value content : Text} {ns : List Numeral}
    (h : value.trim = lit "matrix(" ++ (content ++ lit ")")) (hns : Numeral.Begins content ns)
    (hlength : ns.length ≠ 6) : read value = .error (.malformedMatrix value) := by
  simp only [read, matrixBody?_eq_some_iff.mpr h, Numeral.values_of_begins hns]
  split
  · next hmap => exact absurd (by simpa using congrArg List.length hmap) hlength
  · rfl

end Affine

/-! ### View boxes -/

namespace ViewBox

theorem read_eq_ok_iff {value : Text} {box : ViewBox} :
    ViewBox.read value = .ok box ↔
      ∃ ns, Numeral.Begins value ns ∧ ns.map Numeral.value = [box.min.x, box.min.y, box.max.x, box.max.y] := by
  unfold ViewBox.read
  constructor
  · intro hbox
    split at hbox
    · next hvalues =>
      cases hbox
      exact ⟨_, Numeral.begins_iff.mpr rfl, hvalues⟩
    · cases hbox
  · rintro ⟨ns, hns, hmap⟩
    rw [Numeral.values_of_begins hns, hmap]

theorem read_of_length_ne {value : Text} {ns : List Numeral} (hns : Numeral.Begins value ns)
    (hlength : ns.length ≠ 4) : ViewBox.read value = .error (.invalidViewBox value) := by
  simp only [ViewBox.read, Numeral.values_of_begins hns]
  split
  · next hmap => exact absurd (by simpa using congrArg List.length hmap) hlength
  · rfl

theorem readOptional_eq_ok_iff {value : Text} {box : Option ViewBox} :
    readOptional (some value) = .ok box ↔ ∃ b, box = some b ∧ ViewBox.read value = .ok b := by
  rw [readOptional]
  cases ViewBox.read value with
  | error f => simp [Except.map]
  | ok b => simp [Except.map, eq_comm]

end ViewBox

/-- **Transforms and view boxes go by the numerals they begin with.**  A transform that does not begin with
`matrix(` and end with `)`, blanks aside, is not supported.  If there is no other `)`, it is read exactly when
what stands between begins with exactly six numerals, and these are the matrix; otherwise the matrix is
malformed.  A view box is read exactly when it begins with exactly four numerals, and these are the corners;
otherwise it is invalid.  In both cases what follows the numerals does not matter. -/
theorem numerals_of_transform_and_viewBox (value : Text) :
    ((¬ ∃ content, value.trim = lit "matrix(" ++ (content ++ lit ")")) →
      Affine.read value = .error (.unsupportedTransform value)) ∧
    (∀ content, value.trim = lit "matrix(" ++ (content ++ lit ")") → unit ')' ∉ content →
      (∀ t, Affine.read value = .ok t ↔
        ∃ ns, Numeral.Begins content ns ∧ ns.map Numeral.value = [t.a, t.b, t.c, t.d, t.e, t.f]) ∧
      ((¬ ∃ ns, Numeral.Begins content ns ∧ ns.length = 6) →
        Affine.read value = .error (.malformedMatrix value))) ∧
    (∀ box, ViewBox.readOptional (some value) = .ok box ↔
      ∃ b ns, box = some b ∧ Numeral.Begins value ns ∧
        ns.map Numeral.value = [b.min.x, b.min.y, b.max.x, b.max.y]) ∧
    ((¬ ∃ ns, Numeral.Begins value ns ∧ ns.length = 4) →
      ViewBox.readOptional (some value) = .error (.invalidViewBox value)) := by
  refine ⟨Affine.read_of_not_form, ?_, ?_, ?_⟩
  · intro content hvalue _
    refine ⟨fun t => Affine.read_eq_ok_iff hvalue, ?_⟩
    intro hcount
    have hns : Numeral.Begins content (Numeral.list content).1 := Numeral.begins_iff.mpr rfl
    exact Affine.read_of_length_ne hvalue hns (fun hlength => hcount ⟨_, hns, hlength⟩)
  · intro box
    simp only [ViewBox.readOptional_eq_ok_iff, ViewBox.read_eq_ok_iff, exists_and_left]
  · intro hcount
    have hns : Numeral.Begins value (Numeral.list value).1 := Numeral.begins_iff.mpr rfl
    rw [ViewBox.readOptional, ViewBox.read_of_length_ne hns (fun hlength => hcount ⟨_, hns, hlength⟩)]
    rfl

/-- A matrix of packed numerals with a unit name behind them. -/
def packedTransform : Text := lit " matrix(1,0-2.5.5 7 8px) "

theorem numerals_of_packedTransform :
    Affine.read packedTransform = .ok ⟨1, 0, -2.5, 0.5, 7, 8⟩ ∧
      ViewBox.readOptional (some packedTransform) = .error (.invalidViewBox packedTransform) := by
  obtain ⟨-, hmatrix, -, hbox⟩ := numerals_of_transform_and_viewBox packedTransform
  have hcontent : Numeral.Begins (lit "1,0-2.5.5 7 8px") (Numeral.list (lit "1,0-2.5.5 7 8px")).1 :=
    Numeral.begins_iff.mpr rfl
  constructor
  · refine ((hmatrix (lit "1,0-2.5.5 7 8px") (by decide +kernel) (by decide)).1 _).mpr ⟨_, hcontent, ?_⟩
    decide +kernel
  · apply hbox
    rintro ⟨ns, hns, hlength⟩
    rw [← Numeral.begins_iff.mp hns] at hlength
    exact absurd hlength (by decide +kernel)

/-- A view box and a matrix with a unit name behind their numerals are read, though neither consists of
numerals. -/
theorem read_trailing_units :
    ViewBox.readOptional (some (lit "0 0 24 24 px")) = .ok (some ⟨⟨0, 0⟩, ⟨24, 24⟩⟩) ∧
      (¬ ∃ ns, Numeral.Consists (lit "0 0 24 24 px") ns) ∧
      Affine.read (lit "matrix(1 0 0 1 5 6 px)") = .ok ⟨1, 0, 0, 1, 5, 6⟩ ∧
      ¬ ∃ ns, Numeral.Consists (lit "1 0 0 1 5 6 px") ns := by
  have hbegins (t : Text) : Numeral.Begins t (Numeral.list t).1 := Numeral.begins_iff.mpr rfl
  refine ⟨?_, ?_, ?_, ?_⟩
  · refine ViewBox.readOptional_eq_ok_iff.mpr ⟨_, rfl, ViewBox.read_eq_ok_iff.mpr ⟨_, hbegins _, ?_⟩⟩
    decide +kernel
  · rintro ⟨ns, hns⟩
    exact absurd (Numeral.rest_of_consists hns) (by decide +kernel)
  · have hform : (lit "matrix(1 0 0 1 5 6 px)").trim = lit "matrix(" ++ (lit "1 0 0 1 5 6 px" ++ lit ")") := by
      decide +kernel
    refine (Affine.read_eq_ok_iff hform).mpr ⟨_, hbegins _, ?_⟩
    decide +kernel
  · rintro ⟨ns, hns⟩
    exact absurd (Numeral.rest_of_consists hns) (by decide +kernel)

end Pictogram
