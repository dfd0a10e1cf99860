import Pictogram.Proofs.Markup.Truncation
import Pictogram.Proofs.Picture.RootElement

/-! # Documents that break off

A document is compiled up to the end of its root element.  If it breaks off before, compiling goes as far as
before the break and then fails with the error in which reading ends there: that the text has ended or, at a
gap of a tag, that the markup is at fault (`compile_front`).

Nothing of what compiling asks of the elements in front of the break fails, since it does not fail for the
whole document: the attributes of an element are read with its tag, and each part of compiling that reads on
does the same with both texts until the break is reached. -/

namespace Pictogram
namespace Picture

open Reader

variable {z : Text} {r r' s : Reader}

theorem readShape_breaks {kind : FigureKind} {attributes : Table} {place : Position} {shape : Option Shape}
    (h : Alike z [] r r') (hs : readShape kind attributes place r = .ok (shape, s))
    (hz : s.cursor.rest.length < z.length) : ∃ e, readShape kind attributes place r' = .error e ∧ Breaks r' e := by
  obtain ⟨e, s', hs', hbreaks⟩ := skip_breaks h (skip_of_readShape hs) hz
  refine ⟨e, ?_, hbreaks⟩
  simp only [readShape, bind, Except.bind] at hs ⊢
  cases hstyle : inElement place (Style.read attributes) with
  | error e =>
      rw [hstyle] at hs
      cases hs
  | ok style =>
      cases hfigure : inElement place (Figure.read kind attributes) with
      | error e =>
          rw [hstyle, hfigure] at hs
          cases hs
      | ok figure =>
          simp only [hs']
          rfl

namespace Walk

variable {w w' w₁ : Walk}

/-- A token is taken by both walks, or the break lies in the element that it opens. -/
theorem take_or_breaks {t : Token} (h : Alike z [] w w') (ht : w.take t = .ok (some w₁)) :
    (∃ w₁', w'.take t = .ok (some w₁') ∧ Alike z [] w₁ w₁') ∨ ∃ e, w'.take t = .error e ∧ Breaks w'.reader e := by
  by_cases hz : z.length ≤ w₁.reader.cursor.rest.length
  · exact .inl (alike_take h ht hz)
  · right
    have hle := h.reader.cursor.length_le
    unfold take at ht ⊢
    split at ht
    · cases ht
      exact absurd hle hz
    · split at ht <;> cases ht
      exact absurd hle hz
    · split at ht
      · cases ht
        exact absurd hle hz
      · next hgroup =>
        split at ht
        · next htitle =>
          simp only [bind, Except.bind] at ht
          split at ht <;> cases ht
          next hs =>
            obtain ⟨e, s', hs', hbreaks⟩ := skip_breaks h.reader (skip_of_ofOutcome hs) (Nat.not_le.mp hz)
            refine ⟨e, ?_, hbreaks⟩
            simp only [if_neg hgroup, if_pos htitle, hs']
            rfl
        · next htitle =>
          split at ht
          · cases ht
          · next kind hkind =>
            simp only [bind, Except.bind] at ht
            split at ht <;> cases ht
            next shape hs =>
              obtain ⟨e, hs', hbreaks⟩ := readShape_breaks h.reader hs (Nat.not_le.mp hz)
              refine ⟨e, ?_, hbreaks⟩
              simp only [if_neg hgroup, if_neg htitle, hs']
              rfl

theorem breaks_of_take {t : Token} {e : CompileError} (ht : w.take t = .ok (some w₁))
    (h : Breaks w₁.reader e) : Breaks w.reader e := by
  rcases skip_of_take ht with heq | hskip
  · exact heq ▸ h
  · exact .of_skipTo hskip h

theorem run_of_next_error {e : CompileError} (h : w.reader.next = .error e s) : w.run = .error e := by
  rw [run]
  split <;> simp_all

theorem run_of_next_none (h : w.reader.next = .ok none s) : w.run = .error s.unexpectedEnd := by
  rw [run]
  split <;> simp_all

theorem run_of_runsOut {e : CompileError} (h : RunsOut w.reader e) : w.run = .error e := by
  generalize hr : w.reader = r at h
  cases h with
  | fault h => exact run_of_next_error (hr ▸ h)
  | ended h => exact run_of_next_none (hr ▸ h)
  | @text s _ _ h h' =>
      subst hr
      rw [run_of_next h]
      exact run_of_next_none (w := { w with reader := s }) h'

/-- A walk that is cut through fails where the text breaks off. -/
theorem run_breaks {shapes : List Shape} (h : Alike z [] w w') (hs : w.run = .ok (shapes, s))
    (hz : s.cursor.rest.length < z.length) : ∃ e, w'.run = .error e ∧ Breaks w'.reader e := by
  fun_induction run w generalizing w' with
  | case1 => cases hs
  | case2 => cases hs
  | case3 => cases hs
  | case4 w t s₁ hn htake =>
      cases hs
      rcases next_or_runsOut h.reader hn with ⟨s', -, halike⟩ | ⟨e, hout, hbreaks⟩
      · exact absurd halike.cursor.length_le (Nat.not_le.mpr hz)
      · exact ⟨e, run_of_runsOut hout, hbreaks⟩
  | case5 w t s₁ hn w₁ htake _ ih =>
      rcases next_or_runsOut h.reader hn with ⟨s₁', hs₁', halike⟩ | ⟨e, hout, hbreaks⟩
      · have hwalks : Alike z [] { w with reader := s₁ } { w' with reader := s₁' } :=
          ⟨h.depth_eq, h.found_eq, halike⟩
        rw [run_of_next hs₁']
        rcases take_or_breaks hwalks htake with ⟨w₁', hw₁', htaken⟩ | ⟨e, he, hbreaks⟩
        · obtain ⟨e, he, hbreaks⟩ := ih htaken hs
          rw [hw₁']
          exact ⟨e, he, (breaks_of_take hw₁' hbreaks).token hs₁'⟩
        · rw [he]
          exact ⟨e, rfl, hbreaks.token hs₁'⟩
      · exact ⟨e, run_of_runsOut hout, hbreaks⟩

end Walk

/-! ### Documents -/

theorem findRoot_of_next_error {e : CompileError} (h : r.next = .error e s) : findRoot r = .error e := by
  rw [findRoot]
  split <;> simp_all

theorem findRoot_of_next_none (h : r.next = .ok none s) : findRoot r = .error s.unexpectedEnd := by
  rw [findRoot]
  split <;> simp_all

theorem findRoot_of_runsOut {e : CompileError} (h : RunsOut r e) : findRoot r = .error e := by
  cases h with
  | fault h => exact findRoot_of_next_error h
  | ended h => exact findRoot_of_next_none h
  | text h h' => rw [findRoot_of_text h, findRoot_of_next_none h']

/-- The root is found in both texts, or the break lies in front of it or in its tag. -/
theorem findRoot_or_breaks {root : ElementName × Table × Position} (h : Alike z [] r r')
    (hs : findRoot r = .ok (root, s)) :
    (∃ s', findRoot r' = .ok (root, s') ∧ Alike z [] s s' ∧ ∀ {e}, Breaks s' e → Breaks r' e) ∨
      ∃ e, findRoot r' = .error e ∧ Breaks r' e := by
  fun_induction findRoot r generalizing r' with
  | case1 => cases hs
  | case2 => cases hs
  | case3 r t s₁ hn _ root' hroot =>
      cases hs
      rcases next_or_runsOut h hn with ⟨s', hs', halike⟩ | ⟨e, hout, hbreaks⟩
      · cases t with
        | opening name attributes place =>
            cases hroot
            exact .inl ⟨s', findRoot_of_opening hs', halike, fun hb => hb.token hs'⟩
        | closing | text => cases hroot
      · exact .inr ⟨e, findRoot_of_runsOut hout, hbreaks⟩
  | case4 r t s₁ hn _ hroot ih =>
      rcases next_or_runsOut h hn with ⟨s₁', hs₁', halike⟩ | ⟨e, hout, hbreaks⟩
      · have hfind : findRoot r' = findRoot s₁' := by
          cases t with
          | opening => cases hroot
          | closing name place => exact findRoot_of_closing hs₁'
          | text content place => exact findRoot_of_text hs₁'
        rw [hfind]
        rcases ih halike hs with ⟨s', hs', hsalike, hback⟩ | ⟨e, he, hbreaks⟩
        · exact .inl ⟨s', hs', hsalike, fun hb => (hback hb).token hs₁'⟩
        · exact .inr ⟨e, he, hbreaks.token hs₁'⟩
      · exact .inr ⟨e, findRoot_of_runsOut hout, hbreaks⟩

/-- A document that is cut through fails where the text breaks off. -/
theorem read_breaks {picture : Picture} (h : Alike z [] r r') (hs : read r = .ok (picture, s))
    (hz : s.cursor.rest.length < z.length) : ∃ e, read r' = .error e ∧ Breaks r' e := by
  obtain ⟨attributes, place, s₁, hroot, hbox, hrun⟩ := read_eq_ok_iff.mp hs
  unfold read
  rcases findRoot_or_breaks h hroot with ⟨s₁', hroot', halike, hback⟩ | ⟨e, he, hbreaks⟩
  · have hwalks : Walk.Alike z [] ⟨0, #[], s₁⟩ ⟨0, #[], s₁'⟩ := ⟨rfl, rfl, halike⟩
    obtain ⟨e, he, hbreaks⟩ := Walk.run_breaks hwalks hrun hz
    refine ⟨e, ?_, hback hbreaks⟩
    rw [hroot']
    simp only [bind, Except.bind, ne_eq, not_true_eq_false, if_false, hbox, inElement_ok, he]
  · refine ⟨e, ?_, hbreaks⟩
    rw [he]
    rfl

/-- **A document that breaks off before the end of its root element is a structural error.**  It is that the
text has ended, except where the text breaks off at a gap of a tag; there the markup is at fault. -/
theorem compile_front {text : Text} {picture : Picture} (h : Picture.compile text = .ok picture) :
    ∃ root, root <+: text ∧ (∀ rest, Picture.compile (root ++ rest) = .ok picture) ∧
      ∀ front, front <+: root → front ≠ root → ∃ e, Picture.compile front = .error e ∧
        e.cause.kind = .structural ∧
        ((EndsAtGap (.ofText front) ∧ e.cause.code = .malformedMarkup) ∨
          (¬ EndsAtGap (.ofText front) ∧ e.cause.code = .unexpectedEnd)) := by
  obtain ⟨root, rest, rfl, hroot⟩ := exists_isRoot h
  refine ⟨root, List.prefix_append root rest, hroot.compile, ?_⟩
  rintro front ⟨back, rfl⟩ hne
  have hback : back ≠ [] := by
    rintro rfl
    exact hne (List.append_nil front).symm
  obtain ⟨s, hs, hrest⟩ := hroot []
  have halike := alike_ofText front back []
  rw [List.append_nil] at hs halike
  have hz : s.cursor.rest.length < back.length := by
    rw [hrest]
    exact List.length_pos_iff.mpr hback
  obtain ⟨e, he, hbreaks⟩ := read_breaks halike hs hz
  have hcode := hbreaks.code_eq
  refine ⟨e, by rw [Picture.compile, he]; rfl, ?_, hcode⟩
  rcases hcode with ⟨-, hcode⟩ | ⟨-, hcode⟩ <;> rw [Fault.kind, hcode] <;> rfl

/-- A document with constructs of every kind. -/
def variedText : Text :=
  lit "<!DOCTYPE svg><svg xmlns='http://www.w3.org/2000/svg'><!-- --><g><![CDATA[<]]><rect fill='#000000' /></g >&lt;</svg>"

theorem exists_compile_variedText : ∃ picture, Picture.compile variedText = .ok picture := by
  have hok : (Picture.compile variedText).toOption.isSome := by decide +kernel
  cases hcompile : Picture.compile variedText with
  | error e =>
      rw [hcompile] at hok
      cases hok
  | ok picture => exact ⟨picture, rfl⟩

theorem compile_front_variedText :
    ∃ picture root, Picture.compile variedText = .ok picture ∧ root <+: variedText ∧
      (∀ rest, Picture.compile (root ++ rest) = .ok picture) ∧
      ∀ front, front <+: root → front ≠ root → ∃ e, Picture.compile front = .error e ∧
        e.cause.kind = .structural ∧
        ((EndsAtGap (.ofText front) ∧ e.cause.code = .malformedMarkup) ∨
          (¬ EndsAtGap (.ofText front) ∧ e.cause.code = .unexpectedEnd)) := by
  obtain ⟨picture, hpicture⟩ := exists_compile_variedText
  obtain ⟨root, hroot⟩ := compile_front hpicture
  exact ⟨picture, root, hpicture, hroot⟩

/-- Behind the name of an attribute the end of the text goes unnoticed. -/
theorem compile_front_without_value :
    (∃ picture, Picture.compile variedText = .ok picture) ∧
      lit "<!DOCTYPE svg><svg xmlns" <+: variedText ∧
      ∃ e, Picture.compile (lit "<!DOCTYPE svg><svg xmlns") = .error e ∧ e.cause.code = .malformedMarkup := by
  have hcode : ((Picture.compile (lit "<!DOCTYPE svg><svg xmlns")).mapError fun e => e.cause.code).map (fun _ => ()) =
      .error .malformedMarkup := by decide +kernel
  refine ⟨exists_compile_variedText, by decide +kernel, ?_⟩
  cases hcompile : Picture.compile (lit "<!DOCTYPE svg><svg xmlns") with
  | ok picture =>
      rw [hcompile] at hcode
      cases hcode
  | error e =>
      rw [hcompile] at hcode
      exact ⟨e, rfl, Except.error.inj hcode⟩

end Picture
end Pictogram
