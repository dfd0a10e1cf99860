import Pictogram.Proofs.Decimal.Spelling
import Pictogram.Proofs.Path.Plotter
import Pictogram.Proofs.Picture.Blame

/-! # Path text reads back

The path text of an outline is path data again.  Coordinates in plain notation are numerals that read as the
same numbers, and the spaces and letters around them end them where they end, so the text falls into one
spelling for each segment (`PathData.spells_pathText`).  Reading draws the segments, with a line for each close
that needs one (`Outline.explicit`), and coordinates that compare equal to those written
(`PathData.drawAll_of_spelledBy`).

Of a coordinate in any other notation something is left over that is neither numeral nor letter
(`PathData.IsForeign`), wherever it stands, so the text has no spelling. -/

namespace Pictogram

/-! ### Outlines -/

namespace Segment

def points : Segment → List Point
  | moveTo p => [p]
  | lineTo p => [p]
  | cubeTo p q r => [p, q, r]
  | close => []

/-- The numbers of a segment, in the order in which they are written. -/
def coordinates (s : Segment) : List Float := s.points.flatMap fun p => [p.x, p.y]

def letter : Segment → CodeUnit
  | moveTo _ => unit 'M'
  | lineTo _ => unit 'L'
  | cubeTo .. => unit 'C'
  | close => unit 'Z'

/-- A segment with its close drawn: a line to the start of the subpath if the pen is not there, and nothing
otherwise. -/
def drawn (p : Pen) : Segment → Outline
  | close => p.closing
  | s => [s]

/-- The same segment with points that coincide. -/
def Coincides : Segment → Segment → Prop
  | moveTo p, moveTo p' => p.coincides p' = true
  | lineTo p, lineTo p' => p.coincides p' = true
  | cubeTo p q r, cubeTo p' q' r' => p.coincides p' = true ∧ q.coincides q' = true ∧ r.coincides r' = true
  | close, close => True
  | _, _ => False

end Segment

namespace Outline

def coordinates (o : Outline) : List Float := o.flatMap Segment.coordinates

/-- An outline with its closes drawn. -/
def explicit (p : Pen) : Outline → Outline
  | [] => []
  | s :: o => s.drawn p ++ explicit (p.after s) o

end Outline

/-! ### The text of a segment -/

/-- Numbers with spaces between them. -/
def coordinateText (xs : List Float) : Text := (lit " ").intercalate (xs.map Decimal.ofFloat)

theorem coordinateText_cons_cons (x y : Float) (xs : List Float) :
    coordinateText (x :: y :: xs) = Decimal.ofFloat x ++ unit ' ' :: coordinateText (y :: xs) := by
  have hspace : lit " " = [unit ' '] := by decide
  simp [coordinateText, List.intercalate_cons_cons, hspace]

theorem Segment.pathText_eq (s : Segment) : s.pathText = s.letter :: coordinateText s.coordinates := by
  have hspace : lit " " = [unit ' '] := by decide
  have hm : lit "M" = [unit 'M'] := by decide
  have hl : lit "L" = [unit 'L'] := by decide
  have hc : lit "C" = [unit 'C'] := by decide
  have hz : lit "Z" = [unit 'Z'] := by decide
  have hone (x : Float) : coordinateText [x] = Decimal.ofFloat x := by simp [coordinateText]
  cases s with
  | moveTo p =>
      simp [pathText, letter, coordinates, points, Point.pathText, coordinateText_cons_cons, hone, hspace, hm]
  | lineTo p =>
      simp [pathText, letter, coordinates, points, Point.pathText, coordinateText_cons_cons, hone, hspace, hl]
  | cubeTo p q r =>
      simp [pathText, letter, coordinates, points, Point.pathText, coordinateText_cons_cons, hone, hspace, hc]
  | close => simp [pathText, letter, coordinates, points, coordinateText, hz]

namespace PathData

/-! ### Numerals in path text -/

/-- No numeral goes on into this text. -/
def Stops (t : Text) : Prop := ∀ u ∈ t.head?, Digit.ofUnit? u = none ∧ u ≠ unit '.'

theorem stops_cons {u : CodeUnit} (h : Digit.ofUnit? u = none ∧ u ≠ unit '.') (t : Text) : Stops (u :: t) := by
  intro v hv
  obtain rfl : u = v := by simpa using hv
  exact h

theorem stops_pathText (o : Outline) : Stops o.pathText := by
  cases o with
  | nil => simp [Stops, Outline.pathText]
  | cons s o =>
      rw [Outline.pathText, List.flatMap_cons, Segment.pathText_eq, List.cons_append]
      have hletter : Digit.ofUnit? s.letter = none ∧ s.letter ≠ unit '.' := by
        cases s <;> rw [Segment.letter] <;> decide
      exact stops_cons hletter _

/-- A numeral ends where the text behind it stops. -/
theorem scan?_text_append {n : Numeral} (hwf : n.WellFormed) {t : Text} (ht : Stops t) :
    Numeral.scan? (n.text ++ t) = some (n, t) := by
  have hends : n.EndsBefore t := fun u hu => ⟨(ht u hu).1, fun hpoint => absurd hpoint (ht u hu).2⟩
  exact hends.scan?_text_append hwf

theorem lexes_text_append {n : Numeral} (hwf : n.WellFormed) {t : Text} (ht : Stops t) {ls : List PathLexeme}
    (h : Lexes t ls) : Lexes (n.text ++ t) (.numeral n :: ls) :=
  (lexes_numeral_iff (scan?_text_append hwf ht)).mpr ⟨ls, rfl, h⟩

/-! ### Plain coordinates -/

/-- Plain numbers fall into the numerals that they are written as, and these read as the same numbers. -/
theorem lexes_coordinateText {xs : List Float} (hxs : ∀ x ∈ xs, Decimal.Plain x) {t : Text} (ht : Stops t)
    {ls : List PathLexeme} (h : Lexes t ls) :
    ∃ ns : List Numeral, List.Forall₂ (fun x n => (n.value == x) = true) xs ns ∧
      Lexes (coordinateText xs ++ t) (ns.map .numeral ++ ls) := by
  induction xs with
  | nil => exact ⟨[], .nil, h⟩
  | cons x xs ih =>
      obtain ⟨n, hwf, hn, hvalue⟩ := Decimal.exists_text_of_plain (hxs x List.mem_cons_self)
      obtain ⟨ns, hns, hlexes⟩ := ih fun y hy => hxs y (List.mem_cons_of_mem x hy)
      refine ⟨n :: ns, .cons hvalue hns, ?_⟩
      cases xs with
      | nil =>
          cases hns
          have htext : coordinateText [x] = n.text := by simp [coordinateText, hn]
          rw [htext]
          exact lexes_text_append hwf ht h
      | cons y xs =>
          rw [coordinateText_cons_cons, hn, List.append_assoc, List.cons_append]
          exact lexes_text_append hwf (stops_cons (by decide) _) (.separator (by decide) hlexes)

/-- A spelling of a segment: its letter, and numerals that read as its numbers. -/
def SpelledBy (s : Segment) (p : PathSpelling) : Prop :=
  p.letter = s.letter ∧ List.Forall₂ (fun x n => (n.value == x) = true) s.coordinates p.numerals

theorem letter_ofUnit? (s : Segment) :
    ∃ l, Letter.ofUnit? s.letter = some l ∧ s.coordinates.length % l.verb.arity = 0 := by
  cases s <;> exact ⟨_, rfl, by simp [Segment.coordinates, Segment.points, Verb.arity]⟩

theorem SpelledBy.admissible {s : Segment} {p : PathSpelling} (h : SpelledBy s p) : p.Admissible := by
  obtain ⟨l, hl, harity⟩ := letter_ofUnit? s
  rw [PathSpelling.admissible_iff, h.1]
  exact ⟨l, hl, by rw [← h.2.length_eq]; exact harity⟩

/-- The text of an outline with plain coordinates has one spelling for each segment. -/
theorem spells_pathText {o : Outline} (h : ∀ x ∈ o.coordinates, Decimal.Plain x) :
    ∃ spellings, List.Forall₂ SpelledBy o spellings ∧ Spells o.pathText spellings := by
  induction o with
  | nil => exact ⟨[], .nil, .nil, by simp⟩
  | cons s o ih =>
      rw [Outline.coordinates, List.flatMap_cons, List.forall_mem_append] at h
      obtain ⟨spellings, hspelled, hlexes, hadmissible⟩ := ih h.2
      obtain ⟨ns, hns, hall⟩ := lexes_coordinateText h.1 (stops_pathText o) hlexes
      have hfirst : SpelledBy s ⟨s.letter, ns⟩ := ⟨rfl, hns⟩
      obtain ⟨l, hl, -⟩ := letter_ofUnit? s
      obtain ⟨hseparator, hscan⟩ := Letter.lexes_of_ofUnit? hl (coordinateText s.coordinates ++ Outline.pathText o)
      refine ⟨⟨s.letter, ns⟩ :: spellings, .cons hfirst hspelled, ?_, ?_⟩
      · rw [Outline.pathText, List.flatMap_cons, Segment.pathText_eq, List.cons_append]
        exact (lexes_unit_iff hseparator hscan).mpr ⟨_, rfl, hall⟩
      · exact List.forall_mem_cons.mpr ⟨hfirst.admissible, hadmissible⟩

/-! ### Other notation -/

/-- The text has a lexeme that is neither a numeral nor a letter. -/
def IsForeign (t : Text) : Prop := ∃ ls, Lexes t ls ∧ ∃ u, .unit u ∈ ls ∧ Letter.ofUnit? u = none

theorem not_spells_of_isForeign {t : Text} (h : IsForeign t) : ¬ ∃ spellings, Spells t spellings := by
  rintro ⟨spellings, hlexes, hadmissible⟩
  obtain ⟨ls, hls, u, hu, hnone⟩ := h
  obtain ⟨_, _, hunique⟩ := existsUnique_lexes t
  rw [hunique ls hls, ← hunique _ hlexes] at hu
  obtain ⟨p, hp, hmem⟩ := List.mem_flatMap.mp hu
  obtain ⟨l, hl, -⟩ := PathSpelling.admissible_iff.mp (hadmissible p hp)
  have hletter : u = p.letter := by simpa [PathSpelling.lexemes] using hmem
  rw [hletter, hl] at hnone
  cases hnone

theorem isForeign_unit {u : CodeUnit} (hseparator : ¬ Numeral.isSeparator u) (hnone : Letter.ofUnit? u = none)
    {t : Text} (hscan : Numeral.scan? (u :: t) = none) : IsForeign (u :: t) := by
  obtain ⟨ls, hls, -⟩ := existsUnique_lexes t
  exact ⟨.unit u :: ls, (lexes_unit_iff hseparator hscan).mpr ⟨ls, rfl, hls⟩, u, List.mem_cons_self, hnone⟩

theorem IsForeign.separator {u : CodeUnit} (hu : Numeral.isSeparator u) {t : Text} (h : IsForeign t) :
    IsForeign (u :: t) := by
  obtain ⟨ls, hls, hforeign⟩ := h
  exact ⟨ls, .separator hu hls, hforeign⟩

theorem IsForeign.letter {u : CodeUnit} {l : Letter} (hl : Letter.ofUnit? u = some l) {t : Text} (h : IsForeign t) :
    IsForeign (u :: t) := by
  obtain ⟨ls, hls, v, hv, hnone⟩ := h
  obtain ⟨hseparator, hscan⟩ := Letter.lexes_of_ofUnit? hl t
  exact ⟨.unit u :: ls, (lexes_unit_iff hseparator hscan).mpr ⟨ls, rfl, hls⟩, v, List.mem_cons_of_mem _ hv, hnone⟩

theorem IsForeign.numeral {n : Numeral} (hwf : n.WellFormed) {t : Text} (ht : Stops t) (h : IsForeign t) :
    IsForeign (n.text ++ t) := by
  obtain ⟨ls, hls, v, hv, hnone⟩ := h
  exact ⟨.numeral n :: ls, lexes_text_append hwf ht hls, v, List.mem_cons_of_mem _ hv, hnone⟩

/-- What is not plain is foreign to path data, whatever follows it. -/
theorem isForeign_of_not_plain {x : Float} (hx : ¬ Decimal.Plain x) (t : Text) :
    IsForeign (Decimal.ofFloat x ++ t) := by
  have hscan {u : CodeUnit} (hminus : u ≠ unit '-') (hdigit : Digit.ofUnit? u = none) (hpoint : u ≠ unit '.')
      (rest : Text) : Numeral.scan? (u :: rest) = none := by
    simp [Numeral.scan?, Numeral.scanSign_of_ne hminus, Digit.scan_of_ofUnit?_eq_none hdigit, Numeral.scanFraction,
      hpoint, Numeral.WellFormed, Numeral.fractionDigits]
  rcases Decimal.cases_of_not_plain hx with ⟨n, rest, hwf, htext⟩ | htext | htext | htext
  · rw [htext, List.append_assoc]
    refine IsForeign.numeral hwf (stops_cons (by decide) _) ?_
    exact isForeign_unit (by decide) (by decide) (hscan (by decide) (by decide) (by decide) _)
  · rw [htext]
    exact isForeign_unit (by decide) (by decide) (hscan (by decide) (by decide) (by decide) _)
  · rw [htext]
    exact isForeign_unit (by decide) (by decide) (hscan (by decide) (by decide) (by decide) _)
  · rw [htext]
    refine isForeign_unit (by decide) (by decide) ?_
    show Numeral.scan? (unit '-' :: unit 'I' :: (lit "nfinity" ++ t)) = none
    have hdigit : Digit.ofUnit? (unit 'I') = none := by decide
    have hpoint : unit 'I' ≠ unit '.' := by decide
    simp [Numeral.scan?, Numeral.scanSign, Digit.scan_of_ofUnit?_eq_none hdigit, Numeral.scanFraction, hpoint,
      Numeral.WellFormed, Numeral.fractionDigits]

theorem isForeign_coordinateText {xs : List Float} {t : Text} (ht : Stops t)
    (h : (∃ x ∈ xs, ¬ Decimal.Plain x) ∨ IsForeign t) : IsForeign (coordinateText xs ++ t) := by
  induction xs with
  | nil => exact h.resolve_left (by simp)
  | cons x xs ih =>
      by_cases hx : Decimal.Plain x
      · obtain ⟨n, hwf, hn, -⟩ := Decimal.exists_text_of_plain hx
        have hrest : (∃ y ∈ xs, ¬ Decimal.Plain y) ∨ IsForeign t := by
          refine h.imp_left ?_
          rintro ⟨y, hy, hplain⟩
          rcases List.mem_cons.mp hy with rfl | hy
          · exact absurd hx hplain
          · exact ⟨y, hy, hplain⟩
        cases xs with
        | nil =>
            have htext : coordinateText [x] = n.text := by simp [coordinateText, hn]
            rw [htext]
            exact (ih hrest).numeral hwf ht
        | cons y xs =>
            rw [coordinateText_cons_cons, hn, List.append_assoc, List.cons_append]
            exact IsForeign.numeral hwf (stops_cons (by decide) _) ((ih hrest).separator (by decide))
      · cases xs with
        | nil =>
            have htext : coordinateText [x] = Decimal.ofFloat x := by simp [coordinateText]
            rw [htext]
            exact isForeign_of_not_plain hx t
        | cons y xs =>
            rw [coordinateText_cons_cons, List.append_assoc]
            exact isForeign_of_not_plain hx _

theorem isForeign_pathText {o : Outline} (h : ∃ x ∈ o.coordinates, ¬ Decimal.Plain x) : IsForeign o.pathText := by
  induction o with
  | nil => simp [Outline.coordinates] at h
  | cons s o ih =>
      rw [Outline.coordinates, List.flatMap_cons] at h
      obtain ⟨l, hl, -⟩ := letter_ofUnit? s
      rw [Outline.pathText, List.flatMap_cons, Segment.pathText_eq, List.cons_append]
      apply IsForeign.letter hl
      apply isForeign_coordinateText (stops_pathText o)
      obtain ⟨x, hx, hplain⟩ := h
      rcases List.mem_append.mp hx with hx | hx
      · exact .inl ⟨x, hx, hplain⟩
      · exact .inr (ih ⟨x, hx, hplain⟩)

end PathData

/-! ### Coordinates that compare equal -/

namespace Point
variable {p q r : Point}

theorem coincides_iff : p.coincides q = true ↔ (p.x == q.x) = true ∧ (p.y == q.y) = true := by
  simp [coincides]

theorem coincides_trans (h : p.coincides q = true) (h' : q.coincides r = true) : p.coincides r = true := by
  rw [coincides_iff] at h h' ⊢
  exact ⟨BEq.trans h.1 h'.1, BEq.trans h.2 h'.2⟩

theorem coincides_congr {p' q' : Point} (hp : p.coincides p' = true) (hq : q.coincides q' = true) :
    p.coincides q = p'.coincides q' := by
  rw [coincides_iff] at hp hq
  simp only [coincides, BEq.congr_left hp.1, BEq.congr_right hq.1, BEq.congr_left hp.2, BEq.congr_right hq.2]

/-- A point as path data gives it, with the origin added to it. -/
theorem coincides_of_add_origin (hx : (p.x == q.x) = true) (hy : (p.y == q.y) = true) :
    (p + origin).coincides q = true := by
  have hadd {x y : Float} (h : (x == y) = true) : (x + 0 == y) = true :=
    BEq.trans (Double.add_zero_beq (Float.beq_iff_ne_nan_and_eq.mp h).1) h
  exact coincides_iff.mpr ⟨hadd hx, hadd hy⟩

end Point

/-- Pens at points that coincide. -/
def Pen.Coincides (p q : Pen) : Prop := p.point.coincides q.point = true ∧ p.start.coincides q.start = true

theorem Pen.Coincides.closing {p q : Pen} (h : p.Coincides q) :
    List.Forall₂ Segment.Coincides p.closing q.closing ∧ Pen.Coincides (p.trace p.closing) (q.after .close) := by
  unfold Pen.closing
  rw [Point.coincides_congr h.1 h.2]
  split
  · rename_i hclosed
    exact ⟨.nil, Point.coincides_trans h.1 hclosed, h.2⟩
  · exact ⟨.cons h.2 .nil, h.2, h.2⟩

namespace PathData

/-! ### What is drawn -/

theorem pairs_coincide {ps : List Point} {values : List Float}
    (h : List.Forall₂ (fun x v => (v == x) = true) (ps.flatMap fun p => [p.x, p.y]) values) :
    List.Forall₂ (fun p q => (q + .origin).coincides p = true) ps (Point.pairs values) := by
  induction ps generalizing values with
  | nil =>
      obtain rfl := List.forall₂_nil_left_iff.mp h
      exact .nil
  | cons p ps ih =>
      rw [List.flatMap_cons, List.cons_append, List.cons_append, List.nil_append] at h
      obtain ⟨x, ys, hx, hys, rfl⟩ := List.forall₂_cons_left_iff.mp h
      obtain ⟨y, values, hy, hvalues, rfl⟩ := List.forall₂_cons_left_iff.mp hys
      exact .cons (Point.coincides_of_add_origin hx hy) (ih hvalues)

/-- The command of a segment, with numbers that compare equal to its own, draws it. -/
theorem draw_assemble {s : Segment} {l : Letter} (hl : Letter.ofUnit? s.letter = some l) {values : List Float}
    (hvalues : List.Forall₂ (fun x v => (v == x) = true) s.coordinates values) {t : Tracer} {p : Pen}
    (hpen : t.pen.Coincides p) :
    List.Forall₂ Segment.Coincides ((PathCommand.assemble l values).draw t).1 (s.drawn p) ∧
      Pen.Coincides ((PathCommand.assemble l values).draw t).2.pen (p.after s) := by
  have hpairs := pairs_coincide hvalues
  generalize hps : Point.pairs values = ps at hpairs
  cases s with
  | moveTo target =>
      obtain rfl := Option.some.inj hl
      obtain ⟨q, qs, hq, hqs, rfl⟩ := List.forall₂_cons_left_iff.mp hpairs
      obtain rfl := List.forall₂_nil_left_iff.mp hqs
      simp only [PathCommand.assemble, hps]
      exact ⟨.cons hq .nil, hq, hq⟩
  | lineTo target =>
      obtain rfl := Option.some.inj hl
      obtain ⟨q, qs, hq, hqs, rfl⟩ := List.forall₂_cons_left_iff.mp hpairs
      obtain rfl := List.forall₂_nil_left_iff.mp hqs
      simp only [PathCommand.assemble, hps]
      exact ⟨.cons hq .nil, hq, hpen.2⟩
  | cubeTo control₁ control₂ target =>
      obtain rfl := Option.some.inj hl
      obtain ⟨q₁, qs₁, hq₁, hqs₁, rfl⟩ := List.forall₂_cons_left_iff.mp hpairs
      obtain ⟨q₂, qs₂, hq₂, hqs₂, rfl⟩ := List.forall₂_cons_left_iff.mp hqs₁
      obtain ⟨q, qs, hq, hqs, rfl⟩ := List.forall₂_cons_left_iff.mp hqs₂
      obtain rfl := List.forall₂_nil_left_iff.mp hqs
      simp only [PathCommand.assemble, hps]
      exact ⟨.cons ⟨hq₁, hq₂, hq⟩ .nil, hq, hpen.2⟩
  | close =>
      obtain rfl := Option.some.inj hl
      exact hpen.closing

/-- Spellings of segments draw the segments, with their closes drawn. -/
theorem drawAll_of_spelledBy {o : Outline} {spellings : List PathSpelling} (h : List.Forall₂ SpelledBy o spellings)
    {t : Tracer} {p : Pen} (hpen : t.pen.Coincides p) :
    List.Forall₂ Segment.Coincides (PathCommand.drawAll t (spellings.filterMap PathSpelling.command?))
      (o.explicit p) := by
  induction h generalizing t p with
  | nil => exact .nil
  | @cons s spelling o spellings hs _ ih =>
      obtain ⟨l, hl, -⟩ := letter_ofUnit? s
      have hcommand : spelling.command? = some (.assemble l spelling.values) := by
        simp [PathSpelling.command?, hs.1, hl]
      have hvalues : List.Forall₂ (fun x v => (v == x) = true) s.coordinates spelling.values := by
        rw [PathSpelling.values, List.forall₂_map_right_iff]
        exact hs.2
      obtain ⟨hdrawn, hafter⟩ := draw_assemble hl hvalues hpen
      rw [List.filterMap_cons_some hcommand]
      exact List.rel_append hdrawn (ih hafter)

theorem outline_of_plain {o : Outline} (h : ∀ x ∈ o.coordinates, Decimal.Plain x) :
    ∃ o', outline o.pathText = .ok o' ∧ List.Forall₂ Segment.Coincides o' (o.explicit .home) := by
  obtain ⟨spellings, hspelled, hspells⟩ := spells_pathText h
  have hhome : Pen.Coincides (Tracer.ofPen .home).pen .home := ⟨rfl, rfl⟩
  refine ⟨_, ?_, drawAll_of_spelledBy hspelled hhome⟩
  simp only [outline, trace, parse_of_spells hspells]

theorem kind_of_outline {d : Text} {f : Fault} (h : outline d = .error f) : f.kind = .path := by
  unfold outline trace at h
  have hparse := kind_of_parse (d := d) (f := f)
  generalize parse d = parsed at h hparse
  obtain ⟨commands, fault⟩ := parsed
  cases fault with
  | none => cases h
  | some g =>
      cases h
      exact hparse rfl

/-- **Reading undoes writing path text.**  The path text of an outline can be read if and only if every
coordinate is finite and written without an exponent.  Then it gives the outline back with its closes drawn:
each as a line to the start of the subpath if the pen is not there, and as nothing otherwise, and with
coordinates that compare equal, so that they differ in the sign of a zero at most (`Float.beq_iff_ne_nan_and_eq`).  In every
other case it fails with a path fault. -/
theorem outline_pathText (o : Outline) :
    ((∃ o', outline o.pathText = .ok o') ↔ ∀ x ∈ o.coordinates, x.isFinite = true ∧ unit 'e' ∉ Decimal.ofFloat x) ∧
      (∀ o', outline o.pathText = .ok o' → List.Forall₂ Segment.Coincides o' (o.explicit .home)) ∧
      ∀ f, outline o.pathText = .error f → f.kind = .path := by
  have hplain (h : ∃ o', outline o.pathText = .ok o') : ∀ x ∈ o.coordinates, Decimal.Plain x := by
    intro x hx
    by_contra hnot
    exact not_spells_of_isForeign (isForeign_pathText ⟨x, hx, hnot⟩) (exists_spells_iff.mp h)
  refine ⟨⟨hplain, ?_⟩, ?_, fun f => kind_of_outline⟩
  · intro h
    obtain ⟨o', ho', -⟩ := outline_of_plain h
    exact ⟨o', ho'⟩
  · intro o' ho'
    obtain ⟨o'', ho'', hdrawn⟩ := outline_of_plain (hplain ⟨o', ho'⟩)
    rw [ho''] at ho'
    obtain rfl := Except.ok.inj ho'
    exact hdrawn

end PathData
end Pictogram
