import Pictogram.Figure
import Pictogram.Proofs.Path.Splitting

/-! # Lines through vertices

A polyline is a move through its points, a polygon the same move and a close (`Figure.polyOutline_eq`).  Path data
of an `M`, the points and perhaps a `Z` draws the same through each point plus the origin (`PathData.outline_move`).
A numeral spells no NaN, so that adding the origin gives what coincides with the point.  Outlines that coincide leave
pens that coincide (`Pen.Coincides.trace`), so both or neither draw a line back (`Outline.coincides_through`). -/

namespace Pictogram

/-! ### Points of a number list -/

theorem Numeral.beq_self_of_mem_values {t : Text} {x : Float} (h : x ∈ values t) : (x == x) = true := by
  obtain ⟨n, -, rfl⟩ := List.mem_map.mp h
  exact Float.beq_self_iff.mpr n.value_ne_nan

namespace Point

theorem length_pairs (values : List Float) : (pairs values).length = values.length / 2 := by
  fun_induction pairs values with
  | case1 x y rest ih =>
      rw [List.length_cons, List.length_cons, List.length_cons, ih]
      omega
  | case2 values h =>
      have hshort : values.length < 2 := by
        match values with
        | [] | [_] => simp
        | x :: y :: rest => exact absurd rfl (h x y rest)
      exact (Nat.div_eq_of_lt hshort).symm

theorem mem_of_mem_pairs {values : List Float} {p : Point} (h : p ∈ pairs values) : p.x ∈ values ∧ p.y ∈ values := by
  fun_induction pairs values with
  | case1 x y rest ih =>
      rcases List.mem_cons.mp h with rfl | h
      · exact ⟨List.mem_cons_self, List.mem_cons_of_mem _ List.mem_cons_self⟩
      · obtain ⟨hx, hy⟩ := ih h
        exact ⟨List.mem_cons_of_mem _ (List.mem_cons_of_mem _ hx), List.mem_cons_of_mem _ (List.mem_cons_of_mem _ hy)⟩
  | case2 => cases h

/-- Adding the origin moves no point that numerals spell. -/
theorem coincides_add_origin {t : Text} {p : Point} (h : p ∈ pairs (Numeral.values t)) :
    (p + origin).coincides p = true := by
  obtain ⟨hx, hy⟩ := mem_of_mem_pairs h
  exact coincides_of_add_origin (Numeral.beq_self_of_mem_values hx) (Numeral.beq_self_of_mem_values hy)

end Point

/-! ### Outlines that coincide -/

namespace Pen.Coincides

variable {p q : Pen}

theorem after (h : p.Coincides q) {s s' : Segment} (hs : s.Coincides s') : (p.after s).Coincides (q.after s') := by
  match s, s' with
  | .moveTo _, .moveTo _ => exact ⟨hs, hs⟩
  | .lineTo _, .lineTo _ => exact ⟨hs, h.2⟩
  | .cubeTo .., .cubeTo .. => exact ⟨hs.2.2, h.2⟩
  | .close, .close => exact ⟨h.2, h.2⟩

/-- Outlines that coincide leave pens that coincide. -/
theorem trace (h : p.Coincides q) {o o' : Outline} (ho : List.Forall₂ Segment.Coincides o o') :
    (p.trace o).Coincides (q.trace o') := by
  induction ho generalizing p q with
  | nil => exact h
  | cons hs _ ih => exact ih (h.after hs)

end Pen.Coincides

namespace Outline

/-- A move through points, and perhaps its close. -/
def through (ps : List Point) (closed : Bool) : Outline :=
  let o := PathCommand.moveOutline ps
  o ++ if closed then (Pen.home.trace o).closing else []

theorem coincides_moveOutline {ps qs : List Point} (h : List.Forall₂ (fun p q => p.coincides q = true) ps qs) :
    List.Forall₂ Segment.Coincides (PathCommand.moveOutline ps) (PathCommand.moveOutline qs) := by
  cases h with
  | nil => exact .nil
  | cons hp hps =>
      refine .cons hp ?_
      rw [List.forall₂_map_left_iff, List.forall₂_map_right_iff]
      exact hps

theorem coincides_through {ps qs : List Point} (h : List.Forall₂ (fun p q => p.coincides q = true) ps qs)
    (closed : Bool) : List.Forall₂ Segment.Coincides (through ps closed) (through qs closed) := by
  have hmove := coincides_moveOutline h
  refine List.rel_append hmove ?_
  cases closed with
  | false => exact .nil
  | true =>
      have hhome : Pen.home.Coincides .home := ⟨rfl, rfl⟩
      exact (hhome.trace hmove).closing.1

end Outline

/-! ### Figures -/

namespace Figure

theorem trace_lines (pen : Pen) (p : Point) (ps : List Point) :
    pen.trace ((p :: ps).map .lineTo) = ⟨(p :: ps).getLast (List.cons_ne_nil p ps), pen.start⟩ := by
  induction ps generalizing pen p with
  | nil => rfl
  | cons q qs ih => exact ih (pen.after (.lineTo p)) q

theorem polyOutline_eq {coordinates : List Float} (h : 4 ≤ coordinates.length) (closed : Bool) :
    polyOutline coordinates closed = .through (Point.pairs coordinates) closed := by
  have hpairs : 2 ≤ (Point.pairs coordinates).length := by
    rw [Point.length_pairs]
    omega
  unfold polyOutline
  match hps : Point.pairs coordinates with
  | [] | [_] => simp [hps] at hpairs
  | first :: second :: rest =>
      have hpen : Pen.home.trace (PathCommand.moveOutline (first :: second :: rest)) =
          ⟨(second :: rest).getLast (List.cons_ne_nil _ _), first⟩ := trace_lines ⟨first, first⟩ second rest
      rw [Outline.through, hpen, Pen.closing]
      cases closed with
      | false => rfl
      | true => grind [PathCommand.moveOutline]

/-- The figure of an element with the given points. -/
theorem outline_of_points {attributes : Table} {points : Text} (h : attributes.get? (lit "points") = some points)
    (heven : (Numeral.values points).length % 2 = 0) :
    (read .polyline attributes >>= outline) = .ok (polyOutline (Numeral.values points) false) ∧
      (read .polygon attributes >>= outline) = .ok (polyOutline (Numeral.values points) true) := by
  have hread : readCoordinates ((attributes.get? (lit "points")).getD []) = .ok (Numeral.values points) := by
    rw [h]
    exact if_pos heven
  simp only [read, hread]
  exact ⟨rfl, rfl⟩

end Figure

/-! ### Path data -/

namespace PathData

variable {points : Text}

theorem parse_move (hrest : (Numeral.list points).2 = []) (heven : (Numeral.values points).length % 2 = 0) :
    parse (lit "M" ++ points) = ([.move false (Point.pairs (Numeral.values points))], none) := by
  have hletter : Letter.ofUnit? (unit 'M') = some ⟨.move, false⟩ := by decide
  have hops : operands ⟨.move, false⟩ points = ((Numeral.list points).1, []) := by
    rw [← hrest]
    rfl
  have harity : (operands ⟨.move, false⟩ points).1.length % 2 = 0 := by
    rw [hops]
    rwa [Numeral.values, List.length_map] at heven
  have hskip : Numeral.skipSeparators (lit "M" ++ points) = unit 'M' :: points := rfl
  rw [parse_cons hskip hletter harity, hops, parse_nil rfl]
  rfl

theorem beginsAnew_close : BeginsAnew (lit "Z") := by
  refine ⟨[], lit "Z", rfl, by simp, ?_⟩
  intro u hu
  obtain rfl : unit 'Z' = u := Option.some.inj hu
  decide

theorem parse_move_close (hrest : (Numeral.list points).2 = []) (heven : (Numeral.values points).length % 2 = 0) :
    parse (lit "M" ++ points ++ lit "Z") = ([.move false (Point.pairs (Numeral.values points)), .close], none) := by
  have hmove := parse_move hrest heven
  have hclose : parse (lit "Z") = ([.close], none) := by
    rw [parse_cons (d := lit "Z") rfl (l := ⟨.close, false⟩) (by decide) rfl, parse_nil rfl]
    rfl
  rw [parse_append (by rw [hmove]) beginsAnew_close.bars, hmove, hclose]
  rfl

/-- An `M` in front of a number list, without and with a `Z` behind it. -/
theorem outline_move (hrest : (Numeral.list points).2 = []) (heven : (Numeral.values points).length % 2 = 0) :
    outline (lit "M" ++ points) =
        .ok (.through ((Point.pairs (Numeral.values points)).map (· + .origin)) false) ∧
      outline (lit "M" ++ points ++ lit "Z") =
        .ok (.through ((Point.pairs (Numeral.values points)).map (· + .origin)) true) := by
  rw [outline, trace, parse_move hrest heven, outline, trace, parse_move_close hrest heven]
  refine ⟨rfl, ?_⟩
  simp only [PathCommand.drawAll, List.append_nil]
  rfl

end PathData

namespace Figure

variable {attributes : Table} {points : Text}

/-- **Polylines and polygons are paths.**  Let the points of an element be a number list up to their end, with an
even number of coordinates that is at least four.  Then the polyline draws what the path data of an `M` and the points
draws, and the polygon what the path data of an `M`, the points and a `Z` draws: segment for segment, with coordinates
that compare equal. -/
theorem outline_coincides_path (hpoints : attributes.get? (lit "points") = some points)
    (hrest : (Numeral.list points).2 = []) (heven : (Numeral.values points).length % 2 = 0)
    (hmany : 4 ≤ (Numeral.values points).length) :
    (∃ o o', PathData.outline (lit "M" ++ points) = .ok o ∧ (read .polyline attributes >>= outline) = .ok o' ∧
        List.Forall₂ Segment.Coincides o o') ∧
      ∃ o o', PathData.outline (lit "M" ++ points ++ lit "Z") = .ok o ∧
        (read .polygon attributes >>= outline) = .ok o' ∧ List.Forall₂ Segment.Coincides o o' := by
  obtain ⟨hline, hgon⟩ := outline_of_points hpoints heven
  obtain ⟨hopen, hclosed⟩ := PathData.outline_move hrest heven
  rw [polyOutline_eq hmany] at hline hgon
  have hcoincide : List.Forall₂ (fun p q => p.coincides q = true)
      ((Point.pairs (Numeral.values points)).map (· + .origin)) (Point.pairs (Numeral.values points)) := by
    rw [List.forall₂_map_left_iff, List.forall₂_same]
    exact fun p hp => Point.coincides_add_origin hp
  exact ⟨⟨_, _, hopen, hline, Outline.coincides_through hcoincide false⟩,
    ⟨_, _, hclosed, hgon, Outline.coincides_through hcoincide true⟩⟩

/-- Four points in packed numerals; the last is the first with a negative zero. -/
def packedPoints : Text := lit "0,0 5-.5.5 1 0-0\n"

theorem outline_coincides_path_packed :
    (Numeral.list packedPoints).2 = [] ∧ (Numeral.values packedPoints).length = 8 ∧
      ∃ o o', PathData.outline (lit "M" ++ packedPoints ++ lit "Z") = .ok o ∧
        (read .polygon ⟨[(lit "points", packedPoints)]⟩ >>= outline) = .ok o' ∧
          List.Forall₂ Segment.Coincides o o' := by
  have hpoints : (Table.mk [(lit "points", packedPoints)]).get? (lit "points") = some packedPoints := by decide +kernel
  have hrest : (Numeral.list packedPoints).2 = [] := by decide +kernel
  have hlength : (Numeral.values packedPoints).length = 8 := by decide +kernel
  exact ⟨hrest, hlength, (outline_coincides_path hpoints hrest (by rw [hlength]) (by rw [hlength]; decide)).2⟩

end Figure
end Pictogram
