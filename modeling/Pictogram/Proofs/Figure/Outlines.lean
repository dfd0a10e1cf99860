import Pictogram.Proofs.Figure.Vertices
import Pictogram.Proofs.Picture.Blame

/-! # The form of an outline

What each kind of figure draws (`FigureKind.Outlines`): a rectangle three lines and a close, a circle or ellipse four
curves that return to the very point where they start, a polyline or polygon lines through its vertices in order, of
which a polygon adds the line back when its last vertex differs from its first.  Path data draws lines and curves, but
closes by a line and never by a close (`PathData.close_notMem_of_outline`).

It follows that only path data moves twice (`Outlines.moveTo_notMem_tail`), and that rectangles, circles, ellipses and
polygons end where they start (`Outlines.point_trace`, `Outlines.coincides_trace`). -/

namespace Pictogram

/-! ### Forms -/

namespace Outline

/-- Four curves from a point back to that point; nothing if the radius is zero. -/
def IsRound (radius : Float) (o : Outline) : Prop :=
  if radius == 0 then o = []
  else ∃ start east south west c₁ c₂ c₃ c₄ c₅ c₆ c₇ c₈ : Point,
    o = [.moveTo start, .cubeTo c₁ c₂ east, .cubeTo c₃ c₄ south, .cubeTo c₅ c₆ west, .cubeTo c₇ c₈ start]

/-- Lines through all the vertices in order, and back to the first if the outline is closed and the last vertex
differs from it; nothing for fewer than two vertices. -/
def Visits (vertices : List Point) (closed : Bool) (o : Outline) : Prop :=
  vertices.length < 2 ∧ o = [] ∨
    ∃ first between last, vertices = first :: (between ++ [last]) ∧
      o = .moveTo first :: (between ++ [last]).map .lineTo ++
        if closed && !last.coincides first then [.lineTo first] else []

/-- The vertices are the coordinates that a text lists, two by two. -/
def VisitsListed (points : Text) (closed : Bool) (o : Outline) : Prop :=
  ∃ vertices : List Point, Numeral.values points = vertices.flatMap (fun p => [p.x, p.y]) ∧ o.Visits vertices closed

end Outline

/-- The outlines of a kind of figure, by the attributes of its element. -/
def FigureKind.Outlines (attributes : Table) (o : Outline) : FigureKind → Prop
  | rect => ∃ a b c d, o = [.moveTo a, .lineTo b, .lineTo c, .lineTo d, .close]
  | circle => ∃ r, readNumber (lit "r") (attributes.get? (lit "r")) = .ok r ∧ o.IsRound r
  | ellipse => ∃ r, readNumber (lit "rx") (attributes.get? (lit "rx")) = .ok r ∧ o.IsRound r
  | line => ∃ a b, o = [.moveTo a, .lineTo b]
  | polygon => o.VisitsListed ((attributes.get? (lit "points")).getD []) true
  | polyline => o.VisitsListed ((attributes.get? (lit "points")).getD []) false
  | path => .close ∉ o

/-! ### Path data -/

namespace PathCommand

theorem close_notMem_draw (s : Tracer) (c : PathCommand) : Segment.close ∉ (c.draw s).1 := by
  cases c with
  | move relative points => cases points <;> simp [draw, moveOutline]
  | line | horizontal | vertical | curve | smooth => simp [draw]
  | close =>
      simp only [draw, Pen.closing]
      split <;> simp

theorem close_notMem_drawAll (s : Tracer) (cs : List PathCommand) : Segment.close ∉ drawAll s cs := by
  induction cs generalizing s with
  | nil => exact List.not_mem_nil
  | cons c cs ih =>
      rw [drawAll, List.mem_append]
      exact not_or.mpr ⟨close_notMem_draw s c, ih _⟩

end PathCommand

theorem PathData.close_notMem_of_outline {d : Text} {o : Outline} (h : outline d = .ok o) : Segment.close ∉ o := by
  unfold outline at h
  split at h
  · next o' ho =>
    cases h
    have hdrawn : o = (trace .home d).1 := by rw [ho]
    rw [hdrawn]
    exact PathCommand.close_notMem_drawAll _ _
  · cases h

/-! ### Figures -/

theorem Point.flatMap_pairs {values : List Float} (h : values.length % 2 = 0) :
    (pairs values).flatMap (fun p => [p.x, p.y]) = values := by
  fun_induction pairs values with
  | case1 x y rest ih =>
      rw [List.length_cons, List.length_cons] at h
      rw [List.flatMap_cons, ih (by omega)]
      rfl
  | case2 values hshort =>
      cases values with
      | nil => rfl
      | cons x rest =>
          cases rest with
          | nil => cases h
          | cons y rest => exact absurd rfl (hshort x y rest)

namespace Figure

theorem isRound_ellipseOutline (center radii : Point) : (ellipseOutline center radii).IsRound radii.x := by
  by_cases hzero : (radii.x == 0) = true
  · rw [Outline.IsRound, if_pos hzero]
    exact if_pos hzero
  · rw [Outline.IsRound, if_neg hzero]
    exact ⟨_, _, _, _, _, _, _, _, _, _, _, _, if_neg hzero⟩

theorem visits_polyOutline (coordinates : List Float) (closed : Bool) :
    (polyOutline coordinates closed).Visits (Point.pairs coordinates) closed := by
  unfold polyOutline
  rcases hps : Point.pairs coordinates with - | ⟨first, - | ⟨second, rest⟩⟩
  · exact .inl ⟨by decide, rfl⟩
  · exact .inl ⟨by simp, rfl⟩
  · have hlast := List.dropLast_append_getLast (List.cons_ne_nil second rest)
    refine .inr ⟨first, (second :: rest).dropLast, (second :: rest).getLast (List.cons_ne_nil _ _), ?_, ?_⟩
    · rw [hlast]
    · rw [hlast]

theorem ends_readCoordinates_listed (value : Text) (closed : Bool) :
    Ends (fun coordinates => (polyOutline coordinates closed).VisitsListed value closed) (fun _ => True)
      (readCoordinates value) := by
  unfold readCoordinates
  dsimp only
  split
  · next heven => exact ⟨_, (Point.flatMap_pairs heven).symm, visits_polyOutline _ closed⟩
  · trivial

/-- The figure of an element has an outline of its kind, if its path data draws one. -/
theorem ends_outline (kind : FigureKind) (attributes : Table) :
    Ends (fun figure => Ends (fun o => kind.Outlines attributes o) (fun _ => True) figure.outline) (fun _ => True)
      (read kind attributes) := by
  unfold read
  cases kind with
  | rect =>
      apply (Ends.self _).bind
      intro x _
      apply (Ends.self _).bind
      intro y _
      apply (Ends.self _).bind
      intro width _
      apply (Ends.self _).bind
      intro height _
      exact ⟨_, _, _, _, rfl⟩
  | circle =>
      apply (Ends.self _).bind
      intro x _
      apply (Ends.self _).bind
      intro y _
      apply (Ends.self _).bind
      intro r hr
      exact ⟨r, hr, isRound_ellipseOutline ⟨x, y⟩ ⟨r, r⟩⟩
  | ellipse =>
      apply (Ends.self _).bind
      intro x _
      apply (Ends.self _).bind
      intro y _
      apply (Ends.self _).bind
      intro rx hrx
      apply (Ends.self _).bind
      intro ry _
      exact ⟨rx, hrx, isRound_ellipseOutline ⟨x, y⟩ ⟨rx, ry⟩⟩
  | line =>
      apply (Ends.self _).bind
      intro x₁ _
      apply (Ends.self _).bind
      intro y₁ _
      apply (Ends.self _).bind
      intro x₂ _
      apply (Ends.self _).bind
      intro y₂ _
      exact ⟨_, _, rfl⟩
  | polygon =>
      apply (ends_readCoordinates_listed _ true).bind
      intro coordinates hlisted
      exact hlisted
  | polyline =>
      apply (ends_readCoordinates_listed _ false).bind
      intro coordinates hlisted
      exact hlisted
  | path =>
      show Ends _ _ (PathData.outline _)
      cases ho : PathData.outline ((attributes.get? (lit "d")).getD []) with
      | error f => trivial
      | ok o => exact PathData.close_notMem_of_outline ho

end Figure

/-! ### Where outlines move and where they end -/

theorem Pen.point_trace_lineTo (p : Pen) (o : Outline) (q : Point) : (p.trace (o ++ [.lineTo q])).point = q := by
  rw [trace, List.foldl_append]
  rfl

namespace Outline

variable {o : Outline}

theorem IsRound.moveTo_notMem_tail {radius : Float} (h : o.IsRound radius) (p : Point) : Segment.moveTo p ∉ o.tail := by
  unfold IsRound at h
  split at h
  · simp [h]
  · obtain ⟨start, east, south, west, c₁, c₂, c₃, c₄, c₅, c₆, c₇, c₈, rfl⟩ := h
    simp

theorem IsRound.point_trace {radius : Float} (h : o.IsRound radius) {start : Point}
    (hstart : o.head? = some (.moveTo start)) : (Pen.home.trace o).point = start := by
  unfold IsRound at h
  split at h
  · rw [h] at hstart
    cases hstart
  · obtain ⟨start', east, south, west, c₁, c₂, c₃, c₄, c₅, c₆, c₇, c₈, rfl⟩ := h
    cases hstart
    rfl

theorem VisitsListed.moveTo_notMem_tail {points : Text} {closed : Bool} (h : o.VisitsListed points closed) (p : Point) :
    Segment.moveTo p ∉ o.tail := by
  obtain ⟨vertices, -, ⟨-, rfl⟩ | ⟨first, between, last, -, rfl⟩⟩ := h
  · simp
  · split <;> simp

end Outline

namespace FigureKind.Outlines

variable {attributes : Table} {o : Outline} {kind : FigureKind}

theorem moveTo_notMem_tail (h : kind.Outlines attributes o) (hkind : kind ≠ .path) (p : Point) :
    Segment.moveTo p ∉ o.tail := by
  cases kind with
  | rect =>
      obtain ⟨a, b, c, d, rfl⟩ := h
      simp
  | line =>
      obtain ⟨a, b, rfl⟩ := h
      simp
  | circle | ellipse =>
      obtain ⟨r, -, hr⟩ := h
      exact hr.moveTo_notMem_tail p
  | polygon | polyline => exact Outline.VisitsListed.moveTo_notMem_tail h p
  | path => exact absurd rfl hkind

/-- Rectangles, circles and ellipses end at the very point where they start. -/
theorem point_trace (h : kind.Outlines attributes o) (hkind : kind ∈ [.rect, .circle, .ellipse]) {start : Point}
    (hstart : o.head? = some (.moveTo start)) : (Pen.home.trace o).point = start := by
  cases kind with
  | rect =>
      obtain ⟨a, b, c, d, rfl⟩ := h
      cases hstart
      rfl
  | circle | ellipse =>
      obtain ⟨r, -, hr⟩ := h
      exact hr.point_trace hstart
  | line | polygon | polyline | path => simp at hkind

/-- A polygon ends where it starts, up to the sign of zeros. -/
theorem coincides_trace (h : FigureKind.polygon.Outlines attributes o) {start : Point}
    (hstart : o.head? = some (.moveTo start)) : (Pen.home.trace o).point.coincides start = true := by
  obtain ⟨vertices, hvalues, ⟨-, rfl⟩ | ⟨first, between, last, rfl, rfl⟩⟩ := h
  · cases hstart
  · cases hstart
    split
    · rw [Pen.point_trace_lineTo, Point.coincides, Bool.and_eq_true]
      constructor
      · apply Numeral.beq_self_of_mem_values
        rw [hvalues]
        simp
      · apply Numeral.beq_self_of_mem_values
        rw [hvalues]
        simp
    · next hlast =>
      have hpoint := Pen.point_trace_lineTo .home (.moveTo start :: between.map .lineTo) last
      rw [List.append_nil, List.map_append, List.map_singleton, ← List.cons_append, hpoint]
      simpa using hlast

end FigureKind.Outlines
end Pictogram
