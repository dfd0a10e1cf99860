import Pictogram.Proofs.Figure.Outlines
import Pictogram.Proofs.Paint.Channels
import Pictogram.Proofs.Picture.Documents

/-! # What a picture always is

The shapes of a picture belong to the shape elements of its document, one to one and in document order, without the
elements that have neither a fill nor a stroke (`Node.figures`, `Style.paints`).  Each shape has a colour, its colours
are those that the attributes spell, and its outline has the form of its kind (`Shape.Draws`).  This holds of every
text that compiles (`forall₂_draws_of_compile`). -/

namespace Pictogram

/-! ### Painted elements -/

/-- Attributes paint a shape if they give it a fill or a stroke other than `none`. -/
def Style.paints (attributes : Table) : Bool :=
  (attributes.get? (lit "fill")).any (· != lit "none") || (attributes.get? (lit "stroke")).any (· != lit "none")

namespace Node

mutual

/-- The shape elements of a node that are not inside one another, in document order. -/
def figures : Node → List (FigureKind × Table)
  | text .. => []
  | element name attributes _ _ children =>
      if name.tag = lit "g" then figuresAll children
      else (FigureKind.ofName? name.tag).toList.map fun kind => (kind, attributes)

def figuresAll : List Node → List (FigureKind × Table)
  | [] => []
  | n :: ns => figures n ++ figuresAll ns

end

end Node

/-- The shape elements of a document that paint something. -/
def Document.paintedFigures (d : Document) : List (FigureKind × Table) :=
  (Node.figuresAll d.children).filter fun figure => Style.paints figure.2

/-- The colour of a paint, if it has one, is the number of the four channels that an attribute spells. -/
def Paint.IsSpelled (value : Option Text) (paint : Paint) : Prop :=
  ∀ c, paint = .solid c → ∃ text ∈ value, ∃ alpha red green blue, Color.Spells text alpha red green blue ∧
    c.argb.toNat = alpha.toNat * 0x1000000 + red.toNat * 0x10000 + green.toNat * 0x100 + blue.toNat ∧
    c.argb.toNat < 0x100000000

/-- What the shape of an element of the given kind and attributes always is. -/
structure Shape.Draws (figure : FigureKind × Table) (shape : Shape) : Prop where
  isPainted : shape.fill.isSolid = true ∨ shape.stroke.isSolid = true
  fill : shape.fill.IsSpelled (figure.2.get? (lit "fill"))
  stroke : shape.stroke.IsSpelled (figure.2.get? (lit "stroke"))
  outline : figure.1.Outlines figure.2 shape.outline
  /-- Only path data moves again. -/
  moveTo_notMem_tail : figure.1 ≠ .path → ∀ p, .moveTo p ∉ shape.outline.tail
  /-- The outline comes back to the very point where it starts. -/
  point_trace : figure.1 ∈ [.rect, .circle, .ellipse] →
    ∀ start, shape.outline.head? = some (.moveTo start) → (Pen.home.trace shape.outline).point = start
  coincides_trace : figure.1 = .polygon →
    ∀ start, shape.outline.head? = some (.moveTo start) → (Pen.home.trace shape.outline).point.coincides start = true

/-! ### One shape -/

theorem Paint.isSpelled_of_readPaint {value : Option Text} {paint : Paint} (h : Style.readPaint value = .ok paint) :
    paint.IsSpelled value := by
  rintro c rfl
  obtain ⟨text, htext, alpha, red, green, blue, hspells, rfl⟩ := Style.spells_of_readPaint h
  exact ⟨text, htext, alpha, red, green, blue, hspells, Color.toNat_ofChannels .., UInt32.toNat_lt _⟩

theorem Style.ends_paints (attributes : Table) :
    Ends (fun style => readPaint (attributes.get? (lit "fill")) = .ok style.fill ∧
        readPaint (attributes.get? (lit "stroke")) = .ok style.stroke)
      (fun _ => True) (read attributes) := by
  apply (Ends.self _).bind
  intro transform _
  apply (Ends.self _).bind
  intro fill hfill
  apply (Ends.self _).bind
  intro stroke hstroke
  apply (Ends.self _).bind
  intro width _
  exact ⟨hfill, hstroke⟩

theorem Style.isPainted_eq_paints {attributes : Table} {style : Style}
    (hfill : readPaint (attributes.get? (lit "fill")) = .ok style.fill)
    (hstroke : readPaint (attributes.get? (lit "stroke")) = .ok style.stroke) :
    style.isPainted = paints attributes := by
  rw [isPainted, isSolid_of_readPaint hfill, isSolid_of_readPaint hstroke, paints]

/-- An element has a shape exactly if it paints something. -/
theorem Shape.ends_ofAttributes (kind : FigureKind) (attributes : Table) :
    Ends (fun shape : Option Shape =>
        List.Forall₂ Draws ([(kind, attributes)].filter fun x => Style.paints x.2) shape.toList)
      (fun _ => True) (ofAttributes kind attributes) := by
  apply (Style.ends_paints attributes).bind
  rintro style ⟨hfill, hstroke⟩
  have hpaints := Style.isPainted_eq_paints hfill hstroke
  apply (Figure.ends_outline kind attributes).bind
  intro figure hfigure
  unfold ofFigure?
  split
  · next hpainted =>
    apply hfigure.bind
    intro o ho
    have hdraws : Draws (kind, attributes) ⟨style.transform, o, style.fill, style.stroke, style.line⟩ :=
      { isPainted := by simpa [Style.isPainted] using hpainted
        fill := Paint.isSpelled_of_readPaint hfill
        stroke := Paint.isSpelled_of_readPaint hstroke
        outline := ho
        moveTo_notMem_tail := ho.moveTo_notMem_tail
        point_trace := fun hkind _ => ho.point_trace hkind
        coincides_trace := by
          rintro rfl start
          exact ho.coincides_trace }
    rw [List.filter_singleton, ← hpaints, hpainted]
    exact .cons hdraws .nil
  · next hpainted =>
    rw [List.filter_singleton, ← hpaints, Bool.eq_false_iff.mpr hpainted]
    exact .nil

/-! ### All shapes -/

namespace Node

mutual

/-- The shapes of a node are those of its painted elements. -/
theorem ends_shapes : ∀ n : Node,
    Ends (fun shapes => List.Forall₂ Shape.Draws (n.figures.filter fun x => Style.paints x.2) shapes) (fun _ => True)
      n.shapes
  | .text content place => by
      rw [shapes, figures]
      exact .nil
  | .element name attributes place closedAt children => by
      rw [shapes, figures]
      split
      · exact ends_shapesAll children
      · split
        · next htitle =>
          rw [htitle]
          exact .nil
        · cases FigureKind.ofName? name.tag with
          | none => trivial
          | some kind =>
              dsimp only
              cases hfound : Shape.ofAttributes kind attributes with
              | error f => trivial
              | ok shape => exact (Shape.ends_ofAttributes kind attributes).of_eq_ok hfound

theorem ends_shapesAll : ∀ ns : List Node,
    Ends (fun shapes => List.Forall₂ Shape.Draws ((figuresAll ns).filter fun x => Style.paints x.2) shapes)
      (fun _ => True) (shapesAll ns)
  | [] => by
      rw [shapesAll, figuresAll]
      exact .nil
  | n :: ns => by
      rw [shapesAll, figuresAll, List.filter_append]
      apply (ends_shapes n).bind
      intro first hfirst
      apply (ends_shapesAll ns).bind
      intro others hothers
      exact List.rel_append hfirst hothers

end

end Node

theorem Document.ends_picture (d : Document) :
    Ends (fun picture => List.Forall₂ Shape.Draws d.paintedFigures picture.shapes) (fun _ => True) d.picture := by
  unfold picture
  split
  · trivial
  · split
    · trivial
    · split
      · trivial
      · cases hshapes : Node.shapesAll d.children with
        | error e => trivial
        | ok shapes => exact (Node.ends_shapesAll d.children).of_eq_ok hshapes

namespace Picture

/-- **Every shape of a picture is painted and drawn as its element is.**  A text that compiles begins with a document,
whose painted shape elements have the shapes of the picture in order.  A shape has a fill or a stroke with a colour, in
32 bits, and its outline by its kind is: path data without a close; three lines and a close; four curves back to their
very start, or nothing; one line; lines through the listed vertices, or nothing, with a line back for a polygon exactly
if its last vertex differs from its first. -/
theorem forall₂_draws_of_compile {text : Text} {picture : Picture} (h : compile text = .ok picture) :
    ∃ (d : Document) (r : Reader), Reader.Yields (.ofText text) d.tokens r ∧
      List.Forall₂ Shape.Draws d.paintedFigures picture.shapes := by
  obtain ⟨d, r, hyields, hpicture⟩ := compile_eq_ok_iff.mp h
  exact ⟨d, r, hyields, d.ends_picture.of_eq_ok hpicture⟩

/-- A circle that is not painted and one without a radius in a group, and a polygon. -/
def mixedText : Text :=
  lit ("<svg xmlns='http://www.w3.org/2000/svg'><g><circle r='1'/><circle stroke='#00ff0080'/></g>" ++
    "<polygon fill='#0000ff' points='0,0 1,0 1,1'/></svg>")

theorem forall₂_draws_mixedText :
    ∃ (picture : Picture) (d : Document) (r : Reader), compile mixedText = .ok picture ∧
      picture.shapes.map (·.outline.length) = [0, 4] ∧
      Reader.Yields (.ofText mixedText) d.tokens r ∧ List.Forall₂ Shape.Draws d.paintedFigures picture.shapes := by
  have hlengths : (compile mixedText).toOption.map (fun picture => picture.shapes.map (·.outline.length)) =
      some [0, 4] := by decide +kernel
  cases hcompile : compile mixedText with
  | error e =>
      rw [hcompile] at hlengths
      cases hlengths
  | ok picture =>
      rw [hcompile] at hlengths
      obtain ⟨d, r, hyields, hdraws⟩ := forall₂_draws_of_compile hcompile
      exact ⟨picture, d, r, rfl, Option.some.inj hlengths, hyields, hdraws⟩

end Picture
end Pictogram
