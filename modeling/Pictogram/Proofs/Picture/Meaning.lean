import Pictogram.Picture.Compile
import Pictogram.Proofs.Markup.Tree

/-! # The picture of an element tree

The meaning of a tree is defined by recursion over it, without a reader: `Node.shapes` gives the
shapes of a node or the first fault in document order, and `Document.picture` checks the root, reads
its view box and collects the shapes of its children.  Compiling a text gives the picture of the tree
that its tokens make up to the end of the first element (`compile_eq_picture`). -/

namespace Pictogram

/-- The shape that attributes describe; `none` if it is not painted. -/
def Shape.ofAttributes (kind : FigureKind) (attributes : Table) : Except Fault (Option Shape) := do
  let style ← Style.read attributes
  let figure ← Figure.read kind attributes
  Shape.ofFigure? figure style

namespace Node

mutual

/-- The shapes of a node in document order.  A `g` stands for its children, a `title` for nothing,
and the children of a shape element do not matter. -/
def shapes : Node → Except CompileError (List Shape)
  | text .. => .ok []
  | element name attributes place _ children =>
      if name.tag = lit "g" then shapesAll children
      else if name.tag = lit "title" then .ok []
      else match FigureKind.ofName? name.tag with
        | none => .error ((Fault.unsupportedElement name.tag).placed place)
        | some kind =>
          match Shape.ofAttributes kind attributes with
          | .error f => .error (f.placed place)
          | .ok shape => .ok shape.toList

def shapesAll : List Node → Except CompileError (List Shape)
  | [] => .ok []
  | n :: ns => do
      let first ← shapes n
      let others ← shapesAll ns
      return first ++ others

end

end Node

/-- What a text holds up to the end of its first element: texts, and the element. -/
structure Document where
  leading : List (Text × Position)
  name : ElementName
  attributes : Table
  place : Position
  closedAt : Position
  children : List Node

namespace Document

def root (d : Document) : Node := .element d.name d.attributes d.place d.closedAt d.children

def tokens (d : Document) : List Token :=
  d.leading.map (fun t => .text t.1 t.2) ++ d.root.tokens

/-- The picture of a document: the root is checked, its tag before its namespace, then its view box
is read, then come the shapes. -/
def picture (d : Document) : Except CompileError Picture :=
  if d.name.tag ≠ lit "svg" then .error ((Fault.invalidRoot d.name.tag).placed d.place)
  else if d.name.space ≠ Picture.svgNamespace then
    .error ((Fault.unsupportedNamespace d.name.space).placed d.place)
  else match ViewBox.readOptional (d.attributes.get? (lit "viewBox")) with
    | .error f => .error (f.placed d.place)
    | .ok viewBox => (Node.shapesAll d.children).map fun shapes => { viewBox, shapes }

end Document

namespace Picture

open Reader

/-! ### Shape elements -/

theorem readShape_of_skip {r r' : Reader} (kind : FigureKind) (attributes : Table) (place : Position)
    (h : r.skip = .ok () r') : readShape kind attributes place r =
      match Shape.ofAttributes kind attributes with
      | .error f => .error (f.placed place)
      | .ok shape => .ok (shape, r') := by
  simp only [readShape, Shape.ofAttributes, h]
  cases Style.read attributes with
  | error f => rfl
  | ok style =>
      cases Figure.read kind attributes with
      | error f => rfl
      | ok figure =>
          cases hs : Shape.ofFigure? figure style with
          | error f => simp only [bind, Except.bind, inElement_ok, inElement_error, ofOutcome, hs]
          | ok shape => simp only [bind, Except.bind, inElement_ok, ofOutcome, hs]; rfl

/-! ### The walk -/

namespace Walk

theorem run_of_next {w : Walk} {s : Reader} {t : Token} (h : w.reader.next = .ok (some t) s) :
    w.run = match Walk.take { w with reader := s } t with
      | .error e => .error e
      | .ok none => .ok (w.found.toList, s)
      | .ok (some w') => w'.run := by
  rw [run]
  split
  · simp_all
  · simp_all
  · next t' s' h' =>
    rw [h] at h'
    cases h'
    split <;> simp_all

theorem run_of_closing {found : Array Shape} {r s : Reader} {name : ElementName} {place : Position}
    (h : r.next = .ok (some (.closing name place)) s) (depth : Nat) :
    run ⟨depth + 1, found, r⟩ = run ⟨depth, found, s⟩ := by
  rw [run_of_next h]
  rfl

mutual

/-- The walk takes a node as a whole: it adds the shapes of the node or stops at its fault. -/
theorem run_of_yields : ∀ {n : Node} {r r' : Reader} (depth : Nat) (found : Array Shape), r.Settled →
    Yields r n.tokens r' → run ⟨depth, found, r⟩ =
      (n.shapes >>= fun shapes => run ⟨depth, found ++ shapes.toArray, r'⟩)
  | .text content place, r, r', depth, found, hr, h => by
      obtain ⟨s, hn, hs⟩ := yields_cons_iff.mp h
      obtain rfl := yields_nil_iff.mp hs
      rw [run_of_next hn]
      simp [take, Node.shapes, bind, Except.bind]
  | .element name attributes place closedAt children, r, r', depth, found, hr, h => by
      obtain ⟨s, hn, hs⟩ := yields_cons_iff.mp h
      obtain ⟨s', hc, hl⟩ := yields_append_iff.mp hs
      obtain ⟨s'', hn', he⟩ := yields_cons_iff.mp hl
      obtain rfl := yields_nil_iff.mp he
      obtain ⟨_, settled⟩ := nests_of_next hr hn
      have hskip := skip_of_yields settled hc hn'
      rw [run_of_next hn]
      simp only [take, Node.shapes]
      by_cases hg : name.tag = lit "g"
      · simp only [if_pos hg]
        rw [run_of_yields_all (depth + 1) found settled hc]
        simp only [run_of_closing hn']
      · simp only [if_neg hg]
        by_cases ht : name.tag = lit "title"
        · simp [if_pos ht, hskip, ofOutcome, bind, Except.bind, pure, Except.pure]
        · simp only [if_neg ht]
          cases hk : FigureKind.ofName? name.tag with
          | none => rfl
          | some kind =>
              simp only [readShape_of_skip kind attributes place hskip]
              cases hs : Shape.ofAttributes kind attributes with
              | error f => rfl
              | ok shape => cases shape <;> simp [bind, Except.bind, pure, Except.pure]

theorem run_of_yields_all : ∀ {ns : List Node} {r r' : Reader} (depth : Nat) (found : Array Shape),
    r.Settled → Yields r (Node.tokensAll ns) r' → run ⟨depth, found, r⟩ =
      (Node.shapesAll ns >>= fun shapes => run ⟨depth, found ++ shapes.toArray, r'⟩)
  | [], r, r', depth, found, hr, h => by
      rw [yields_nil_iff.mp h]
      simp [Node.shapesAll, bind, Except.bind]
  | n :: ns, r, r', depth, found, hr, h => by
      obtain ⟨s, hn, hs⟩ := yields_append_iff.mp h
      obtain ⟨_, settled⟩ := opened_of_yields hr hn
      rw [run_of_yields depth found hr hn]
      simp only [Node.shapesAll]
      cases n.shapes with
      | error e => rfl
      | ok first =>
          simp only [bind, Except.bind]
          rw [run_of_yields_all depth _ settled hs]
          cases Node.shapesAll ns with
          | error e => rfl
          | ok others => simp [bind, Except.bind, pure, Except.pure, Array.append_assoc]

end

end Walk

/-! ### The root -/

theorem findRoot_of_text {r s : Reader} {content : Text} {place : Position}
    (h : r.next = .ok (some (.text content place)) s) : findRoot r = findRoot s := by
  rw [findRoot]
  split <;> simp_all [Token.opening?]

theorem findRoot_of_opening {r s : Reader} {name : ElementName} {attributes : Table} {place : Position}
    (h : r.next = .ok (some (.opening name attributes place)) s) :
    findRoot r = .ok ((name, attributes, place), s) := by
  rw [findRoot]
  split <;> simp_all [Token.opening?]

/-- Texts before the root do not matter. -/
theorem findRoot_of_yields {texts : List (Text × Position)} {r r' : Reader} (hr : r.Settled)
    (h : Yields r (texts.map fun t => .text t.1 t.2) r') : findRoot r = findRoot r' ∧ r'.Settled := by
  induction texts generalizing r with
  | nil =>
      obtain rfl := yields_nil_iff.mp h
      exact ⟨rfl, hr⟩
  | cons t texts ih =>
      obtain ⟨s, hn, hs⟩ := yields_cons_iff.mp h
      obtain ⟨e, settled⟩ := ih (nests_of_next hr hn).2 hs
      exact ⟨(findRoot_of_text hn).trans e, settled⟩

/-- Reading a document gives its picture. -/
theorem read_of_yields {d : Document} {r r' : Reader} (hr : r.Settled) (h : Yields r d.tokens r') :
    read r = d.picture.map fun p => (p, r') := by
  obtain ⟨s, ht, hroot⟩ := yields_append_iff.mp h
  obtain ⟨s₁, hn, hs⟩ := yields_cons_iff.mp hroot
  obtain ⟨s₂, hc, hl⟩ := yields_append_iff.mp hs
  obtain ⟨s₃, hn', he⟩ := yields_cons_iff.mp hl
  obtain rfl := yields_nil_iff.mp he
  obtain ⟨hfind, settled⟩ := findRoot_of_yields hr ht
  have hrun : Walk.run ⟨0, #[], s₁⟩ = (Node.shapesAll d.children).map fun shapes => (shapes, r') := by
    rw [Walk.run_of_yields_all 0 #[] (nests_of_next settled hn).2 hc]
    cases Node.shapesAll d.children with
    | error e => rfl
    | ok shapes =>
        simp only [bind, Except.bind, Except.map]
        rw [Walk.run_of_next hn']
        simp [Walk.take]
  unfold read Document.picture
  rw [hfind, findRoot_of_opening hn]
  simp only [bind, Except.bind, hrun]
  by_cases htag : d.name.tag = lit "svg"
  · by_cases hspace : d.name.space = svgNamespace
    · simp only [htag, hspace, ne_eq, not_true_eq_false, if_false, pure, Except.pure]
      cases ViewBox.readOptional (d.attributes.get? (lit "viewBox")) with
      | error f => rfl
      | ok viewBox =>
          cases Node.shapesAll d.children with
          | error e => rfl
          | ok shapes => rfl
    · simp [htag, hspace, throw, throwThe, MonadExceptOf.throw, Except.map]
  · simp [htag, throw, throwThe, MonadExceptOf.throw, Except.map]

/-- **Compiling is the meaning of the tree**: if the first tokens of a text are those of a document,
the text compiles to the picture of that document, or fails with its first fault. -/
theorem compile_eq_picture {text : Text} {d : Document} {r : Reader}
    (h : Yields (.ofText text) d.tokens r) : compile text = d.picture := by
  unfold compile
  rw [read_of_yields (settled_ofText text) h]
  cases d.picture <;> rfl

def sampleText : Text :=
  lit ("\n<svg xmlns='http://www.w3.org/2000/svg'><g fill='red'><title>a<rect x='?'/></title>" ++
    "<rect width='2' height='1' fill='#010203'><b/></rect></g><path d='?'/></svg><")

/-- The document in `sampleText`: a group around a title with markup of its own and a painted shape
with a child, and a shape that is not painted. -/
def sampleDocument : Document :=
  let name (tag : String) : ElementName := ⟨svgNamespace, lit tag⟩
  { leading := [(lit "\n", ⟨1, 1⟩)]
    name := name "svg"
    attributes := .empty
    place := ⟨2, 1⟩
    closedAt := ⟨2, 154⟩
    children :=
      [.element (name "g") ⟨[(lit "fill", lit "red")]⟩ ⟨2, 41⟩ ⟨2, 137⟩
        [.element (name "title") .empty ⟨2, 55⟩ ⟨2, 76⟩
          [.text (lit "a") ⟨2, 62⟩, .element (name "rect") ⟨[(lit "x", lit "?")]⟩ ⟨2, 63⟩ ⟨2, 63⟩ []],
        .element (name "rect") ⟨[(lit "width", lit "2"), (lit "height", lit "1"), (lit "fill", lit "#010203")]⟩
          ⟨2, 84⟩ ⟨2, 130⟩ [.element (name "b") .empty ⟨2, 126⟩ ⟨2, 126⟩ []]],
      .element (name "path") ⟨[(lit "d", lit "?")]⟩ ⟨2, 141⟩ ⟨2, 141⟩ []] }

theorem compile_sampleText :
    ∃ r, Yields (.ofText sampleText) sampleDocument.tokens r ∧
      compile sampleText = sampleDocument.picture ∧
      (compile sampleText).toOption.map (fun p => p.shapes.map Shape.outline) =
        some [Figure.rectOutline ⟨0, 0⟩ ⟨2, 1⟩] := by
  obtain ⟨r, h⟩ := yields_drain (.ofText sampleText)
  rw [show (drain (.ofText sampleText)).1 = sampleDocument.tokens by decide +kernel] at h
  refine ⟨r, h, compile_eq_picture h, ?_⟩
  rw [compile_eq_picture h]
  decide +kernel

end Picture
end Pictogram
