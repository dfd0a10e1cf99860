import Pictogram.Proofs.Picture.Blame
import Pictogram.Proofs.Picture.Truncation

/-! # Elements as scopes

The root, each group and each shape element is a scope.  What goes wrong with a value inside an element has no place
when it is found, and gets one where it leaves the innermost scope; the scopes around that one leave it as it is
(`inScope_inScope`).  `readScoped` reads a document in this way, by recursion: the content of a group is read in the
scope of the group, which lies in those of the elements around it.

`Walk.run` has a number of open groups in the place of this recursion, and puts each error where it is found.  Both give
the same (`read_eq_readScoped`), since every error that the content of an element leaves behind has a place already
(`placed_children`). -/

namespace Pictogram

/-! ### The innermost place wins -/

namespace Located

variable {α : Type}

theorem placedAt_eq_self {e : Located α} (h : e.position.isSome) (p : Position) : e.placedAt p = e := by
  obtain ⟨cause, position⟩ := e
  cases position with
  | none => cases h
  | some q => rfl

theorem isSome_placedAt (e : Located α) (p : Position) : (e.placedAt p).position.isSome := by
  obtain ⟨cause, position⟩ := e
  cases position <;> rfl

end Located

namespace Picture

open Reader

variable {α β : Type} {x : Except CompileError α} {place outer : Position}

/-- An error has a place. -/
def Placed (x : Except CompileError α) : Prop := Ends (fun _ => True) (fun e => e.position.isSome) x

theorem Placed.bind {f : α → Except CompileError β} (hx : Placed x) (hf : ∀ a, x = .ok a → Placed (f a)) :
    Placed (x >>= f) := by
  cases x with
  | error e => exact hx
  | ok a => exact hf a rfl

theorem placed_inScope (place : Position) (x : Except CompileError α) : Placed (inScope place x) := by
  cases x with
  | error e => exact e.isSome_placedAt place
  | ok a => trivial

theorem inScope_eq_self (h : Placed x) (place : Position) : inScope place x = x := by
  cases x with
  | error e => exact congrArg Except.error (Located.placedAt_eq_self h place)
  | ok a => rfl

/-- **A scope does not overwrite the place that a scope inside it has given.** -/
theorem inScope_inScope : inScope outer (inScope place x) = inScope place x :=
  inScope_eq_self (placed_inScope place x) outer

theorem inScope_bind (place : Position) (x : Except CompileError α) (f : α → Except CompileError β) :
    inScope place (x >>= f) = inScope place x >>= fun a => inScope place (f a) := by
  cases x <;> rfl

theorem placed_ofOutcome_skip (r : Reader) : Placed (ofOutcome r.skip) := by
  cases hs : r.skip with
  | ok a s => trivial
  | error e s =>
      obtain ⟨-, f, p, rfl, -, -⟩ := located_of_skipTo hs
      rfl

/-! ### Shape elements -/

/-- A shape element, with faults of its values that have no place yet. -/
def shapeOf (kind : FigureKind) (attributes : Table) (r : Reader) : Except CompileError (Option Shape × Reader) := do
  let style ← (Style.read attributes).mapError Fault.unplaced
  let figure ← (Figure.read kind attributes).mapError Fault.unplaced
  let (_, r) ← ofOutcome r.skip
  let shape ← (Shape.ofFigure? figure style).mapError Fault.unplaced
  return (shape, r)

theorem inScope_shapeOf (kind : FigureKind) (attributes : Table) (r : Reader) :
    inScope place (shapeOf kind attributes r) = readShape kind attributes place r := by
  simp only [shapeOf, readShape, inScope_bind, inScope_eq_self (placed_ofOutcome_skip r)]
  rfl

theorem placed_readShape {kind : FigureKind} {attributes : Table} {r : Reader} :
    Placed (readShape kind attributes place r) := by
  rw [← inScope_shapeOf]
  exact placed_inScope _ _

/-! ### Content -/

/-- The shapes found, and a reader that has come further than `r`. -/
abbrev Later (r : Reader) := { p : Array Shape × Reader // p.2.budget < r.budget }

def Later.weaken {r s : Reader} (h : s.budget < r.budget) (p : Later s) : Later r := ⟨p.1, Nat.lt_trans p.2 h⟩

/-- Reads the content of an element and its closing tag, and adds the shapes to those found before. -/
def content (found : Array Shape) (r : Reader) : Except CompileError (Later r) :=
  match hn : r.next with
  | .error e _ => .error e
  | .ok none s => .error s.unexpectedEnd
  | .ok (some t) s =>
    have hs := Reader.budget_lt_of_next hn
    match t with
    | .text .. => (content found s).map (.weaken hs)
    | .closing .. => .ok ⟨(found, s), hs⟩
    | .opening name attributes place =>
      if name.tag = lit "g" then do
        let group ← inScope place (content found s)
        have hgroup := Nat.lt_trans group.2 hs
        (content group.1.1 group.1.2).map (.weaken hgroup)
      else if name.tag = lit "title" then
        match hskip : ofOutcome s.skip with
        | .error e => .error e
        | .ok (_, s') =>
          have hs' := Nat.lt_trans (budget_lt_of_skip hskip) hs
          (content found s').map (.weaken hs')
      else match FigureKind.ofName? name.tag with
        | none => .error ((Fault.unsupportedElement name.tag).placed place)
        | some kind =>
          match hshape : inScope place (shapeOf kind attributes s) with
          | .error e => .error e
          | .ok (shape, s') =>
            have hs' := Nat.lt_trans (budget_lt_of_readShape (inScope_shapeOf kind attributes s ▸ hshape)) hs
            (content (found ++ shape.toArray) s').map (.weaken hs')
termination_by r.budget

/-- Reads the content of an element, and the reader behind its closing tag. -/
def children (found : Array Shape) (r : Reader) : Except CompileError (Array Shape × Reader) :=
  (content found r).map Subtype.val

section children

variable {found : Array Shape} {r s : Reader}

theorem map_val_map_weaken (h : s.budget < r.budget) (x : Except CompileError (Later s)) :
    (x.map (Later.weaken h)).map Subtype.val = x.map Subtype.val := by
  cases x <;> rfl

theorem children_of_next_error {e : CompileError} (h : r.next = .error e s) : children found r = .error e := by
  rw [children, content]
  split <;> simp_all [Except.map]

theorem children_of_next_none (h : r.next = .ok none s) : children found r = .error s.unexpectedEnd := by
  rw [children, content]
  split <;> simp_all [Except.map]

/-- A group and a shape element are read in their scopes, and what follows them is not. -/
theorem children_of_next {t : Token} (h : r.next = .ok (some t) s) :
    children found r = (match t with
      | .text .. => children found s
      | .closing .. => .ok (found, s)
      | .opening name attributes place =>
        if name.tag = lit "g" then do
          let (found, s) ← inScope place (children found s)
          children found s
        else if name.tag = lit "title" then do
          let (_, s) ← ofOutcome s.skip
          children found s
        else match FigureKind.ofName? name.tag with
          | none => .error ((Fault.unsupportedElement name.tag).placed place)
          | some kind => do
            let (shape, s) ← inScope place (shapeOf kind attributes s)
            children (found ++ shape.toArray) s) := by
  rw [children, content]
  split
  · simp_all
  · simp_all
  · next hn =>
    cases h.symm.trans hn
    cases t with
    | text t place => exact map_val_map_weaken _ _
    | closing name place => rfl
    | opening name attributes place =>
        dsimp only
        split
        · unfold children
          cases content found s with
          | error e => rfl
          | ok group => exact map_val_map_weaken _ _
        · split
          · split
            · next hskip =>
              rw [hskip]
              rfl
            · next hskip =>
              rw [map_val_map_weaken, hskip]
              rfl
          · split
            · rfl
            · split
              · next hshape =>
                rw [hshape]
                rfl
              · next hshape =>
                rw [map_val_map_weaken, hshape]
                rfl

theorem budget_lt_of_children {p : Array Shape × Reader} (h : children found r = .ok p) : p.2.budget < r.budget := by
  unfold children at h
  cases hcontent : content found r with
  | error e =>
      rw [hcontent] at h
      cases h
  | ok out =>
      rw [hcontent] at h
      cases h
      exact out.2

theorem budget_lt_of_inScope_children {p : Array Shape × Reader} (h : inScope place (children found r) = .ok p) :
    p.2.budget < r.budget := by
  cases hchildren : children found r with
  | error e =>
      rw [hchildren] at h
      cases h
  | ok q =>
      rw [hchildren] at h
      cases h
      exact budget_lt_of_children hchildren

/-- Induction along the tokens of content: what an opening tag begins, and what follows it, is read by readers that have
come further. -/
theorem content_induction {motive : Array Shape → Reader → Prop}
    (fault : ∀ found r e s, r.next = .error e s → motive found r)
    (ended : ∀ found r s, r.next = .ok none s → motive found r)
    (text : ∀ found r s t place, r.next = .ok (some (.text t place)) s → motive found s → motive found r)
    (closing : ∀ found r s name place, r.next = .ok (some (.closing name place)) s → motive found r)
    (opening : ∀ found r s name attributes place, r.next = .ok (some (.opening name attributes place)) s →
      (∀ found' s', s'.budget ≤ s.budget → motive found' s') → motive found r)
    (found : Array Shape) (r : Reader) : motive found r := by
  induction hb : r.budget using Nat.strong_induction_on generalizing found r with
  | _ b ih =>
    subst hb
    match hn : r.next with
    | .error e s => exact fault found r e s hn
    | .ok none s => exact ended found r s hn
    | .ok (some (.text t place)) s => exact text found r s t place hn (ih _ (budget_lt_of_next hn) found s rfl)
    | .ok (some (.closing name place)) s => exact closing found r s name place hn
    | .ok (some (.opening name attributes place)) s =>
        refine opening found r s name attributes place hn ?_
        intro found' s' hs'
        exact ih _ (Nat.lt_of_le_of_lt hs' (budget_lt_of_next hn)) found' s' rfl

/-- Every error of the content of an element has a place. -/
theorem placed_children (found : Array Shape) (r : Reader) : Placed (children found r) := by
  induction found, r using content_induction with
  | fault found r e s hn =>
      rw [children_of_next_error hn]
      obtain ⟨f, p, rfl, -, -⟩ := (fails_of_next hn).located
      rfl
  | ended found r s hn =>
      rw [children_of_next_none hn]
      rfl
  | text found r s t place hn ih =>
      rw [children_of_next hn]
      exact ih
  | closing found r s name place hn =>
      rw [children_of_next hn]
      trivial
  | opening found r s name attributes place hn ih =>
      simp only [children_of_next hn]
      split
      · apply (placed_inScope place _).bind
        intro p hp
        exact ih _ _ (budget_lt_of_inScope_children hp).le
      · split
        · apply (placed_ofOutcome_skip s).bind
          intro p hp
          exact ih _ _ (budget_lt_of_skip hp).le
        · split
          · rfl
          · rw [inScope_shapeOf]
            apply placed_readShape.bind
            intro p hp
            exact ih _ _ (budget_lt_of_readShape hp).le

/-- **A scope around an element leaves every error of the content as it is.** -/
theorem inScope_children : inScope outer (children found r) = children found r :=
  inScope_eq_self (placed_children found r) outer

/-! ### The walk -/

/-- Goes on with the walk behind the closing tag of the innermost group, or of the root. -/
def Walk.goOn : Nat → Array Shape × Reader → Except CompileError (List Shape × Reader)
  | 0, (found, r) => .ok (found.toList, r)
  | depth + 1, (found, r) => run ⟨depth, found, r⟩

/-- The walk reads the content of the innermost element, and goes on behind it. -/
theorem run_eq_children (depth : Nat) (found : Array Shape) (r : Reader) :
    Walk.run ⟨depth, found, r⟩ = children found r >>= Walk.goOn depth := by
  induction found, r using content_induction generalizing depth with
  | fault found r e s hn =>
      rw [children_of_next_error hn, Walk.run_of_next_error hn]
      rfl
  | ended found r s hn =>
      rw [children_of_next_none hn, Walk.run_of_next_none hn]
      rfl
  | text found r s t place hn ih =>
      rw [children_of_next hn, Walk.run_of_next hn]
      exact ih depth
  | closing found r s name place hn =>
      rw [children_of_next hn, Walk.run_of_next hn]
      cases depth <;> rfl
  | opening found r s name attributes place hn ih =>
      rw [children_of_next hn, Walk.run_of_next hn]
      simp only [Walk.take]
      by_cases hgroup : name.tag = lit "g"
      · simp only [if_pos hgroup]
        rw [ih found s (Nat.le_refl _) (depth + 1), inScope_children]
        cases hchildren : children found s with
        | error e => rfl
        | ok p => exact ih _ _ (budget_lt_of_children hchildren).le depth
      · simp only [if_neg hgroup]
        by_cases htitle : name.tag = lit "title"
        · simp only [if_pos htitle]
          cases hskip : ofOutcome s.skip with
          | error e => rfl
          | ok p => exact ih _ _ (budget_lt_of_skip hskip).le depth
        · simp only [if_neg htitle]
          cases FigureKind.ofName? name.tag with
          | none => rfl
          | some kind =>
              simp only [inScope_shapeOf]
              cases hshape : readShape kind attributes place s with
              | error e => rfl
              | ok p => exact ih _ _ (budget_lt_of_readShape hshape).le depth

end children

/-! ### Documents -/

/-- Reads a document with the root in its scope. -/
def readScoped (r : Reader) : Except CompileError (Picture × Reader) := do
  let ((name, attributes, place), r) ← findRoot r
  if name.tag ≠ lit "svg" then throw ((Fault.invalidRoot name.tag).placed place)
  if name.space ≠ svgNamespace then throw ((Fault.unsupportedNamespace name.space).placed place)
  inScope place do
    let viewBox ← (ViewBox.readOptional (attributes.get? (lit "viewBox"))).mapError Fault.unplaced
    let (shapes, r) ← children #[] r
    return ({ viewBox, shapes := shapes.toList }, r)

/-- **Reading is reading in scopes.**  The walk places each fault where the innermost scope does. -/
theorem read_eq_readScoped (r : Reader) : read r = readScoped r := by
  unfold read readScoped
  congr
  funext ⟨⟨name, attributes, place⟩, s⟩
  simp only [inScope_bind, inScope_children, run_eq_children]
  cases children #[] s with
  | error e => rfl
  | ok p => rfl

end Picture
end Pictogram
