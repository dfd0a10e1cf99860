import Pictogram.Proofs.Markup.Skipping
import Pictogram.Proofs.Picture.RootElement

/-! # The document behind a picture

A text that has a picture holds a document: its tokens, up to the end of its first element, are those of an element
tree with texts in front.  So compiling succeeds exactly on texts that begin with a document that has a picture
(`compile_eq_ok_iff`).

The walk stays inside the root element (`Walk.Within`): besides the root, as many elements are open as the walk counts
groups.  What it passes over is a whole node (`Reader.Inside.skip_element`), and it ends with the closing token of the
root, behind whole nodes (`Walk.Within.of_run`). -/

namespace Pictogram

/-! ### Passing over an element -/

namespace Reader

variable {e : OpenElement} {outer : List OpenElement} {ts : List Token} {r s s' : Reader}

/-- To open an element and skip to its end is to read a whole node. -/
theorem Inside.skip_element {name : ElementName} {attributes : Table} {place : Position} (h : Inside e outer ts r)
    (hn : r.next = .ok (some (.opening name attributes place)) s) (hs : s.skip = .ok () s') :
    ∃ n : Node, Yields r n.tokens s' ∧ s'.opened = r.opened ∧ Inside e outer (ts ++ n.tokens) s' := by
  obtain ⟨hnests, hsettled⟩ := nests_of_next h.settled hn
  obtain ⟨e', rfl, ho⟩ := hnests.of_opening
  rw [skip, ho, List.length_cons] at hs
  obtain ⟨us, children, closedAt, hyields, hchildren, hopened⟩ := (inside_of_opened hsettled ho).of_skipTo hs
  obtain rfl : us = Node.tokensAll children := hchildren
  have hnode : Yields r (Node.element e'.name attributes place closedAt children).tokens s' := by
    rw [Node.tokens]
    exact .cons hn hyields
  obtain ⟨starts, inner, hstarts, hnames, hinner⟩ := h.unfinished
  refine ⟨_, hnode, hopened, (opened_of_yields h.settled hnode).2, starts, inner, hstarts.append_node _, hnames, ?_⟩
  rw [hopened, hinner]

end Reader

namespace Picture

open Reader

/-! ### The walk -/

namespace Walk

/-- Behind the tokens `ts` inside the root `e`, a walk has as many further elements open as it counts groups. -/
structure Within (e : OpenElement) (outer : List OpenElement) (ts : List Token) (w : Walk) : Prop where
  inside : Reader.Inside e outer ts w.reader
  length_opened : w.reader.opened.length = outer.length + 1 + w.depth

variable {e : OpenElement} {outer : List OpenElement} {ts : List Token} {w w' : Walk} {s : Reader} {t : Token}

/-- At an opening token the walk enters a group, or skips the element. -/
theorem cases_of_take_opening {name : ElementName} {attributes : Table} {place : Position}
    (h : w.take (.opening name attributes place) = .ok (some w')) :
    (w'.depth = w.depth + 1 ∧ w'.reader = w.reader) ∨ (w'.depth = w.depth ∧ w.reader.skip = .ok () w'.reader) := by
  unfold take at h
  dsimp only at h
  split at h
  · cases h
    exact .inl ⟨rfl, rfl⟩
  · split at h
    · simp only [bind, Except.bind] at h
      split at h <;> cases h
      next hs => exact .inr ⟨rfl, skip_of_ofOutcome hs⟩
    · split at h
      · cases h
      · simp only [bind, Except.bind] at h
        split at h <;> cases h
        next hs => exact .inr ⟨rfl, skip_of_readShape hs⟩

/-- One token, and what the walk reads at it, stay inside the root. -/
theorem Within.of_take (h : w.Within e outer ts) (hn : w.reader.next = .ok (some t) s)
    (ht : take { w with reader := s } t = .ok (some w')) :
    ∃ us, Yields w.reader us w'.reader ∧ w'.Within e outer (ts ++ us) := by
  obtain ⟨hnests, -⟩ := nests_of_next h.inside.settled hn
  have hlength := h.length_opened
  cases t with
  | text content place =>
      cases ht
      rcases h.inside.next hn with ⟨-, _, _, _, hclosing⟩ | ⟨-, hinside⟩
      · cases hclosing
      · exact ⟨[_], .cons hn (.nil s), hinside, by rw [hnests.of_text, hlength]⟩
  | closing name place =>
      obtain ⟨e', -, ho⟩ := hnests.of_closing
      rw [ho, List.length_cons] at hlength
      unfold take at ht
      dsimp only at ht
      split at ht
      · cases ht
      · next depth hdepth =>
        cases ht
        rcases h.inside.next hn with ⟨houter, -⟩ | ⟨-, hinside⟩
        · rw [houter] at hlength
          omega
        · exact ⟨[_], .cons hn (.nil s), hinside, by dsimp only; omega⟩
  | opening name attributes place =>
      obtain ⟨e', -, ho⟩ := hnests.of_opening
      rcases cases_of_take_opening ht with ⟨hdepth, hreader⟩ | ⟨hdepth, hskip⟩
      · rcases h.inside.next hn with ⟨-, _, _, _, hclosing⟩ | ⟨-, hinside⟩
        · cases hclosing
        · obtain rfl : w'.reader = s := hreader
          exact ⟨[_], .cons hn (.nil _), hinside, by rw [ho, List.length_cons, hlength, hdepth]; rfl⟩
      · obtain ⟨n, hyields, ho', hinside⟩ := h.inside.skip_element hn hskip
        exact ⟨n.tokens, hyields, hinside, by rw [ho', hlength, hdepth]⟩

/-- A walk that comes to its end has read whole nodes and the closing token of the root. -/
theorem Within.of_run {shapes : List Shape} (h : w.Within e outer ts) (hs : w.run = .ok (shapes, s)) :
    ∃ us children closedAt, Yields w.reader (us ++ [.closing e.name closedAt]) s ∧
      ts ++ us = Node.tokensAll children := by
  fun_induction run w generalizing ts with
  | case1 => cases hs
  | case2 => cases hs
  | case3 => cases hs
  | case4 w t s₁ hn htake =>
      cases hs
      obtain ⟨hclosing, hdepth⟩ := isClosing_of_take htake
      have hlength := h.length_opened
      rcases h.inside.next hn with ⟨-, children, closedAt, rfl, rfl⟩ | ⟨hlt, -⟩
      · exact ⟨[], children, closedAt, .cons hn (.nil _), List.append_nil _⟩
      · cases t with
        | opening | text => cases hclosing
        | closing name place =>
            obtain ⟨e', -, ho⟩ := (nests_of_next h.inside.settled hn).1.of_closing
            rw [ho, List.length_cons] at hlength
            dsimp only at hdepth
            omega
  | case5 w t s₁ hn w₁ htake _ ih =>
      obtain ⟨us, hyields, hwithin⟩ := h.of_take hn htake
      obtain ⟨vs, children, closedAt, hyields', hchildren⟩ := ih hwithin hs
      refine ⟨us ++ vs, children, closedAt, ?_, ?_⟩
      · rw [List.append_assoc]
        exact yields_append_iff.mpr ⟨_, hyields, hyields'⟩
      · rw [← List.append_assoc, hchildren]

end Walk

/-! ### The root -/

/-- In front of the root are texts. -/
theorem yields_of_findRoot {r s : Reader} {name : ElementName} {attributes : Table} {place : Position}
    (hr : r.Settled) (ho : r.opened = []) (h : findRoot r = .ok ((name, attributes, place), s)) :
    ∃ (texts : List (Text × Position)) (r' : Reader), Yields r (texts.map fun t => .text t.1 t.2) r' ∧ r'.Settled ∧
      r'.opened = [] ∧ r'.next = .ok (some (.opening name attributes place)) s := by
  fun_induction findRoot r with
  | case1 => cases h
  | case2 => cases h
  | case3 r t s₁ hn _ root' hroot =>
      cases h
      cases t with
      | opening name attributes place =>
          cases hroot
          exact ⟨[], r, .nil r, hr, ho, hn⟩
      | closing | text => cases hroot
  | case4 r t s₁ hn _ hroot ih =>
      obtain ⟨hnests, hsettled⟩ := nests_of_next hr hn
      cases t with
      | opening => cases hroot
      | closing name place =>
          obtain ⟨e, -, he⟩ := hnests.of_closing
          rw [ho] at he
          cases he
      | text content place =>
          obtain ⟨texts, r', hyields, hrest⟩ := ih hsettled (hnests.of_text.trans ho) h
          exact ⟨(content, place) :: texts, r', .cons hn hyields, hrest⟩

/-- A document that is read is there. -/
theorem exists_document_of_read {r s : Reader} {picture : Picture} (hr : r.Settled) (ho : r.opened = [])
    (h : read r = .ok (picture, s)) : ∃ d : Document, Yields r d.tokens s ∧ d.picture = .ok picture := by
  obtain ⟨attributes, place, s₁, hroot, -, hrun⟩ := read_eq_ok_iff.mp h
  obtain ⟨leading, r', hleading, hr', ho', hn⟩ := yields_of_findRoot hr ho hroot
  obtain ⟨hnests, hsettled⟩ := nests_of_next hr' hn
  obtain ⟨e, he, hopened⟩ := hnests.of_opening
  rw [ho'] at hopened
  have hwithin : Walk.Within e [] [] ⟨0, #[], s₁⟩ := ⟨inside_of_opened hsettled hopened, by rw [hopened]; rfl⟩
  obtain ⟨us, children, closedAt, hyields, rfl⟩ := hwithin.of_run hrun
  rw [he] at hyields
  let d : Document := ⟨leading, ⟨svgNamespace, lit "svg"⟩, attributes, place, closedAt, children⟩
  have hd : Yields r d.tokens s := by
    refine yields_append_iff.mpr ⟨r', hleading, ?_⟩
    rw [Document.root, Node.tokens]
    exact .cons hn hyields
  refine ⟨d, hd, ?_⟩
  rw [read_of_yields hr hd] at h
  cases hpicture : d.picture with
  | error error =>
      rw [hpicture] at h
      cases h
  | ok picture' =>
      rw [hpicture] at h
      cases h
      rfl

/-- Compiling succeeds exactly on the texts that begin with a document that has a picture. -/
theorem compile_eq_ok_iff {text : Text} {picture : Picture} :
    compile text = .ok picture ↔
      ∃ (d : Document) (r : Reader), Yields (.ofText text) d.tokens r ∧ d.picture = .ok picture := by
  rw [compile_eq_ok_iff_read]
  constructor
  · rintro ⟨r, hr⟩
    obtain ⟨d, hd⟩ := exists_document_of_read (settled_ofText text) rfl hr
    exact ⟨d, r, hd⟩
  · rintro ⟨d, r, hd, hpicture⟩
    refine ⟨r, ?_⟩
    rw [read_of_yields (settled_ofText text) hd, hpicture]
    rfl

end Picture
end Pictogram
