import Pictogram.Proofs.Markup.Locality
import Pictogram.Proofs.Picture.Meaning

/-! # Compiling reads the root element

A text that has a picture begins with a shortest text that has one: the text up to the end of its root
element.  The picture depends on that text alone (`compile_root`), and no text that breaks off sooner has
a picture.

Each part of compiling does the same with readers that are alike, if it ends in front of the texts in which
they differ.  A text token needs more behind it than these; the walk always goes on behind a text, which
shows in the budget of the reader. -/

namespace Pictogram
namespace Picture

open Reader

variable {z z' : Text} {r r' s : Reader}

/-! ### Shape elements -/

theorem skip_of_ofOutcome {u : Unit} (h : ofOutcome r.skip = .ok (u, s)) : r.skip = .ok () s := by
  cases hs : r.skip with
  | ok _ s' =>
      rw [hs] at h
      cases h
      rfl
  | error e s' =>
      rw [hs] at h
      cases h

theorem skip_of_readShape {kind : FigureKind} {attributes : Table} {place : Position} {shape : Option Shape}
    (h : readShape kind attributes place r = .ok (shape, s)) : r.skip = .ok () s := by
  simp only [readShape, bind, Except.bind] at h
  repeat' split at h
  all_goals cases h
  next hs _ _ => exact skip_of_ofOutcome hs

theorem alike_readShape {kind : FigureKind} {attributes : Table} {place : Position} {shape : Option Shape}
    (h : Alike z z' r r') (hs : readShape kind attributes place r = .ok (shape, s))
    (hz : z.length ≤ s.cursor.rest.length) :
    ∃ s', readShape kind attributes place r' = .ok (shape, s') ∧ Alike z z' s s' := by
  have hskip := skip_of_readShape hs
  obtain ⟨s', hs', halike⟩ := h.skip hskip hz
  refine ⟨s', ?_, halike⟩
  rw [readShape_of_skip kind attributes place hskip] at hs
  rw [readShape_of_skip kind attributes place hs']
  cases hshape : Shape.ofAttributes kind attributes with
  | error f =>
      rw [hshape] at hs
      cases hs
  | ok shape' =>
      rw [hshape] at hs
      cases hs
      rfl

/-! ### The walk -/

namespace Walk

/-- Two walks that have come equally far, with readers that are alike. -/
structure Alike (z z' : Text) (w w' : Walk) : Prop where
  depth_eq : w'.depth = w.depth
  found_eq : w'.found = w.found
  reader : Reader.Alike z z' w.reader w'.reader

variable {w w' w₁ : Walk}

/-- The content of a shape or a title is all that the walk reads at a token. -/
theorem skip_of_take {t : Token} (h : w.take t = .ok (some w₁)) :
    w₁.reader = w.reader ∨ w.reader.skip = .ok () w₁.reader := by
  unfold take at h
  split at h
  · cases h
    exact .inl rfl
  · split at h <;> cases h
    exact .inl rfl
  · split at h
    · cases h
      exact .inl rfl
    · split at h
      · simp only [bind, Except.bind] at h
        split at h <;> cases h
        next hs => exact .inr (skip_of_ofOutcome hs)
      · split at h
        · cases h
        · simp only [bind, Except.bind] at h
          split at h <;> cases h
          next hs => exact .inr (skip_of_readShape hs)

theorem reaches_of_take {t : Token} (h : w.take t = .ok (some w₁)) :
    w.reader.cursor.Reaches w₁.reader.cursor := by
  rcases skip_of_take h with e | hs
  · rw [e]
    exact .refl _
  · exact reaches_of_skipTo hs

theorem alike_take {t : Token} (h : Alike z z' w w') (ht : w.take t = .ok (some w₁))
    (hz : z.length ≤ w₁.reader.cursor.rest.length) : ∃ w₁', w'.take t = .ok (some w₁') ∧ Alike z z' w₁ w₁' := by
  unfold take at ht ⊢
  split at ht
  · cases ht
    exact ⟨w', rfl, h⟩
  · split at ht
    · cases ht
    · next depth hdepth =>
      cases ht
      refine ⟨{ w' with depth }, ?_, rfl, h.found_eq, h.reader⟩
      simp only [h.depth_eq, hdepth]
  · split at ht
    · next htag =>
      cases ht
      refine ⟨{ w' with depth := w'.depth + 1 }, ?_, ?_, h.found_eq, h.reader⟩
      · simp only [if_pos htag]
      · rw [h.depth_eq]
    · next hgroup =>
      split at ht
      · next htitle =>
        simp only [bind, Except.bind] at ht
        split at ht <;> cases ht
        next hs =>
          obtain ⟨s', hs', halike⟩ := h.reader.skip (skip_of_ofOutcome hs) hz
          refine ⟨{ w' with reader := s' }, ?_, h.depth_eq, h.found_eq, halike⟩
          simp only [if_neg hgroup, if_pos htitle, hs']
          rfl
      · next htitle =>
        split at ht
        · cases ht
        · next kind hkind =>
          simp only [bind, Except.bind] at ht
          split at ht <;> cases ht
          next shape hs =>
            obtain ⟨s', hs', halike⟩ := alike_readShape h.reader hs hz
            refine ⟨{ w' with found := w'.found ++ shape.1.toArray, reader := s' }, ?_, h.depth_eq, ?_, halike⟩
            · simp only [if_neg hgroup, if_neg htitle, hs']
              rfl
            · rw [h.found_eq]

/-- A walk that comes to its end has moved on to it. -/
theorem reaches_of_run {shapes : List Shape} (h : w.run = .ok (shapes, s)) :
    w.reader.cursor.Reaches s.cursor ∧ s.budget < w.reader.budget := by
  fun_induction run w with
  | case1 => cases h
  | case2 => cases h
  | case3 => cases h
  | case4 w t s₁ hn _ =>
      cases h
      exact ⟨reaches_of_next hn, budget_lt_of_next hn⟩
  | case5 w t s₁ hn w₁ htake _ ih =>
      obtain ⟨hreaches, hlt⟩ := ih h
      have hle := budget_le_of_take htake
      have hlt' := budget_lt_of_next hn
      refine ⟨((reaches_of_next hn).trans (reaches_of_take htake)).trans hreaches, ?_⟩
      dsimp only at hle
      omega

theorem isClosing_of_take {t : Token} (h : w.take t = .ok none) : t.isClosing ∧ w.depth = 0 := by
  unfold take at h
  split at h
  · cases h
  · split at h
    · next hdepth => exact ⟨rfl, hdepth⟩
    · cases h
  · split at h
    · cases h
    · split at h
      · simp only [bind, Except.bind] at h
        split at h <;> cases h
      · split at h
        · cases h
        · simp only [bind, Except.bind] at h
          split at h <;> cases h

theorem take_of_isClosing {t : Token} (ht : t.isClosing) (hdepth : w.depth = 0) : w.take t = .ok none := by
  cases t with
  | opening | text => cases ht
  | closing name place =>
      unfold take
      simp only [hdepth]

/-- A walk that ends in front of `z` is the same walk in front of `z'`. -/
theorem alike_run {shapes : List Shape} (h : Alike z z' w w') (hs : w.run = .ok (shapes, s))
    (hz : z.length ≤ s.cursor.rest.length) : ∃ s', w'.run = .ok (shapes, s') ∧ Reader.Alike z z' s s' := by
  fun_induction run w generalizing w' with
  | case1 => cases hs
  | case2 => cases hs
  | case3 => cases hs
  | case4 w t s₁ hn htake =>
      cases hs
      obtain ⟨hclosing, hdepth⟩ := isClosing_of_take htake
      obtain ⟨s', hs', halike⟩ := h.reader.next hn hz (by rintro _ _ rfl; cases hclosing)
      refine ⟨s', ?_, halike⟩
      have htake' : take { w' with reader := s' } t = .ok none :=
        take_of_isClosing hclosing (h.depth_eq.trans hdepth)
      rw [run_of_next hs', htake', h.found_eq]
  | case5 w t s₁ hn w₁ htake _ ih =>
      obtain ⟨hreaches, hlt⟩ := reaches_of_run hs
      have hle := budget_le_of_take htake
      have hbudget : s.budget < s₁.budget := Nat.lt_of_lt_of_le hlt hle
      have hbehind := (reaches_of_take htake).trans hreaches
      obtain ⟨s₁', hs₁', halike⟩ := h.reader.next_of_budget_lt hn hz hbehind hbudget
      have hwalks : Alike z z' { w with reader := s₁ } { w' with reader := s₁' } :=
        ⟨h.depth_eq, h.found_eq, halike⟩
      have hroom := hreaches.length_rest_le
      obtain ⟨w₁', hw₁', htaken⟩ := alike_take hwalks htake (by omega)
      obtain ⟨s', hs', hsalike⟩ := ih htaken hs
      refine ⟨s', ?_, hsalike⟩
      rw [run_of_next hs₁', hw₁']
      exact hs'

end Walk

/-! ### Documents -/

theorem findRoot_of_closing {name : ElementName} {place : Position}
    (h : r.next = .ok (some (.closing name place)) s) : findRoot r = findRoot s := by
  rw [findRoot]
  split <;> simp_all [Token.opening?]

theorem reaches_of_findRoot {root : ElementName × Table × Position} (h : findRoot r = .ok (root, s)) :
    r.cursor.Reaches s.cursor ∧ s.budget < r.budget := by
  fun_induction findRoot r with
  | case1 => cases h
  | case2 => cases h
  | case3 r t s₁ hn _ root' hroot =>
      cases h
      exact ⟨reaches_of_next hn, budget_lt_of_next hn⟩
  | case4 r t s₁ hn hlt hroot ih =>
      obtain ⟨hreaches, hlt'⟩ := ih h
      exact ⟨(reaches_of_next hn).trans hreaches, Nat.lt_trans hlt' hlt⟩

theorem alike_findRoot {root : ElementName × Table × Position} (h : Alike z z' r r')
    (hs : findRoot r = .ok (root, s)) (hz : z.length ≤ s.cursor.rest.length) :
    ∃ s', findRoot r' = .ok (root, s') ∧ Alike z z' s s' := by
  fun_induction findRoot r generalizing r' with
  | case1 => cases hs
  | case2 => cases hs
  | case3 r t s₁ hn _ root' hroot =>
      cases hs
      cases t with
      | opening name attributes place =>
          cases hroot
          obtain ⟨s', hs', halike⟩ := h.next hn hz (by rintro _ _ ⟨⟩)
          exact ⟨s', findRoot_of_opening hs', halike⟩
      | closing | text => cases hroot
  | case4 r t s₁ hn _ hroot ih =>
      obtain ⟨hreaches, hlt⟩ := reaches_of_findRoot hs
      obtain ⟨s₁', hs₁', halike⟩ := h.next_of_budget_lt hn hz hreaches hlt
      obtain ⟨s', hs', hsalike⟩ := ih halike hs
      refine ⟨s', ?_, hsalike⟩
      cases t with
      | opening => cases hroot
      | closing name place => rw [findRoot_of_closing hs₁', hs']
      | text content place => rw [findRoot_of_text hs₁', hs']

/-- A document is read when its root is found, has a view box that can be read, and is walked to its end. -/
theorem read_eq_ok_iff {picture : Picture} :
    read r = .ok (picture, s) ↔
      ∃ attributes place s₁, findRoot r = .ok ((⟨svgNamespace, lit "svg"⟩, attributes, place), s₁) ∧
        ViewBox.readOptional (attributes.get? (lit "viewBox")) = .ok picture.viewBox ∧
        Walk.run ⟨0, #[], s₁⟩ = .ok (picture.shapes, s) := by
  unfold read
  constructor
  · intro h
    cases hroot : findRoot r with
    | error e =>
        rw [hroot] at h
        cases h
    | ok root =>
        obtain ⟨⟨⟨space, tag⟩, attributes, place⟩, s₁⟩ := root
        rw [hroot] at h
        simp only [bind, Except.bind] at h
        by_cases htag : tag = lit "svg"
        · by_cases hspace : space = svgNamespace
          · simp only [htag, hspace, ne_eq, not_true_eq_false, if_false, pure, Except.pure] at h
            cases hbox : ViewBox.readOptional (attributes.get? (lit "viewBox")) with
            | error f =>
                rw [hbox] at h
                cases h
            | ok viewBox =>
                cases hrun : Walk.run ⟨0, #[], s₁⟩ with
                | error e =>
                    simp only [hbox, inElement_ok, hrun] at h
                    cases h
                | ok found =>
                    simp only [hbox, inElement_ok, hrun] at h
                    cases h
                    rw [htag, hspace]
                    exact ⟨attributes, place, s₁, rfl, hbox, hrun⟩
          · simp [htag, hspace, throw, throwThe, MonadExceptOf.throw] at h
        · simp [htag, throw, throwThe, MonadExceptOf.throw] at h
  · rintro ⟨attributes, place, s₁, hroot, hbox, hrun⟩
    rw [hroot]
    simp only [bind, Except.bind, ne_eq, not_true_eq_false, if_false, pure, Except.pure, hbox, inElement_ok, hrun]

theorem reaches_of_read {picture : Picture} (h : read r = .ok (picture, s)) : r.cursor.Reaches s.cursor := by
  obtain ⟨_, _, s₁, hroot, -, hrun⟩ := read_eq_ok_iff.mp h
  exact (reaches_of_findRoot hroot).1.trans (Walk.reaches_of_run hrun).1

/-- A document that ends in front of `z` is the same document in front of `z'`. -/
theorem alike_read {picture : Picture} (h : Alike z z' r r') (hs : read r = .ok (picture, s))
    (hz : z.length ≤ s.cursor.rest.length) : ∃ s', read r' = .ok (picture, s') ∧ Alike z z' s s' := by
  obtain ⟨attributes, place, s₁, hroot, hbox, hrun⟩ := read_eq_ok_iff.mp hs
  have hle := (Walk.reaches_of_run hrun).1.length_rest_le
  dsimp only at hle
  obtain ⟨s₁', hroot', halike⟩ := alike_findRoot h hroot (by omega)
  have hwalks : Walk.Alike z z' ⟨0, #[], s₁⟩ ⟨0, #[], s₁'⟩ := ⟨rfl, rfl, halike⟩
  obtain ⟨s', hrun', hsalike⟩ := Walk.alike_run hwalks hrun hz
  exact ⟨s', read_eq_ok_iff.mpr ⟨attributes, place, s₁', hroot', hbox, hrun'⟩, hsalike⟩

/-! ### The text of the root element -/

theorem compile_eq_ok_iff_read {text : Text} {picture : Picture} :
    Picture.compile text = .ok picture ↔ ∃ s, read (.ofText text) = .ok (picture, s) := by
  unfold Picture.compile
  constructor
  · intro h
    cases hread : read (.ofText text) with
    | error e =>
        rw [hread] at h
        cases h
    | ok found =>
        rw [hread] at h
        cases h
        exact ⟨found.2, rfl⟩
  · rintro ⟨s, hs⟩
    rw [hs]
    rfl

/-- The text `root` is all that is read of a document that begins with it. -/
def IsRoot (root : Text) (picture : Picture) : Prop :=
  ∀ rest, ∃ s, read (.ofText (root ++ rest)) = .ok (picture, s) ∧ s.cursor.rest = rest

theorem IsRoot.compile {root : Text} {picture : Picture} (h : IsRoot root picture) (rest : Text) :
    compile (root ++ rest) = .ok picture := by
  obtain ⟨s, hs, -⟩ := h rest
  exact compile_eq_ok_iff_read.mpr ⟨s, hs⟩

/-- Every text that has a picture begins with its root element. -/
theorem exists_isRoot {text : Text} {picture : Picture} (h : Picture.compile text = .ok picture) :
    ∃ root rest, text = root ++ rest ∧ IsRoot root picture := by
  obtain ⟨s, hs⟩ := compile_eq_ok_iff_read.mp h
  obtain ⟨root, hroot⟩ := reaches_of_read hs
  have htext : text = root ++ s.cursor.rest := hroot.rest_eq
  refine ⟨root, s.cursor.rest, htext, ?_⟩
  intro rest
  rw [htext] at hs
  obtain ⟨s', hs', halike⟩ := alike_read (alike_ofText root s.cursor.rest rest) hs (Nat.le_refl _)
  refine ⟨s', hs', ?_⟩
  obtain ⟨t, ht, ht'⟩ := halike.cursor.rest_eq
  obtain rfl : t = [] := by simpa using ht
  exact ht'

/-- Of two root elements with which a text begins, neither is longer. -/
theorem IsRoot.length_le {root root' : Text} {picture picture' : Picture} (h : IsRoot root picture)
    (h' : IsRoot root' picture') (hbegins : root' <+: root) : root.length ≤ root'.length := by
  obtain ⟨rest, rfl⟩ := hbegins
  obtain ⟨s, hs, hrest⟩ := h []
  obtain ⟨s', hs', hrest'⟩ := h' rest
  rw [List.append_nil, hs'] at hs
  cases hs
  rw [hrest] at hrest'
  simp [← hrest']

/-- **Compiling reads exactly the root element.**  A text that has a picture begins with a text `root` that
has the same picture, whatever follows it; no text that breaks off sooner has a picture. -/
theorem compile_root {text : Text} {picture : Picture} (h : Picture.compile text = .ok picture) :
    ∃ root, root <+: text ∧ Picture.compile root = .ok picture ∧
      (∀ rest, Picture.compile (root ++ rest) = .ok picture) ∧
      ∀ front, front <+: root → front ≠ root → ∃ e, Picture.compile front = .error e := by
  obtain ⟨root, rest, rfl, hroot⟩ := exists_isRoot h
  refine ⟨root, List.prefix_append root rest, ?_, hroot.compile, ?_⟩
  · have := hroot.compile []
    rwa [List.append_nil] at this
  · intro front hfront hne
    cases hcompile : Picture.compile front with
    | error e => exact ⟨e, rfl⟩
    | ok picture' =>
        obtain ⟨root', rest', rfl, hroot'⟩ := exists_isRoot hcompile
        have hbegins : root' <+: root := (List.prefix_append root' rest').trans hfront
        have hle := hroot.length_le hroot' hbegins
        have hlength := hfront.length_le
        rw [List.length_append] at hlength
        exact absurd (hfront.eq_of_length (by rw [List.length_append]; omega)) hne

/-- A document with markup behind its root element that is broken off. -/
def trailingText : Text :=
  lit "<?xml?><svg xmlns='http://www.w3.org/2000/svg'><title>></title><rect fill='#000000'/></svg ></svg><!--"

theorem compile_root_trailingText :
    ∃ picture root, Picture.compile trailingText = .ok picture ∧ root <+: trailingText ∧
      Picture.compile root = .ok picture ∧ (∀ rest, Picture.compile (root ++ rest) = .ok picture) ∧
      ∀ front, front <+: root → front ≠ root → ∃ e, Picture.compile front = .error e := by
  obtain ⟨picture, hpicture⟩ : ∃ picture, Picture.compile trailingText = .ok picture := by
    have hok : (Picture.compile trailingText).toOption.isSome := by decide +kernel
    cases hcompile : Picture.compile trailingText with
    | error e =>
        rw [hcompile] at hok
        cases hok
    | ok picture => exact ⟨picture, rfl⟩
  obtain ⟨root, hroot⟩ := compile_root hpicture
  exact ⟨picture, root, hpicture, hroot⟩

end Picture
end Pictogram
