import Pictogram.Picture.Compile
import Pictogram.Proofs.Markup.Session

/-! # Where compiling lays the blame

Every error of compiling a text has a place in the text.  Markup at fault is blamed where the reader or the
walk meets it; a bad value or bad path data is blamed on the element that carries it, at the `<` of its
tag, however many groups are around it (`blame_compile`).

The argument follows the computation: `Ends Q P x` says what holds of the value or of the error of `x`, and
has a rule for `bind`.  A reader inside a text is described by the names of the elements around it
(`Reader.Within`), which during the walk are groups and the root (`Walk.Inside`). -/

namespace Pictogram

/-! ### Values and errors -/

/-- The value of the outcome satisfies `Q`, or its error satisfies `P`. -/
def Ends {ε α : Type} (Q : α → Prop) (P : ε → Prop) : Except ε α → Prop
  | .ok a => Q a
  | .error e => P e

namespace Ends

variable {ε α β : Type} {Q : α → Prop} {P : ε → Prop} {x : Except ε α}

theorem self (x : Except ε α) : Ends (fun a => x = .ok a) (fun _ => True) x := by
  cases x with
  | error e => trivial
  | ok a => rfl

theorem bind {S : β → Prop} {f : α → Except ε β} (hx : Ends Q P x) (hf : ∀ a, Q a → Ends S P (f a)) :
    Ends S P (x >>= f) := by
  cases x with
  | error e => exact hx
  | ok a => exact hf a hx

theorem of_eq_ok {a : α} (h : Ends Q P x) (hx : x = .ok a) : Q a := by
  rw [hx] at h
  exact h

theorem mono {P' : ε → Prop} (hx : Ends Q P x) (hP : ∀ e, x = .error e → P e → P' e) : Ends Q P' x := by
  cases x with
  | error e => exact hP e rfl hx
  | ok a => exact hx

end Ends

/-! ### Faults of values and of path data -/

theorem ends_readNumber (key : Text) (value : Option Text) :
    Ends (fun _ => True) (·.kind = .value) (readNumber key value) := by
  unfold readNumber
  split
  · trivial
  · split
    · trivial
    · split
      · trivial
      · exact rfl

theorem ViewBox.ends_readOptional (value : Option Text) :
    Ends (fun _ => True) (·.kind = .value) (readOptional value) := by
  cases value with
  | none => trivial
  | some value =>
      show Ends _ _ ((ViewBox.read value).map some)
      unfold ViewBox.read
      split
      · trivial
      · exact rfl

theorem Affine.ends_read (value : Text) : Ends (fun _ => True) (·.kind = .value) (read value) := by
  unfold read
  split
  · exact rfl
  · split
    · trivial
    · exact rfl

theorem Paint.ends_read (value : Text) : Ends (fun _ => True) (·.kind = .value) (read value) := by
  unfold read
  split
  · trivial
  · split
    · trivial
    · exact rfl

namespace Style

theorem ends_readTransform (value : Option Text) :
    Ends (fun _ => True) (·.kind = .value) (readTransform value) := by
  cases value with
  | none => trivial
  | some value => exact Affine.ends_read value

theorem ends_readPaint (value : Option Text) : Ends (fun _ => True) (·.kind = .value) (readPaint value) := by
  cases value with
  | none => trivial
  | some value => exact Paint.ends_read value

theorem ends_read (attributes : Table) : Ends (fun _ => True) (·.kind = .value) (read attributes) := by
  apply (ends_readTransform _).bind
  intro _ _
  apply (ends_readPaint _).bind
  intro _ _
  apply (ends_readPaint _).bind
  intro _ _
  apply (ends_readNumber _ _).bind
  intro _ _
  trivial

end Style

namespace Figure

theorem ends_readCoordinates (value : Text) : Ends (fun _ => True) (·.kind = .value) (readCoordinates value) := by
  unfold readCoordinates
  dsimp only
  split
  · trivial
  · exact rfl

/-- Only a `path` element gives path data, and gives it as it is. -/
theorem ends_read (kind : FigureKind) (attributes : Table) :
    Ends (fun figure => ∀ d, figure = .path d → kind = .path ∧ d = (attributes.get? (lit "d")).getD [])
      (·.kind = .value) (read kind attributes) := by
  unfold read
  cases kind with
  | rect | ellipse | line =>
      apply (ends_readNumber _ _).bind
      intro _ _
      apply (ends_readNumber _ _).bind
      intro _ _
      apply (ends_readNumber _ _).bind
      intro _ _
      apply (ends_readNumber _ _).bind
      rintro _ _ _ ⟨⟩
  | circle =>
      apply (ends_readNumber _ _).bind
      intro _ _
      apply (ends_readNumber _ _).bind
      intro _ _
      apply (ends_readNumber _ _).bind
      rintro _ _ _ ⟨⟩
  | polygon | polyline =>
      apply (ends_readCoordinates _).bind
      rintro _ _ _ ⟨⟩
  | path =>
      rintro d ⟨⟩
      exact ⟨rfl, rfl⟩

end Figure

namespace PathData

theorem kind_of_arityFault? {l : Letter} {count : Nat} {letter : CodeUnit} {fragment : Text} {f : Fault}
    (h : arityFault? l count letter fragment = some f) : f.kind = .path := by
  unfold arityFault? at h
  split at h
  · cases h
  · split at h <;> cases h <;> rfl

theorem kind_of_parse {d : Text} {f : Fault} (h : (parse d).2 = some f) : f.kind = .path := by
  fun_induction parse d with
  | case1 => cases h
  | case2 =>
      cases h
      rfl
  | case3 d u t _ l _ f' hf =>
      cases h
      exact kind_of_arityFault? hf
  | case4 d u t _ l _ _ _ commands fault e ih =>
      apply ih
      rw [e]
      exact h

theorem ends_outline (d : Text) : Ends (fun _ => True) (·.kind = .path) (outline d) := by
  unfold outline
  split
  · trivial
  · next f h => exact kind_of_parse (congrArg Prod.snd h)

end PathData

/-- Only path data can be at fault when a figure is drawn. -/
theorem Shape.ends_ofFigure? (figure : Figure) (style : Style) :
    Ends (fun _ => True) (fun f => f.kind = .path ∧ ∃ d, figure = .path d ∧ PathData.outline d = .error f)
      (ofFigure? figure style) := by
  unfold ofFigure?
  split
  · refine Ends.bind (Q := fun _ => True) ?_ (fun _ _ => trivial)
    cases figure with
    | path d =>
        apply (PathData.ends_outline d).mono
        intro f hf hkind
        exact ⟨hkind, d, rfl, hf⟩
    | _ => trivial
  · trivial

/-! ### Readers inside a text -/

namespace Reader

/-- The reader came to its place from the start of the text by tokens, and the elements of the given names,
innermost first, are open there. -/
structure Within (text : Text) (around : List ElementName) (r : Reader) : Prop where
  yields : ∃ ts, Yields (.ofText text) ts r
  settled : r.Settled
  names : r.opened.map OpenElement.name = around

theorem within_ofText (text : Text) : Within text [] (.ofText text) :=
  ⟨⟨[], .nil _⟩, settled_ofText text, rfl⟩

namespace Within

variable {text : Text} {around : List ElementName} {r s : Reader} {name : ElementName} {place : Position}

theorem length_opened (h : Within text around r) : r.opened.length = around.length := by
  rw [← h.names, List.length_map]

theorem yields_next {t : Token} (h : Within text around r) (hn : r.next = .ok (some t) s) :
    ∃ ts, Yields (.ofText text) ts s := by
  obtain ⟨ts, hts⟩ := h.yields
  exact ⟨ts ++ [t], yields_append_iff.mpr ⟨r, hts, .cons hn (.nil s)⟩⟩

theorem next_opening {attributes : Table} (h : Within text around r)
    (hn : r.next = .ok (some (.opening name attributes place)) s) : Within text (name :: around) s := by
  obtain ⟨hnests, hsettled⟩ := nests_of_next h.settled hn
  obtain ⟨e, rfl, ho⟩ := hnests.of_opening
  refine ⟨h.yields_next hn, hsettled, ?_⟩
  rw [ho, List.map_cons, h.names]

theorem next_closing (h : Within text around r) (hn : r.next = .ok (some (.closing name place)) s) :
    ∃ outer, around = name :: outer ∧ Within text outer s := by
  obtain ⟨hnests, hsettled⟩ := nests_of_next h.settled hn
  obtain ⟨e, rfl, ho⟩ := hnests.of_closing
  refine ⟨s.opened.map OpenElement.name, ?_, h.yields_next hn, hsettled, rfl⟩
  rw [← h.names, ho, List.map_cons]

/-- A closing token inside `inner` elements closes one of them. -/
theorem next_closing_inner {inner : List ElementName} (h : Within text (inner ++ around) r) (hi : inner ≠ [])
    (hn : r.next = .ok (some (.closing name place)) s) :
    ∃ inner', inner = name :: inner' ∧ Within text (inner' ++ around) s := by
  obtain ⟨outer, houter, hs⟩ := h.next_closing hn
  obtain ⟨i, inner', rfl⟩ := List.exists_cons_of_ne_nil hi
  obtain ⟨rfl, rfl⟩ := List.cons.inj houter
  exact ⟨inner', rfl, hs⟩

theorem next_text {content : Text} (h : Within text around r)
    (hn : r.next = .ok (some (.text content place)) s) : Within text around s := by
  obtain ⟨hnests, hsettled⟩ := nests_of_next h.settled hn
  refine ⟨h.yields_next hn, hsettled, ?_⟩
  rw [hnests.of_text, h.names]

/-- Skipping ends behind the outermost of the `inner` elements, and in no element further out. -/
theorem skipTo {inner : List ElementName} {depth : Nat} (h : Within text (inner ++ around) r) (hi : inner ≠ [])
    (hd : depth = around.length + 1) (hs : r.skipTo depth = .ok () s) : Within text around s := by
  fun_induction Reader.skipTo r depth generalizing inner with
  | case1 => cases hs
  | case2 => cases hs
  | case3 r t s' hn _ hc =>
      cases hs
      cases t with
      | opening | text => cases hc.1
      | closing name place =>
          obtain ⟨inner, rfl, hw⟩ := h.next_closing_inner hi hn
          have hlength := hw.length_opened
          rw [List.length_append] at hlength
          have hnil : inner = [] := List.length_eq_zero_iff.mp (by omega)
          rw [hnil] at hw
          exact hw
  | case4 r t s' hn _ hc ih =>
      cases t with
      | opening name attributes place =>
          have hw := h.next_opening hn
          rw [← List.cons_append] at hw
          exact ih hw (List.cons_ne_nil _ _) hs
      | text content place => exact ih (h.next_text hn) hi hs
      | closing name place =>
          obtain ⟨inner, rfl, hw⟩ := h.next_closing_inner hi hn
          refine ih hw ?_ hs
          rintro rfl
          exact hc ⟨rfl, by rw [hw.length_opened, hd]; rfl⟩

/-- Skipping from inside an element ends right behind it. -/
theorem skip (h : Within text (name :: around) r) (hs : r.skip = .ok () s) : Within text around s := by
  have hlength := h.length_opened
  rw [← List.singleton_append] at h
  exact h.skipTo (List.cons_ne_nil _ _) hlength hs

theorem reaches (h : Within text around r) : (Cursor.ofText text).Reaches r.cursor := by
  obtain ⟨ts, hts⟩ := h.yields
  generalize hr₀ : Reader.ofText text = r₀ at hts
  have hstart : (Cursor.ofText text).Reaches r₀.cursor := by
    rw [← hr₀]
    exact .refl _
  clear hr₀ h
  induction hts with
  | nil r => exact hstart
  | cons hn _ ih => exact ih (hstart.trans (reaches_of_next hn))

/-- An opening token carries the place where its tag is written. -/
theorem written {attributes : Table} (h : Within text around r)
    (hn : r.next = .ok (some (.opening name attributes place)) s) :
    ∃ d construct, (Cursor.ofText text).Reaches d ∧ place = d.position ∧ d.Passes construct s.cursor ∧
      Written r.opened (.opening name attributes place) construct s.cursor.rest s.opened s.pending := by
  rcases next_cases hn with ⟨_, _, -, ht, -⟩ | ⟨-, pieces, d, construct, -, hpieces, hconstruct, hw, hplace⟩
  · cases ht
  · exact ⟨d, construct, h.reaches.trans ⟨_, hpieces⟩, hplace, hconstruct, hw⟩

end Within

end Reader

/-! ### Blame -/

namespace Picture

open Reader

/-- The name of a root element. -/
def rootName : ElementName := ⟨svgNamespace, lit "svg"⟩

/-- An element is at fault for `f`, with the elements of the given names around it: the root for its view
box, or a shape in groups of the root for one of its attributes or for its path data. -/
inductive AtFault (f : Fault) (name : ElementName) (attributes : Table) : (around : List ElementName) → Prop
  | viewBox : name = rootName → f.kind = .value →
      ViewBox.readOptional (attributes.get? (lit "viewBox")) = .error f → AtFault f name attributes []
  | attribute (kind : FigureKind) (groups : List ElementName) : FigureKind.ofName? name.tag = some kind →
      (∀ g ∈ groups, g.tag = lit "g") → f.kind = .value →
      Style.read attributes = .error f ∨ Figure.read kind attributes = .error f →
      AtFault f name attributes (groups ++ [rootName])
  | pathData (groups : List ElementName) : FigureKind.ofName? name.tag = some .path →
      (∀ g ∈ groups, g.tag = lit "g") → f.kind = .path →
      PathData.outline ((attributes.get? (lit "d")).getD []) = .error f →
      AtFault f name attributes (groups ++ [rootName])

/-- What an error of compiling `text` can be: a fault of the markup, placed where the text goes on at some
cursor, or a fault of an element, placed at its opening token. -/
inductive Blamed (text : Text) : CompileError → Prop
  | structural {f : Fault} {p : Cursor} : f.kind = .structural → (Cursor.ofText text).Reaches p →
      Blamed text (f.placed p.position)
  | element {f : Fault} {name : ElementName} {attributes : Table} {place : Position} {around : List ElementName}
      {r s : Reader} : Within text around r → r.next = .ok (some (.opening name attributes place)) s →
      AtFault f name attributes around → Blamed text (f.placed place)

variable {text : Text} {around : List ElementName} {r s : Reader} {name : ElementName} {attributes : Table}
  {place : Position}

theorem blamed_of_next {e : CompileError} (h : Within text around r) (hn : r.next = .error e s) :
    Blamed text e := by
  obtain ⟨f, p, rfl, hf, hp⟩ := (fails_of_next hn).located
  exact .structural (FaultCode.kind_of_isMarkup hf) (h.reaches.trans hp)

theorem blamed_unexpectedEnd (h : Within text around r) (hn : r.next = .ok none s) :
    Blamed text s.unexpectedEnd :=
  .structural (FaultCode.kind_of_isMarkup (Fault.isMarkup_unexpectedEnd s.opened)) (h.reaches.trans (reaches_of_next hn))

/-- An element may be blamed for its markup. -/
theorem blamed_of_opening {f : Fault} (h : Within text around r)
    (hn : r.next = .ok (some (.opening name attributes place)) s) (hf : f.kind = .structural) :
    Blamed text (f.placed place) := by
  obtain ⟨d, _, hd, rfl, -⟩ := h.written hn
  exact .structural hf hd

theorem ends_inElement {α : Type} {Q : α → Prop} {P : Fault → Prop} {R : CompileError → Prop} {x : Except Fault α}
    (hx : Ends Q P x) (hR : ∀ f, x = .error f → P f → R (f.placed place)) : Ends Q R (inElement place x) := by
  cases x with
  | error f => exact hR f rfl hx
  | ok a => exact hx

theorem ends_skip (h : Within text (name :: around) r) :
    Ends (fun a => Within text around a.2) (Blamed text) (ofOutcome r.skip) := by
  cases hs : r.skip with
  | ok _ s => exact h.skip hs
  | error e s =>
      obtain ⟨-, f, p, rfl, hf, hp⟩ := located_of_skipTo hs
      exact .structural (FaultCode.kind_of_isMarkup hf) (h.reaches.trans hp)

/-! ### Shapes -/

/-- The content of a shape element is passed over before its figure is drawn, so a fault in the markup of the content
comes first. -/
theorem ends_readShape {kind : FigureKind} {groups : List ElementName} (hg : ∀ g ∈ groups, g.tag = lit "g")
    (h : Within text (groups ++ [rootName]) r) (hn : r.next = .ok (some (.opening name attributes place)) s)
    (hkind : FigureKind.ofName? name.tag = some kind) :
    Ends (fun a => Within text (groups ++ [rootName]) a.2) (Blamed text) (readShape kind attributes place s) := by
  unfold readShape
  apply (ends_inElement (Style.ends_read attributes) ?_).bind
  · intro style _
    apply (ends_inElement (Figure.ends_read kind attributes) ?_).bind
    · intro figure hfigure
      apply (ends_skip (h.next_opening hn)).bind
      rintro ⟨_, s'⟩ hs'
      apply (ends_inElement (Shape.ends_ofFigure? figure style) ?_).bind
      · intro _ _
        exact hs'
      · rintro f - ⟨hpath, d, hd, hdata⟩
        obtain ⟨rfl, rfl⟩ := hfigure d hd
        exact .element h hn (.pathData groups hkind hg hpath hdata)
    · intro f hf hvalue
      exact .element h hn (.attribute kind groups hkind hg hvalue (.inr hf))
  · intro f hf hvalue
    exact .element h hn (.attribute kind groups hkind hg hvalue (.inl hf))

/-! ### The walk -/

namespace Walk

/-- Around the place of a walk are as many groups as it counts, and the root. -/
def Inside (text : Text) (w : Walk) : Prop :=
  ∃ groups : List ElementName, groups.length = w.depth ∧ (∀ g ∈ groups, g.tag = lit "g") ∧
    Within text (groups ++ [rootName]) w.reader

/-- One token: the walk stays inside the root, or the token is to blame. -/
theorem ends_take {w : Walk} {t : Token} (h : w.Inside text) (hn : w.reader.next = .ok (some t) s) :
    Ends (fun o => ∀ w', o = some w' → w'.Inside text) (Blamed text) (take { w with reader := s } t) := by
  obtain ⟨groups, hdepth, hg, hw⟩ := h
  cases t with
  | text content place =>
      rintro w' ⟨⟩
      exact ⟨groups, hdepth, hg, hw.next_text hn⟩
  | closing name place =>
      unfold take
      dsimp only
      split
      · rintro w' ⟨⟩
      · next depth hd =>
        rintro w' ⟨⟩
        have hgroups : groups ≠ [] := List.ne_nil_of_length_pos (by omega)
        obtain ⟨groups, rfl, hs⟩ := hw.next_closing_inner hgroups hn
        refine ⟨groups, ?_, fun g hgroup => hg g (List.mem_cons_of_mem _ hgroup), hs⟩
        rw [List.length_cons] at hdepth
        show groups.length = depth
        omega
  | opening name attributes place =>
      have hs := hw.next_opening hn
      unfold take
      dsimp only
      split
      · next hname =>
        rintro w' ⟨⟩
        refine ⟨name :: groups, ?_, List.forall_mem_cons.mpr ⟨hname, hg⟩, hs⟩
        rw [List.length_cons, hdepth]
      · split
        · apply (ends_skip hs).bind
          rintro ⟨_, s'⟩ hs' w' ⟨⟩
          exact ⟨groups, hdepth, hg, hs'⟩
        · split
          · exact blamed_of_opening hw hn rfl
          · next kind hkind =>
            apply (ends_readShape hg hw hn hkind).bind
            rintro ⟨shape, s'⟩ hs' w' ⟨⟩
            exact ⟨groups, hdepth, hg, hs'⟩

theorem ends_run {w : Walk} (h : w.Inside text) : Ends (fun _ => True) (Blamed text) w.run := by
  fun_induction run w with
  | case1 w e s hn =>
      obtain ⟨groups, _, _, hw⟩ := h
      exact blamed_of_next hw hn
  | case2 w s hn =>
      obtain ⟨groups, _, _, hw⟩ := h
      exact blamed_unexpectedEnd hw hn
  | case3 w t s hn e htake =>
      have := ends_take h hn
      rw [htake] at this
      exact this
  | case4 => trivial
  | case5 w t s hn w' htake _ ih =>
      apply ih
      have := ends_take h hn
      rw [htake] at this
      exact this w' rfl

end Walk

/-! ### Documents -/

/-- The root is found in front of all elements. -/
theorem ends_findRoot (h : Within text [] r) :
    Ends (fun a => ∃ r', Within text [] r' ∧ r'.next = .ok (some (.opening a.1.1 a.1.2.1 a.1.2.2)) a.2)
      (Blamed text) (findRoot r) := by
  fun_induction findRoot r with
  | case1 r e s hn => exact blamed_of_next h hn
  | case2 r s hn => exact blamed_unexpectedEnd h hn
  | case3 r t s hn _ root hroot =>
      cases t with
      | opening name attributes place =>
          cases hroot
          exact ⟨r, h, hn⟩
      | closing | text => cases hroot
  | case4 r t s hn _ hroot ih =>
      cases t with
      | opening => cases hroot
      | closing name place =>
          obtain ⟨outer, houter, -⟩ := h.next_closing hn
          cases houter
      | text content place => exact ih (h.next_text hn)

theorem ends_read (h : Within text [] r) : Ends (fun _ => True) (Blamed text) (read r) := by
  unfold read
  apply (ends_findRoot h).bind
  rintro ⟨⟨name, attributes, place⟩, s⟩ ⟨r', hr', hn⟩
  dsimp only
  split
  · exact blamed_of_opening hr' hn rfl
  · next htag =>
    split
    · exact blamed_of_opening hr' hn rfl
    · next hspace =>
      have hname : name = rootName := by
        obtain ⟨space, tag⟩ := name
        rw [rootName, ← Classical.not_not.mp htag, ← Classical.not_not.mp hspace]
      have hroot := hr'.next_opening hn
      rw [hname] at hroot
      have hinside : Walk.Inside text ⟨0, #[], s⟩ := ⟨[], rfl, by simp, hroot⟩
      apply (ends_inElement (ViewBox.ends_readOptional _) ?_).bind
      · intro viewBox _
        apply (Walk.ends_run hinside).bind
        intro _ _
        trivial
      · intro f hf hvalue
        exact .element hr' hn (.viewBox hname hvalue hf)

/-- **Every failure is classified and placed.**  A text has a picture, or an error placed behind some front
part `before` of the text.  The error is structural, or an element is at fault for it whose opening tag is
written right behind `before`. -/
theorem blame_compile (text : Text) :
    (∃ picture, compile text = .ok picture) ∨
    ∃ f before rest, compile text = .error (f.placed (.behind before)) ∧ text = before ++ rest ∧
      (f.kind = .structural ∨
        ∃ ts name attributes construct outer r,
          Yields (.ofText text) (ts ++ [.opening name attributes (.behind before)]) r ∧
          rest = construct ++ r.cursor.rest ∧
          Written outer (.opening name attributes (.behind before)) construct r.cursor.rest r.opened r.pending ∧
          AtFault f name attributes (outer.map OpenElement.name)) := by
  have hread := ends_read (within_ofText text)
  unfold compile
  cases he : read (.ofText text) with
  | ok a => exact .inl ⟨a.1, rfl⟩
  | error e =>
      rw [he] at hread
      right
      cases hread with
      | @structural f p hf hp =>
          obtain ⟨before, hbefore⟩ := hp
          refine ⟨f, before, p.rest, ?_, hbefore.rest_eq, .inl hf⟩
          rw [← Position.start_after, hbefore.position_eq]
          rfl
      | @element f name attributes place around r s hr hn hfault =>
          obtain ⟨d, construct, ⟨before, hbefore⟩, hplace, hconstruct, hw⟩ := hr.written hn
          have hbehind : place = .behind before := by
            rw [hplace, hbefore.position_eq]
            exact Position.start_after before
          obtain ⟨ts, hts⟩ := hr.yields
          rw [← hr.names] at hfault
          rw [hbehind] at hn hw ⊢
          refine ⟨f, before, d.rest, rfl, hbefore.rest_eq, .inr ?_⟩
          refine ⟨ts, name, attributes, construct, r.opened, s, ?_, hconstruct.rest_eq, hw, hfault⟩
          exact yields_append_iff.mpr ⟨r, hts, .cons hn (.nil s)⟩

/-- Path data is blamed on its element, though the content of the element is read before it. -/
example :
    (match compile (lit ("<svg xmlns='http://www.w3.org/2000/svg'>\n" ++
        "<g><g><path fill='#000000' d='Q'>a</path></g></g></svg>")) with
      | .ok _ => none
      | .error e => some e) = some ((Fault.unknownCommand (unit 'Q') (lit "Q")).placed ⟨2, 7⟩) := by
  decide +kernel

end Picture
end Pictogram
