import Pictogram.Proofs.Markup.Nesting
import Pictogram.Proofs.Markup.Scoping

/-! # Reading undoes writing

The tokens of a written tree are its events, in document order, and then the text ends
(`drain_eq_events`).  The induction runs over the tree: a node that is written in front of any rest is
read as its events and leaves that rest, with the same elements open (`reads_of_writes`).  A text needs
markup or the end after it, since it would take in any other unit. -/

namespace Pictogram

open Source

/-! ### Constructs -/

namespace Construct

theorem ofText_opening {u : CodeUnit} (h : Cursor.isNameUnit u) (t : Text) :
    ofText (unit '<' :: u :: t) = .openingTag := by
  have hbang : unit '!' ≠ u := by rintro rfl; exact absurd h (by decide)
  have hquery : unit '?' ≠ u := by rintro rfl; exact absurd h (by decide)
  have hslash : unit '/' ≠ u := by rintro rfl; exact absurd h (by decide)
  have hno {v : CodeUnit} (hv : v ≠ u) (front : Text) :
      Text.startsWith (unit '<' :: u :: t) (unit '<' :: v :: front) = false := by
    simp [Text.startsWith, Text.stripFront?, hv]
  simp only [ofText, show lit "<!--" = unit '<' :: unit '!' :: lit "--" by decide,
    show lit "<?" = unit '<' :: unit '?' :: [] by decide,
    show lit "<![CDATA[" = unit '<' :: unit '!' :: lit "[CDATA[" by decide,
    show lit "<!" = unit '<' :: unit '!' :: [] by decide, show lit "</" = unit '<' :: unit '/' :: [] by decide,
    hno hbang, hno hquery, hno hslash]
  rfl

theorem ofText_closing (t : Text) : ofText (lit "</" ++ t) = .closingTag := rfl

theorem ofText_characterData (t : Text) : ofText (lit "<![CDATA[" ++ t) = .characterData := rfl

theorem ofText_text {u : CodeUnit} (h : u ≠ unit '<') (t : Text) : ofText (u :: t) = .text := by
  have hno (front : Text) : Text.startsWith (u :: t) (unit '<' :: front) = false := by
    simp [Text.startsWith, Text.stripFront?, Ne.symm h]
  simp only [ofText, show lit "<!--" = unit '<' :: lit "!--" by decide, show lit "<?" = unit '<' :: lit "?" by decide,
    show lit "<![CDATA[" = unit '<' :: lit "![CDATA[" by decide, show lit "<!" = unit '<' :: lit "!" by decide,
    show lit "</" = unit '<' :: lit "/" by decide, show lit "<" = unit '<' :: [] by decide, hno]
  rfl

end Construct

/-- Character data does not end before its terminator: one that began earlier would end inside the content, for its
angle bracket is none of the two square brackets that follow. -/
theorem not_startsWith_terminator {u : CodeUnit} {content rest : Text} (h : ¬ lit "]]>" <:+: u :: content) :
    Text.startsWith (u :: (content ++ (lit "]]>" ++ rest))) (lit "]]>") = false := by
  cases hs : Text.stripFront? (lit "]]>") (u :: (content ++ (lit "]]>" ++ rest))) with
  | none => simp [Text.startsWith, hs]
  | some r =>
      have e := Text.stripFront?_eq_some_iff.mp hs
      rw [show lit "]]>" = [unit ']', unit ']', unit '>'] by decide] at e h
      have hne : unit ']' ≠ unit '>' := by decide
      rcases content with _ | ⟨v, _ | ⟨w, content⟩⟩
      · simp [hne] at e
      · simp [hne] at e
      · simp only [List.cons_append, List.cons.injEq] at e
        obtain ⟨rfl, rfl, rfl, _⟩ := e
        exact absurd ⟨[], content, rfl⟩ h

theorem offsetOf?_terminator {content : Text} (h : ¬ lit "]]>" <:+: content) (n : Nat) (rest : Text) :
    Text.offsetOf? (lit "]]>") n (content ++ (lit "]]>" ++ rest)) = some (n + content.length) := by
  induction content generalizing n with
  | nil => rfl
  | cons u content ih =>
      have hno : Text.startsWith (u :: (content ++ (lit "]]>" ++ rest))) (lit "]]>") = false :=
        not_startsWith_terminator h
      have hinner : ¬ lit "]]>" <:+: content := fun hi => h (hi.trans (List.suffix_cons u content).isInfix)
      rw [List.cons_append, Text.offsetOf?, hno, ih hinner]
      simp
      omega

theorem readPast_terminator {c : Cursor} {content rest : Text} (enclosure : Enclosure)
    (hc : ¬ lit "]]>" <:+: content) (h : c.rest = content ++ (lit "]]>" ++ rest)) :
    ∃ c', c.readPast (lit "]]>") enclosure = .ok content c' ∧ c'.rest = rest := by
  have hp : c.past? (lit "]]>") = some (content, c.advance (content.length + (lit "]]>").length)) := by
    unfold Cursor.past?
    rw [h, offsetOf?_terminator hc 0 rest]
    simp
  refine ⟨_, by rw [Cursor.readPast, hp], Cursor.rest_advance (a := content ++ lit "]]>") ?_ List.length_append⟩
  rw [h, List.append_assoc]

/-! ### One construct -/

namespace Reader

theorem next_of_step {r s : Reader} {t : Token} (hp : r.pending = none) (hr : r.cursor.rest ≠ [])
    (h : r.step = .ok (some t) s) : r.next = .ok (some t) s := by
  have hread : r.read = .ok (some t) s := by
    rw [read, dif_neg hr]
    split <;> simp_all
  simp only [next, hp, hread]

/-- The events `es` come next, up to `rest`, and leave the given elements open. -/
def Reads (r : Reader) (es : List Event) (opened : List OpenElement) (rest : Text) : Prop :=
  ∃ ts r', Yields r ts r' ∧ ts.map Token.event = es ∧ r'.cursor.rest = rest ∧ r'.opened = opened ∧
    r'.pending = none

theorem Reads.nil {r : Reader} (hp : r.pending = none) : r.Reads [] r.opened r.cursor.rest :=
  ⟨[], r, .nil r, rfl, rfl, rfl, hp⟩

theorem Reads.append {r : Reader} {es es' : List Event} {opened opened' : List OpenElement} {rest rest' : Text}
    (h : r.Reads es opened rest)
    (h' : ∀ s : Reader, s.pending = none → s.opened = opened → s.cursor.rest = rest → s.Reads es' opened' rest') :
    r.Reads (es ++ es') opened' rest' := by
  obtain ⟨ts, s, hs, rfl, hrest, hopened, hp⟩ := h
  obtain ⟨ts', s', hs', rfl, hend⟩ := h' s hp hopened hrest
  exact ⟨ts ++ ts', s', yields_append_iff.mpr ⟨s, hs, hs'⟩, List.map_append, hend⟩

theorem reads_of_step {r s : Reader} {t : Token} (hp : r.pending = none) (hr : r.cursor.rest ≠ [])
    (h : r.step = .ok (some t) s) (hs : s.pending = none) : r.Reads [t.event] s.opened s.cursor.rest :=
  ⟨[t], s, .cons (next_of_step hp hr h) (.nil s), rfl, rfl, rfl, hs⟩

theorem reads_text {r : Reader} {content t rest : Text} (hp : r.pending = none) (hc : content ≠ [])
    (he : Reference.Escapes Reference.Kind.all content t) (ht : unit '<' ∉ t)
    (hrest : ∀ u ∈ rest.head?, u = unit '<') (h : r.cursor.rest = t ++ rest) :
    r.Reads [.text content] r.opened rest := by
  obtain ⟨u, t', rfl⟩ : ∃ u t', t = u :: t' := by
    cases he with
    | nil => exact absurd rfl hc
    | plain => exact ⟨_, _, rfl⟩
    | reference => exact ⟨_, _, rfl⟩
  have hu : u ≠ unit '<' := by
    rintro rfl
    exact ht (by simp)
  obtain ⟨hraw, hafter⟩ := Cursor.takeWhile_eq (p := (· ≠ unit '<')) h
    (fun v hv => by simpa using fun e : v = unit '<' => ht (e ▸ hv)) (fun v hv => by simpa using hrest v hv)
  have hstep : r.step = .ok (some (.text content r.cursor.position))
      { r with cursor := (r.cursor.takeWhile (· ≠ unit '<')).2 } := by
    unfold step
    simp only [h, List.cons_append, Construct.ofText_text hu]
    simp only [readText, hraw, Reference.decode_of_escapes he]
  have := reads_of_step hp (by rw [h]; simp) hstep hp
  rwa [show ({ r with cursor := (r.cursor.takeWhile (· ≠ unit '<')).2 } : Reader).cursor.rest = rest from hafter] at this

theorem reads_characterData {r : Reader} {content rest : Text} (hp : r.pending = none)
    (hc : ¬ lit "]]>" <:+: content) (h : r.cursor.rest = lit "<![CDATA[" ++ (content ++ (lit "]]>" ++ rest))) :
    r.Reads [.text content] r.opened rest := by
  obtain ⟨c', hread, rfl⟩ := readPast_terminator .characterData hc (Cursor.rest_advance h (n := 9) rfl)
  have hstep : r.step = .ok (some (.text content r.cursor.position)) { r with cursor := c' } := by
    unfold step
    simp only [h, Construct.ofText_characterData]
    simp only [hread, lift]
  exact reads_of_step hp (by rw [h]; simp [show lit "<![CDATA[" ≠ [] by decide]) hstep hp

/-- The element that an opening tag opens. -/
def openedBy (scope : Scope) (written : Text) (attributes : List (Text × Text)) : OpenElement :=
  ⟨written, (scope.within attributes).name written, Table.declarations ⟨attributes⟩⟩

/-- The event of an opening tag. -/
def openingEvent (scope : Scope) (written : Text) (attributes : List (Text × Text)) : Event :=
  .opening ((scope.within attributes).name written)
    (attributes.filter fun e => e.1 ≠ lit "xmlns" && !e.1.contains (unit ':'))

section

variable {r : Reader} {scope : Scope} {written : Text} {attributes : List (Text × Text)} {inside b rest : Text}

theorem step_opening (selfClosing : Bool) (hin : InForce r.opened scope) (hn : IsName written)
    (ha : AttributesOk attributes) (hw : WritesAttributes attributes inside) (hb : IsBlank b)
    (h : r.cursor.rest = unit '<' :: (written ++ (inside ++ (b ++ (Tag.bracket selfClosing ++ rest))))) :
    ∃ t c', t.event = openingEvent scope written attributes ∧ c'.rest = rest ∧
      r.step = .ok (some t) ⟨c', openedBy scope written attributes :: r.opened,
        if selfClosing then some ((scope.within attributes).name written, r.cursor.position) else r.pending⟩ := by
  obtain ⟨u, written', rfl⟩ := List.exists_cons_of_ne_nil hn.1
  obtain ⟨c', htag, hc'⟩ := Tag.readOpening_eq (Fault.unexpectedEnd r.opened) selfClosing hn ha hw hb h
  have hname : ElementName.resolve (Table.declarations ⟨attributes⟩ :: r.opened.map OpenElement.declared)
      (u :: written') = (scope.within attributes).name (u :: written') :=
    resolve_eq (inForce_within hin ha (u :: written') ⟨[], []⟩) (u :: written')
  refine ⟨.opening ((scope.within attributes).name (u :: written')) (Table.unlabelled ⟨attributes⟩)
    r.cursor.position, c', rfl, hc', ?_⟩
  unfold step
  simp only [h, List.cons_append, Construct.ofText_opening (hn.2 u (by simp))]
  rw [htag]
  simp only [lift, enter, hname]
  cases selfClosing <;> rfl

theorem reads_opening (hp : r.pending = none) (hin : InForce r.opened scope) (hn : IsName written)
    (ha : AttributesOk attributes) (hw : WritesAttributes attributes inside) (hb : IsBlank b)
    (h : r.cursor.rest = unit '<' :: (written ++ (inside ++ (b ++ unit '>' :: rest)))) :
    r.Reads [openingEvent scope written attributes] (openedBy scope written attributes :: r.opened) rest := by
  obtain ⟨t, c', ht, rfl, hstep⟩ := step_opening false hin hn ha hw hb h
  rw [← ht]
  exact reads_of_step hp (by rw [h]; simp) hstep hp

/-- The closing token of a self-closing tag is owed and comes next. -/
theorem reads_selfClosing (hp : r.pending = none) (hin : InForce r.opened scope) (hn : IsName written)
    (ha : AttributesOk attributes) (hw : WritesAttributes attributes inside) (hb : IsBlank b)
    (h : r.cursor.rest = unit '<' :: (written ++ (inside ++ (b ++ (lit "/>" ++ rest))))) :
    r.Reads [openingEvent scope written attributes, .closing ((scope.within attributes).name written)]
      r.opened rest := by
  obtain ⟨t, c', ht, rfl, hstep⟩ := step_opening true hin hn ha hw hb h
  have hnext := next_of_step hp (by rw [h]; simp) hstep
  refine ⟨[t, _], _, .cons hnext (.cons rfl (.nil _)), ?_, rfl, rfl, rfl⟩
  rw [List.map_cons, ht]
  rfl

end

theorem reads_closing {r : Reader} {e : OpenElement} {outer : List OpenElement} {b rest : Text}
    (hp : r.pending = none) (ho : r.opened = e :: outer) (hn : IsName e.written) (hb : IsBlank b)
    (h : r.cursor.rest = lit "</" ++ (e.written ++ (b ++ (lit ">" ++ rest)))) :
    r.Reads [.closing e.name] outer rest := by
  obtain ⟨c', htag, rfl⟩ := Tag.readClosing_eq (Fault.unexpectedEnd r.opened) hn hb h
  have hstep : r.step = .ok (some (.closing e.name r.cursor.position)) ⟨c', outer, r.pending⟩ := by
    unfold step
    simp only [h, Construct.ofText_closing]
    rw [htag]
    simp only [lift, leave, ho, if_true]
  exact reads_of_step hp (by rw [h]; simp [show lit "</" ≠ [] by decide]) hstep hp

/-! ### Trees -/

/-- What is not a text begins with an angle bracket. -/
theorem head_of_writes {n : Source} {t : Text} (hn : n.isText = false) (h : n.Writes t) :
    ∃ t', t = unit '<' :: t' := by
  cases n with
  | element written attributes children =>
      rw [Writes] at h
      obtain ⟨inside, b, -, -, ⟨-, rfl⟩ | ⟨content, b', -, -, rfl⟩⟩ := h
      · exact ⟨_, rfl⟩
      · exact ⟨_, rfl⟩
  | text content => cases hn
  | characterData content =>
      rw [Writes] at h
      exact ⟨_, h⟩

theorem head_of_writesAll {n : Source} {ns : List Source} {t rest : Text} (hn : n.isText)
    (hapart : n.isText → ∀ m ∈ ns.head?, m.isText = false) (h : WritesAll ns t)
    (hrest : ∀ u ∈ rest.head?, u = unit '<') : ∀ u ∈ (t ++ rest).head?, u = unit '<' := by
  cases ns with
  | nil =>
      rw [WritesAll] at h
      rw [h]
      exact hrest
  | cons m ns =>
      rw [WritesAll] at h
      obtain ⟨t₁, t₂, hm, -, rfl⟩ := h
      obtain ⟨t', rfl⟩ := head_of_writes (hapart hn m rfl) hm
      intro u hu
      simpa using hu.symm

mutual

/-- A node that is written in front of any rest is read as its events and leaves that rest. -/
theorem reads_of_writes : ∀ {n : Source} {t rest : Text} {scope : Scope} {r : Reader}, n.WellFormed →
    n.Writes t → r.pending = none → InForce r.opened scope →
    (n.isText → ∀ u ∈ rest.head?, u = unit '<') → r.cursor.rest = t ++ rest →
    r.Reads (n.events scope) r.opened rest
  | .text content, t, rest, scope, r, hwf, hw, hp, hin, hrest, h => by
      rw [WellFormed] at hwf
      rw [Writes] at hw
      rw [events]
      exact reads_text hp hwf hw.1 hw.2 (hrest rfl) h
  | .characterData content, t, rest, scope, r, hwf, hw, hp, hin, hrest, h => by
      rw [WellFormed] at hwf
      rw [Writes] at hw
      rw [events]
      rw [hw, List.append_assoc, List.append_assoc] at h
      exact reads_characterData hp hwf h
  | .element written attributes children, t, rest, scope, r, hwf, hw, hp, hin, hrest, h => by
      rw [WellFormed] at hwf
      rw [Writes] at hw
      rw [events]
      obtain ⟨hname, hattributes, hchildren⟩ := hwf
      obtain ⟨inside, b, hinside, hb, ⟨rfl, rfl⟩ | ⟨content, b', hcontent, hb', rfl⟩⟩ := hw
      · rw [eventsAll, List.nil_append]
        exact reads_selfClosing hp hin hname hattributes hinside hb (by simpa using h)
      · have hopening : r.Reads [openingEvent scope written attributes]
            (openedBy scope written attributes :: r.opened)
            (content ++ (lit "</" ++ (written ++ (b' ++ (lit ">" ++ rest))))) :=
          reads_opening hp hin hname hattributes hinside hb (by simpa using h)
        refine hopening.append (fun s hsp hso hs => ?_)
        have hinner : InForce s.opened (scope.within attributes) := by
          rw [hso]
          exact inForce_within hin hattributes written _
        have hafter : ∀ u ∈ (lit "</" ++ (written ++ (b' ++ (lit ">" ++ rest)))).head?, u = unit '<' :=
          fun u hu => (Option.some.inj hu).symm
        refine (reads_of_writes_all hchildren hcontent hsp hinner hafter hs).append (fun s' hsp' hso' hs' => ?_)
        exact reads_closing hsp' (hso'.trans hso) hname hb' hs'

/-- What follows a text, in the list or after it, begins with markup. -/
theorem reads_of_writes_all : ∀ {ns : List Source} {t rest : Text} {scope : Scope} {r : Reader},
    WellFormedAll ns → WritesAll ns t → r.pending = none → InForce r.opened scope →
    (∀ u ∈ rest.head?, u = unit '<') → r.cursor.rest = t ++ rest →
    r.Reads (eventsAll scope ns) r.opened rest
  | [], t, rest, scope, r, hwf, hw, hp, hin, hrest, h => by
      rw [WritesAll] at hw
      rw [eventsAll]
      obtain rfl : r.cursor.rest = rest := by rw [h, hw, List.nil_append]
      exact Reads.nil hp
  | n :: ns, t, rest, scope, r, hwf, hw, hp, hin, hrest, h => by
      rw [WellFormedAll] at hwf
      rw [WritesAll] at hw
      rw [eventsAll]
      obtain ⟨hn, hapart, hns⟩ := hwf
      obtain ⟨t₁, t₂, hwn, hwns, rfl⟩ := hw
      have hfirst := reads_of_writes hn hwn hp hin (fun hn => head_of_writesAll hn hapart hwns hrest)
        (h.trans (List.append_assoc t₁ t₂ rest))
      refine hfirst.append (fun s hsp hso hs => ?_)
      rw [← hso]
      exact reads_of_writes_all hns hwns hsp (by rw [hso]; exact hin) hrest hs

end

/-! ### Whole texts -/

theorem drain_of_yields {r s : Reader} {ts : List Token} (h : Yields r ts s) :
    r.drain = (ts ++ s.drain.1, s.drain.2) := by
  induction h with
  | nil r => rfl
  | cons h _ ih => rw [drain_of_next h, ih]; rfl

theorem next_of_rest_eq_nil {r : Reader} (hp : r.pending = none) (hr : r.cursor.rest = []) : r.next = .ok none r := by
  have hread : r.read = .ok none r := by rw [read, dif_pos hr]
  simp only [next, hp, hread]

/-- **Reading undoes writing.**  However a tree is written, its tokens are its events in document order,
and then the text ends. -/
theorem drain_eq_events {n : Source} {t : Text} (hwf : n.WellFormed) (hw : n.Writes t) :
    ∃ ts r, (ofText t).drain = (ts, none, r) ∧ ts.map Token.event = n.events .outermost ∧
      r.next = .ok none r ∧ r.opened = [] := by
  have hread : (ofText t).Reads (n.events .outermost) [] [] :=
    reads_of_writes (r := ofText t) hwf hw rfl inForce_outermost (by simp) (List.append_nil t).symm
  obtain ⟨ts, r, hyields, hevents, hrest, hopened, hp⟩ := hread
  have hnext := next_of_rest_eq_nil hp hrest
  refine ⟨ts, r, ?_, hevents, hnext, hopened⟩
  have hdrain : r.drain = ([], none, r) := by
    rw [drain]
    split <;> simp_all
  rw [drain_of_yields hyields, hdrain, List.append_nil]

/-- A label that is declared anew inside and in force again after, with every kind of content. -/
def sampleSource : Source :=
  .element (lit "a:b") [(lit "xmlns:a", lit "x&y"), (lit "id", lit "1")]
    [.element (lit "c") [(lit "xmlns:a", lit "z")] [.element (lit "a:d") [] []],
      .text (lit "t<A"), .characterData (lit "<&"), .element (lit "a:e") [] []]

def sampleWriting : Text :=
  lit "<a:b xmlns:a=\"x&amp;y\" id = '1' ><c xmlns:a='z'><a:d/></c>t&lt;&#x41;<![CDATA[<&]]><a:e></a:e ></a:b>"

theorem writes_sampleWriting : sampleSource.Writes sampleWriting := by
  have hamp : Reference.Escapes Reference.Kind.all (lit "x&y") (lit "x&amp;y") :=
    .plain (by decide) (.reference (by decide) .amp (.plain (by decide) .nil))
  have htext : Reference.Escapes Reference.Kind.all (lit "t<A") (lit "t&lt;&#x41;") :=
    .plain (by decide) (.reference (by decide) .lt (.reference (k := .hexadecimal) (by decide)
      (.hexadecimal (by decide) (List.all_eq_true.mp (by decide)) ⟨by decide, by decide⟩ :
        Reference.Kind.Spells _ (lit "#x41") _) .nil))
  have hdeclared : WritesAttribute (lit "xmlns:a", lit "x&y") (lit " xmlns:a=\"x&amp;y\"") :=
    ⟨lit " ", [], [], lit "x&amp;y", unit '"', by decide, by decide, by decide, by decide, by decide, hamp,
      by decide, by decide⟩
  have hid : WritesAttribute (lit "id", lit "1") (lit " id = '1'") :=
    ⟨lit " ", lit " ", lit " ", lit "1", unit '\'', by decide, by decide, by decide, by decide, by decide,
      .plain (by decide) .nil, by decide, by decide⟩
  have hinner : WritesAttribute (lit "xmlns:a", lit "z") (lit " xmlns:a='z'") :=
    ⟨lit " ", [], [], lit "z", unit '\'', by decide, by decide, by decide, by decide, by decide,
      .plain (by decide) .nil, by decide, by decide⟩
  have hd : Writes (.element (lit "a:d") [] []) (lit "<a:d/>") :=
    ⟨[], [], rfl, by decide, .inl ⟨rfl, by decide⟩⟩
  have he : Writes (.element (lit "a:e") [] []) (lit "<a:e></a:e >") :=
    ⟨[], [], rfl, by decide, .inr ⟨[], lit " ", rfl, by decide, by decide⟩⟩
  have hc : Writes (.element (lit "c") [(lit "xmlns:a", lit "z")] [.element (lit "a:d") [] []])
      (lit "<c xmlns:a='z'><a:d/></c>") :=
    ⟨lit " xmlns:a='z'", [], ⟨_, [], hinner, rfl, by decide⟩, by decide,
      .inr ⟨lit "<a:d/>", [], ⟨_, [], hd, rfl, by decide⟩, by decide, by decide⟩⟩
  refine ⟨lit " xmlns:a=\"x&amp;y\" id = '1'", lit " ", ⟨_, _, hdeclared, ⟨_, [], hid, rfl, rfl⟩, by decide⟩,
    by decide, .inr ⟨lit "<c xmlns:a='z'><a:d/></c>t&lt;&#x41;<![CDATA[<&]]><a:e></a:e >", [], ?_, by decide,
      by decide +kernel⟩⟩
  exact ⟨_, _, hc, ⟨_, _, ⟨htext, by decide⟩, ⟨_, _, rfl, ⟨_, [], he, rfl, rfl⟩, rfl⟩, rfl⟩, by decide⟩

theorem drain_sampleWriting : ∃ ts r, (ofText sampleWriting).drain = (ts, none, r) ∧
    ts.map Token.event =
      [.opening ⟨lit "x&y", lit "b"⟩ [(lit "id", lit "1")], .opening ⟨[], lit "c"⟩ [],
        .opening ⟨lit "z", lit "d"⟩ [], .closing ⟨lit "z", lit "d"⟩, .closing ⟨[], lit "c"⟩,
        .text (lit "t<A"), .text (lit "<&"), .opening ⟨lit "x&y", lit "e"⟩ [], .closing ⟨lit "x&y", lit "e"⟩,
        .closing ⟨lit "x&y", lit "b"⟩] ∧
    r.next = .ok none r ∧ r.opened = [] := by
  have hwf : sampleSource.WellFormed := by decide +kernel
  obtain ⟨ts, r, hdrain, hevents, hend⟩ := drain_eq_events hwf writes_sampleWriting
  exact ⟨ts, r, hdrain, hevents.trans (by decide +kernel), hend⟩

end Reader
end Pictogram
