import Pictogram.Proofs.Markup.Progress

/-! # Reading looks no further than it goes

Two readers are alike when they stand at the same place and their texts differ only in what comes last:
`z` for one and `z'` for the other (`Reader.Alike`).  Whatever one of them reads in front of `z`, the other
reads too, and they are alike again behind it (`Alike.next`, `Alike.skip`).

A construct with a terminator of its own may reach up to `z`.  A run of units, such as a name or a text,
ends where another unit follows, so that unit has to stand in front of `z` as well. -/

namespace Pictogram

/-! ### Terminators -/

namespace Text

/-- Whether `front` stands in front is seen in the first `front.length` units. -/
theorem prefix_append_congr {front t z : Text} (z' : Text) (h : front <+: t ++ z) (ht : front.length ≤ t.length) :
    front <+: t ++ z' := by
  have hfront : front <+: t := List.prefix_of_prefix_length_le h (List.prefix_append t z) ht
  exact hfront.trans (List.prefix_append t z')

/-- The first place of `stop` is found by the text up to its end. -/
theorem offsetOf?_append_congr {stop t z : Text} (z' : Text) {n k : Nat} (hstop : stop ≠ [])
    (h : offsetOf? stop n (t ++ z) = some k) (hk : k + stop.length ≤ n + t.length) :
    offsetOf? stop n (t ++ z') = some k := by
  have hpos := List.length_pos_iff.mpr hstop
  induction t generalizing n with
  | nil =>
      obtain ⟨front, _, -, rfl, -⟩ := endsFirst_of_offsetOf? h
      rw [List.length_nil] at hk
      omega
  | cons u t ih =>
      have hn : n ≤ k := by
        obtain ⟨front, _, -, rfl, -⟩ := endsFirst_of_offsetOf? h
        omega
      have hfits : stop.length ≤ (u :: t).length := by omega
      rw [List.cons_append, offsetOf?] at h ⊢
      split at h
      · next hs =>
        have hs' : startsWith (u :: (t ++ z')) stop :=
          startsWith_iff.mpr (prefix_append_congr (t := u :: t) z' (startsWith_iff.mp hs) hfits)
        rw [if_pos hs']
        exact h
      · next hs =>
        have hs' : ¬ startsWith (u :: (t ++ z')) stop := by
          intro hs'
          exact hs (startsWith_iff.mpr (prefix_append_congr (t := u :: t) z (startsWith_iff.mp hs') hfits))
        rw [if_neg hs']
        rw [List.length_cons] at hk
        exact ih h (by omega)

end Text

theorem Cursor.declarationLength?_append_congr {t z : Text} (z' : Text) {depth : Int} {n k : Nat}
    (h : declarationLength? depth n (t ++ z) = some k) (hk : k ≤ n + t.length) :
    declarationLength? depth n (t ++ z') = some k := by
  induction t generalizing depth n with
  | nil =>
      have hlt := (lt_of_declarationLength? h).1
      rw [List.length_nil] at hk
      omega
  | cons u t ih =>
      rw [List.length_cons] at hk
      rw [List.cons_append, declarationLength?] at h ⊢
      split
      · next hopen =>
        rw [if_pos hopen] at h
        exact ih h (by omega)
      · next hopen =>
        rw [if_neg hopen] at h
        split
        · next hclose =>
          rw [if_pos hclose] at h
          exact ih h (by omega)
        · next hclose =>
          rw [if_neg hclose] at h
          split
          · next hend =>
            rw [if_pos hend] at h
            exact h
          · next hend =>
            rw [if_neg hend] at h
            exact ih h (by omega)

/-! ### Cursors -/

namespace Cursor

/-- Two cursors at one place whose texts differ only in that one ends in `z` and the other in `z'`. -/
structure Alike (z z' : Text) (c c' : Cursor) : Prop where
  rest_eq : ∃ t, c.rest = t ++ z ∧ c'.rest = t ++ z'
  position_eq : c'.position = c.position

namespace Alike

variable {z z' : Text} {c c' d : Cursor}

theorem advance (h : Alike z z' c c') {n : Nat} (hn : z.length + n ≤ c.rest.length) :
    Alike z z' (c.advance n) (c'.advance n) := by
  obtain ⟨t, ht, ht'⟩ := h.rest_eq
  have hfits : n ≤ t.length := by
    rw [ht, List.length_append] at hn
    omega
  refine ⟨⟨t.drop n, ?_, ?_⟩, ?_⟩
  · show c.rest.drop n = t.drop n ++ z
    rw [ht, List.drop_append_of_le_length hfits]
  · show c'.rest.drop n = t.drop n ++ z'
    rw [ht', List.drop_append_of_le_length hfits]
  · show c'.position.after (c'.rest.take n) = c.position.after (c.rest.take n)
    rw [h.position_eq, ht, ht', List.take_append_of_le_length hfits, List.take_append_of_le_length hfits]

/-- A run of units that ends in front of `z` is the same run for both. -/
theorem takeWhile (h : Alike z z' c c') (p : CodeUnit → Bool) (hlt : z.length < (c.takeWhile p).2.rest.length) :
    (c'.takeWhile p).1 = (c.takeWhile p).1 ∧ Alike z z' (c.takeWhile p).2 (c'.takeWhile p).2 := by
  obtain ⟨t, ht, ht'⟩ := h.rest_eq
  rw [length_rest_takeWhile] at hlt
  have hrun : c.rest.takeWhile p = t.takeWhile p := by
    rw [ht, List.takeWhile_append]
    refine if_neg ?_
    intro hall
    have hfirst : (c.takeWhile p).1 = t ++ z.takeWhile p := by
      show c.rest.takeWhile p = _
      rw [ht, List.takeWhile_append, if_pos hall]
    rw [hfirst, ht, List.length_append, List.length_append] at hlt
    omega
  have hne : (t.takeWhile p).length ≠ t.length := by
    intro hall
    have hfirst : (c.takeWhile p).1.length = t.length := by
      show (c.rest.takeWhile p).length = _
      rw [hrun, hall]
    rw [hfirst, ht, List.length_append] at hlt
    omega
  have hrun' : c'.rest.takeWhile p = t.takeWhile p := by rw [ht', List.takeWhile_append, if_neg hne]
  have heq : c'.rest.takeWhile p = c.rest.takeWhile p := hrun'.trans hrun.symm
  refine ⟨heq, ?_⟩
  show Alike z z' (c.advance (c.rest.takeWhile p).length) (c'.advance (c'.rest.takeWhile p).length)
  rw [heq]
  apply h.advance
  change z.length < c.rest.length - (c.rest.takeWhile p).length at hlt
  omega

theorem skipBlanks (h : Alike z z' c c') (hlt : z.length < c.skipBlanks.rest.length) :
    Alike z z' c.skipBlanks c'.skipBlanks := (h.takeWhile _ hlt).2

theorem name (h : Alike z z' c c') (hlt : z.length < c.name.2.rest.length) :
    c'.name.1 = c.name.1 ∧ Alike z z' c.name.2 c'.name.2 := h.takeWhile _ hlt

/-- The unit at the cursor is the same for both. -/
theorem rest_cons (h : Alike z z' c c') {u : CodeUnit} {t : Text} (hc : c.rest = u :: t)
    (hlt : z.length ≤ t.length) : ∃ t', c'.rest = u :: t' := by
  obtain ⟨s, hs, hs'⟩ := h.rest_eq
  cases s with
  | nil =>
      have hlength := congrArg List.length (hc.symm.trans hs)
      rw [List.length_cons, List.nil_append] at hlength
      omega
  | cons v s =>
      obtain ⟨rfl, -⟩ := List.cons.inj (hc.symm.trans hs)
      exact ⟨s ++ z', hs'⟩

theorem head? (h : Alike z z' c c') (hlt : z.length < c.rest.length) : c'.rest.head? = c.rest.head? := by
  obtain ⟨u, t, hc⟩ := List.exists_cons_of_length_pos (Nat.zero_lt_of_lt hlt)
  rw [hc, List.length_cons] at hlt
  obtain ⟨t', hc'⟩ := h.rest_cons hc (by omega)
  rw [hc, hc']
  rfl

theorem rest_ne_nil (h : Alike z z' c c') (hlt : z.length < c.rest.length) : c'.rest ≠ [] := by
  obtain ⟨u, t, hc⟩ := List.exists_cons_of_length_pos (Nat.zero_lt_of_lt hlt)
  rw [hc, List.length_cons] at hlt
  obtain ⟨t', hc'⟩ := h.rest_cons hc (by omega)
  rw [hc']
  exact List.cons_ne_nil u t'

theorem readPast {stop t : Text} {enclosure : Enclosure} (h : Alike z z' c c') (hstop : stop ≠ [])
    (hd : c.readPast stop enclosure = .ok t d) (hz : z.length ≤ d.rest.length) :
    ∃ d', c'.readPast stop enclosure = .ok t d' ∧ Alike z z' d d' := by
  obtain ⟨s, hs, hs'⟩ := h.rest_eq
  unfold Cursor.readPast at hd
  split at hd
  · next hp =>
    cases hd
    obtain ⟨n, hn, e⟩ := Option.map_eq_some_iff.mp hp
    obtain ⟨rfl, rfl⟩ := Prod.mk.inj e
    obtain ⟨front, rest, hrest, hlength, -⟩ := Text.endsFirst_of_offsetOf? hn
    have hfits : n + stop.length ≤ c.rest.length := by
      have := congrArg List.length hrest
      simp only [List.length_append] at this
      omega
    have hroom : z.length + (n + stop.length) ≤ c.rest.length := by
      rw [length_rest_advance] at hz
      omega
    have hn' : Text.offsetOf? stop 0 c'.rest = some n := by
      rw [hs']
      apply Text.offsetOf?_append_congr (z := z) z' hstop (hs ▸ hn)
      rw [hs, List.length_append] at hroom
      omega
    refine ⟨c'.advance (n + stop.length), ?_, h.advance hroom⟩
    have htake : c'.rest.take n = c.rest.take n := by
      have hle : n ≤ s.length := by
        rw [hs, List.length_append] at hroom
        omega
      rw [hs, hs', List.take_append_of_le_length hle, List.take_append_of_le_length hle]
    simp only [Cursor.readPast, past?, hn', Option.map_some, htake]
  · cases hd

theorem readDeclaration {t : Text} (h : Alike z z' c c') (hd : c.readDeclaration = .ok t d)
    (hz : z.length ≤ d.rest.length) : ∃ d', c'.readDeclaration = .ok t d' ∧ Alike z z' d d' := by
  obtain ⟨s, hs, hs'⟩ := h.rest_eq
  unfold Cursor.readDeclaration at hd
  split at hd
  · next n hn =>
    cases hd
    obtain ⟨body, rest, hrest, rfl, -⟩ := isDeclaration_of_declarationLength? hn
    have hroom : z.length + (0 + body.length + 1) ≤ c.rest.length := by
      have := congrArg List.length hrest
      simp only [List.length_append, List.length_cons] at this
      rw [length_rest_advance] at hz
      omega
    have hfits : 0 + body.length + 1 ≤ s.length := by
      rw [hs, List.length_append] at hroom
      omega
    have hn' : declarationLength? 0 0 c'.rest = some (0 + body.length + 1) := by
      rw [hs']
      exact declarationLength?_append_congr (z := z) z' (hs ▸ hn) (by omega)
    refine ⟨c'.advance (0 + body.length + 1), ?_, h.advance hroom⟩
    have htake : c'.rest.take (0 + body.length + 1) = c.rest.take (0 + body.length + 1) := by
      rw [hs, hs', List.take_append_of_le_length hfits, List.take_append_of_le_length hfits]
    simp only [Cursor.readDeclaration, hn', htake]
  · cases hd

end Alike
end Cursor

/-! ### Tags -/

namespace Tag

open Cursor

variable {z z' : Text} {c c' d : Cursor} {ended : Fault}

theorem rest_of_readValue {key value : Text} {place : Position} (h : readValue ended key place c = .ok value d) :
    d.rest.length + 2 ≤ c.rest.length := by
  unfold readValue at h
  split at h
  · cases h
  · next quote t hc =>
    split at h
    · dsimp only at h
      split at h
      · cases h
      · next hne =>
        split at h
        · cases h
        · cases h
          have hpos := List.length_pos_iff.mpr hne
          have hle := length_rest_takeWhile (c.advance 1) (· ≠ quote)
          simp only [length_rest_advance] at hle ⊢
          omega
    · cases h

theorem alike_readValue {key value : Text} {place : Position} (h : Alike z z' c c')
    (hd : readValue ended key place c = .ok value d) (hz : z.length ≤ d.rest.length) :
    ∃ d', readValue ended key place c' = .ok value d' ∧ Alike z z' d d' := by
  have hroom := rest_of_readValue hd
  unfold readValue at hd
  split at hd
  · cases hd
  · next quote t hc =>
    obtain ⟨t', hc'⟩ := h.rest_cons hc (by rw [hc, List.length_cons] at hroom; omega)
    split at hd
    · next hquote =>
      dsimp only at hd
      split at hd
      · cases hd
      · next hne =>
        have hpos := List.length_pos_iff.mpr hne
        split at hd
        · cases hd
        · next hdecode =>
          cases hd
          rw [length_rest_advance] at hz hroom
          have hopen : Alike z z' (c.advance 1) (c'.advance 1) := h.advance (by omega)
          obtain ⟨hraw, hclose⟩ := hopen.takeWhile (· ≠ quote) (by omega)
          refine ⟨_, ?_, hclose.advance (n := 1) (by omega)⟩
          have hne' : ((c'.advance 1).takeWhile (· ≠ quote)).2.rest ≠ [] := hclose.rest_ne_nil (by omega)
          unfold readValue
          rw [hc']
          simp only [if_pos hquote, if_neg hne', hraw, hdecode]
    · cases hd

theorem alike_readAttribute {element : Text} {u : CodeUnit} {entry : Text × Text} (h : Alike z z' c c')
    (hd : readAttribute ended element u c = .ok entry d) (hz : z.length ≤ d.rest.length) :
    ∃ d', readAttribute ended element u c' = .ok entry d' ∧ Alike z z' d d' := by
  unfold readAttribute at hd
  dsimp only at hd
  split at hd
  · cases hd
  · next hkey =>
    split at hd
    · next hequals =>
      split at hd
      · cases hd
      · next value s hvalue =>
        cases hd
        have hroom := rest_of_readValue hvalue
        have hle₁ := (c.name.2.skipBlanks.advance 1).length_rest_skipBlanks_le
        rw [length_rest_advance] at hle₁
        have hle₂ := c.name.2.length_rest_skipBlanks_le
        obtain ⟨hname, hn⟩ := h.name (by omega)
        have hblanks := hn.skipBlanks (by omega)
        have hafter := (hblanks.advance (n := 1) (by omega)).skipBlanks (by omega)
        obtain ⟨d', hd', halike⟩ := alike_readValue hafter hvalue hz
        refine ⟨d', ?_, halike⟩
        have hhead := hblanks.head? (by omega)
        unfold readAttribute
        simp only [hname, if_neg hkey, hhead, if_pos hequals, h.position_eq, hd']
    · cases hd

theorem alike_readAttributes {element : Text} {found attributes : Table} (h : Alike z z' c c')
    (hd : readAttributes ended element found c = .ok attributes d) (hz : z.length < d.rest.length) :
    ∃ d', readAttributes ended element found c' = .ok attributes d' ∧ Alike z z' d d' := by
  fun_induction readAttributes ended element found c generalizing c' with
  | case1 => cases hd
  | case2 found c u t hrest hu =>
      cases hd
      have hblanks := h.skipBlanks hz
      obtain ⟨t', hrest'⟩ := hblanks.rest_cons hrest (by rw [hrest, List.length_cons] at hz; omega)
      exact ⟨_, readAttributes_of_closing ended element _ hrest' hu, hblanks⟩
  | case3 => cases hd
  | case4 found c u t hrest hu key value s hattribute hlt ih =>
      have hle := length_rest_readAttributes_le hd
      have hlt' := length_rest_readAttribute_lt hattribute
      have hblanks := h.skipBlanks (by omega)
      obtain ⟨t', hrest'⟩ := hblanks.rest_cons hrest (by rw [hrest, List.length_cons] at hlt'; omega)
      obtain ⟨s', hs', halike⟩ := alike_readAttribute hblanks hattribute (by omega)
      rw [readAttributes_of_attribute ended element found hrest' hu hs']
      exact ih halike hd

theorem alike_readBracket {element t : Text} {u : CodeUnit} {selfClosing : Bool} (h : Alike z z' c c')
    (hc : c.rest = u :: t) (hu : EndsTag u) (hd : readBracket element c = .ok selfClosing d)
    (hz : z.length ≤ d.rest.length) :
    ∃ d', readBracket element c' = .ok selfClosing d' ∧ Alike z z' d d' := by
  have hpasses := passes_of_readBracket hc hu hd
  have hlength := congrArg List.length hpasses.rest_eq
  rw [List.length_append] at hlength
  obtain ⟨s, hs, hs'⟩ := h.rest_eq
  have hprefix : bracket selfClosing <+: c'.rest := by
    rw [hs']
    apply Text.prefix_append_congr (z := z)
    · rw [← hs]
      exact ⟨_, hpasses.rest_eq.symm⟩
    · rw [hs, List.length_append] at hlength
      omega
  obtain ⟨rest', hrest'⟩ := hprefix
  have hroom : z.length + (bracket selfClosing).length ≤ c.rest.length := by omega
  cases selfClosing with
  | true =>
      refine ⟨c'.advance 2, ?_, ?_⟩
      · rw [readBracket, ← hrest']
        rfl
      · have hadvance : c.advance 2 = d := by
          unfold readBracket at hd
          split at hd
          · split at hd <;> cases hd
            rfl
          · cases hd
        rw [← hadvance]
        exact h.advance hroom
  | false =>
      refine ⟨c'.advance 1, ?_, ?_⟩
      · rw [readBracket, ← hrest']
        rfl
      · have hadvance : c.advance 1 = d := by
          unfold readBracket at hd
          split at hd
          · split at hd <;> cases hd
          · cases hd
            rfl
        rw [← hadvance]
        exact h.advance hroom

theorem alike_readOpening {tag : OpeningTag} (h : Alike z z' c c') (hd : readOpening ended c = .ok tag d)
    (hz : z.length ≤ d.rest.length) : ∃ d', readOpening ended c' = .ok tag d' ∧ Alike z z' d d' := by
  unfold readOpening at hd
  dsimp only at hd
  split at hd
  · cases hd
  · next hne =>
    split at hd
    · cases hd
    · next attributes s hattributes =>
      split at hd
      · cases hd
      · next selfClosing s' hbracket =>
        cases hd
        obtain ⟨u, t, hs, hu⟩ := endsTag_of_readAttributes hattributes
        have hspan := congrArg List.length (passes_of_readBracket hs hu hbracket).rest_eq
        have hpos : 0 < (bracket selfClosing).length := by cases selfClosing <;> decide
        rw [List.length_append] at hspan
        have hle := length_rest_readAttributes_le hattributes
        have hle' : (c.advance 1).name.2.rest.length ≤ (c.advance 1).rest.length :=
          ((Reaches.refl (c.advance 1)).name).length_rest_le
        rw [length_rest_advance] at hle'
        obtain ⟨hname, hn⟩ := (h.advance (n := 1) (by omega)).name (by omega)
        obtain ⟨s₁, hs₁, h₁⟩ := alike_readAttributes hn hattributes (by omega)
        obtain ⟨s₂, hs₂, h₂⟩ := alike_readBracket h₁ hs hu hbracket hz
        refine ⟨s₂, ?_, h₂⟩
        unfold readOpening
        simp only [hname, if_neg hne, hs₁, hs₂]

theorem alike_readClosing {written : Text} (h : Alike z z' c c') (hd : readClosing ended c = .ok written d)
    (hz : z.length ≤ d.rest.length) (hc : 2 ≤ c.rest.length) :
    ∃ d', readClosing ended c' = .ok written d' ∧ Alike z z' d d' := by
  unfold readClosing at hd
  dsimp only at hd
  split at hd
  · cases hd
  · next u t hrest =>
    split at hd
    · next hu =>
      cases hd
      have hlength := congrArg List.length hrest
      rw [List.length_cons] at hlength
      rw [length_rest_advance] at hz
      have hle := (c.advance 2).name.2.length_rest_skipBlanks_le
      have hle' : (c.advance 2).name.2.rest.length ≤ (c.advance 2).rest.length :=
        ((Reaches.refl (c.advance 2)).name).length_rest_le
      rw [length_rest_advance] at hle'
      obtain ⟨hname, hn⟩ := (h.advance (n := 2) (by omega)).name (by omega)
      have hblanks := hn.skipBlanks (by omega)
      obtain ⟨t', hrest'⟩ := hblanks.rest_cons hrest (by omega)
      refine ⟨_, ?_, hblanks.advance (n := 1) (by omega)⟩
      unfold readClosing
      simp only [hname, hrest', if_pos hu]
    · cases hd

end Tag

/-! ### Constructs -/

/-- What kind of construct begins is seen in the text up to the first `>`, or in a unit other than `<`. -/
theorem Construct.ofText_append_congr {t : Text} (z z' : Text)
    (ht : unit '>' ∈ t ∨ ∃ u rest, t = u :: rest ∧ u ≠ unit '<') : ofText (t ++ z) = ofText (t ++ z') := by
  have hfront {front : Text} (hend : unit '>' ∉ front) (hbegin : front.head? = some (unit '<')) (y y' : Text)
      (h : front <+: t ++ y) : front <+: t ++ y' := by
    rcases ht with hmem | ⟨u, rest, rfl, hu⟩
    · apply Text.prefix_append_congr y' h
      rcases List.prefix_or_prefix_of_prefix h (List.prefix_append t y) with hle | hle
      · exact hle.length_le
      · exact absurd (hle.mem hmem) hend
    · obtain ⟨tail, htail⟩ := h
      cases front with
      | nil => cases hbegin
      | cons v front =>
          obtain ⟨rfl, -⟩ := List.cons.inj htail
          exact absurd (Option.some.inj hbegin) hu
  have hsame (front : Text) (hend : unit '>' ∉ front) (hbegin : front.head? = some (unit '<')) :
      Text.startsWith (t ++ z) front = Text.startsWith (t ++ z') front := by
    rw [Bool.eq_iff_iff, Text.startsWith_iff, Text.startsWith_iff]
    exact ⟨hfront hend hbegin z z', hfront hend hbegin z' z⟩
  unfold ofText
  rw [hsame (lit "<!--") (by decide) (by decide), hsame (lit "<?") (by decide) (by decide),
    hsame (lit "<![CDATA[") (by decide) (by decide), hsame (lit "<!") (by decide) (by decide),
    hsame (lit "</") (by decide) (by decide), hsame (lit "<") (by decide) (by decide)]

theorem Skipped.mem {t : Text} (h : Skipped t) : unit '>' ∈ t := by
  cases h with
  | comment _ hends => exact hends.1.mem (by decide)
  | instruction _ hends => exact hends.1.mem (by decide)
  | declaration => simp

theorem Written.mem {opened opened' : List OpenElement} {t : Token} {construct rest : Text}
    {owed : Option (ElementName × Position)} (h : Written opened t construct rest opened' owed) :
    unit '>' ∈ construct ∨ ∃ u tail, construct = u :: tail ∧ u ≠ unit '<' := by
  cases h with
  | opening attributes place selfClosing =>
      left
      have hbracket : unit '>' ∈ Tag.bracket selfClosing := by cases selfClosing <;> decide
      simp [hbracket]
  | closing place hb =>
      left
      simp [show lit ">" = [unit '>'] from rfl]
  | text place hne hmem =>
      right
      obtain ⟨u, tail, rfl⟩ := List.exists_cons_of_ne_nil hne
      refine ⟨u, tail, rfl, ?_⟩
      rintro rfl
      exact hmem (by simp)
  | characterData place hends =>
      left
      simp [show lit "]]>" = [unit ']', unit ']', unit '>'] from rfl]

namespace Reader

/-- Two readers with the same open elements and the same closing token owed, whose cursors are alike. -/
structure Alike (z z' : Text) (r r' : Reader) : Prop where
  cursor : r.cursor.Alike z z' r'.cursor
  opened_eq : r'.opened = r.opened
  pending_eq : r'.pending = r.pending

variable {z z' : Text} {r r' s : Reader}

theorem alike_ofText (t z z' : Text) : Alike z z' (ofText (t ++ z)) (ofText (t ++ z')) :=
  ⟨⟨⟨t, rfl, rfl⟩, rfl⟩, rfl, rfl⟩

namespace Alike

theorem with_cursor {c c' : Cursor} (h : Alike z z' r r') (hc : c.Alike z z' c') :
    Alike z z' { r with cursor := c } { r' with cursor := c' } := ⟨hc, h.opened_eq, h.pending_eq⟩

theorem leave {written : Text} {place : Position} {t : Option Token} (h : Alike z z' r r')
    (hs : r.leave written place = .ok t s) : ∃ s', r'.leave written place = .ok t s' ∧ Alike z z' s s' := by
  unfold Reader.leave at hs
  split at hs
  · cases hs
  · next e outer ho =>
    split at hs
    · next hw =>
      cases hs
      refine ⟨{ r' with opened := outer }, ?_, h.cursor, rfl, h.pending_eq⟩
      unfold Reader.leave
      simp only [h.opened_eq, ho, if_pos hw]
    · cases hs

theorem enter {tag : OpeningTag} {place : Position} {t : Option Token} (h : Alike z z' r r')
    (hs : r.enter tag place = .ok t s) : ∃ s', r'.enter tag place = .ok t s' ∧ Alike z z' s s' := by
  unfold Reader.enter at hs ⊢
  dsimp only at hs ⊢
  cases hs
  rw [h.opened_eq]
  refine ⟨_, rfl, ?_⟩
  cases tag.selfClosing with
  | true => exact ⟨h.cursor, rfl, rfl⟩
  | false => exact ⟨h.cursor, rfl, h.pending_eq⟩

/-- A part that only moves the cursor, and what is done with its result. -/
theorem lift {α β : Type} {o o' : Outcome Cursor α} {k : α → Reader → Outcome Reader β} {b : β}
    (ho : ∀ a c, o = .ok a c → k a { r with cursor := c } = .ok b s →
      ∃ c' s', o' = .ok a c' ∧ k a { r' with cursor := c' } = .ok b s' ∧ Alike z z' s s')
    (hs : r.lift o k = .ok b s) : ∃ s', r'.lift o' k = .ok b s' ∧ Alike z z' s s' := by
  obtain ⟨a, c, hc, hk⟩ := lift_eq_ok hs
  obtain ⟨c', s', hc', hs', halike⟩ := ho a c hc hk
  exact ⟨s', by rw [hc']; exact hs', halike⟩

/-- The construct at the cursor is of the same kind for both if it is read in front of `z`. -/
theorem construct_eq {t : Option Token} (h : Alike z z' r r') (hp : r.pending = none) (hr : r.cursor.rest ≠ [])
    (hs : r.step = .ok t s) (hz : z.length ≤ s.cursor.rest.length) :
    Construct.ofText r'.cursor.rest = Construct.ofText r.cursor.rest := by
  have hspan : ∃ passed, r.cursor.Passes passed s.cursor ∧
      (unit '>' ∈ passed ∨ ∃ u tail, passed = u :: tail ∧ u ≠ unit '<') := by
    cases t with
    | none =>
        obtain ⟨passed, hpasses, hskipped⟩ := skipped_of_step hs
        exact ⟨passed, hpasses, .inl hskipped.mem⟩
    | some t =>
        obtain ⟨construct, hpasses, hwritten, -⟩ := writtenAt_of_step hp hr hs
        exact ⟨construct, hpasses, hwritten.mem⟩
  obtain ⟨passed, hpasses, hmem⟩ := hspan
  obtain ⟨x, hx, hx'⟩ := h.cursor.rest_eq
  have hpassed : passed <+: x := by
    have hfirst : passed <+: x ++ z := ⟨s.cursor.rest, by rw [← hx]; exact hpasses.rest_eq.symm⟩
    apply List.prefix_of_prefix_length_le hfirst (List.prefix_append x z)
    have hlength := congrArg List.length (hx.symm.trans hpasses.rest_eq)
    simp only [List.length_append] at hlength
    omega
  rw [hx, hx']
  apply Construct.ofText_append_congr
  rcases hmem with hmem | ⟨u, tail, rfl, hu⟩
  · exact .inl (hpassed.mem hmem)
  · obtain ⟨rest, hrest⟩ := hpassed
    exact .inr ⟨u, tail ++ rest, hrest.symm, hu⟩

theorem readText {t : Token} (h : Alike z z' r r') (hs : r.readText = .ok (some t) s)
    (hz : z.length < s.cursor.rest.length) : ∃ s', r'.readText = .ok (some t) s' ∧ Alike z z' s s' := by
  simp only [Reader.readText] at hs
  split at hs
  · cases hs
  · next content hdecode =>
    cases hs
    obtain ⟨hraw, halike⟩ := h.cursor.takeWhile (· ≠ unit '<') hz
    refine ⟨{ r' with cursor := (r'.cursor.takeWhile (· ≠ unit '<')).2 }, ?_, h.with_cursor halike⟩
    simp only [Reader.readText, hraw, hdecode, h.cursor.position_eq]

/-- A construct in front of `z` is read by both, and a text also if more than `z` comes behind it. -/
theorem step {t : Option Token} (h : Alike z z' r r') (hp : r.pending = none) (hr : r.cursor.rest ≠ [])
    (hs : r.step = .ok t s) (hz : z.length ≤ s.cursor.rest.length)
    (htext : ∀ content place, t = some (.text content place) → z.length < s.cursor.rest.length) :
    ∃ s', r'.step = .ok t s' ∧ Alike z z' s s' := by
  have hconstruct := h.construct_eq hp hr hs hz
  have hfront := Construct.front_prefix r.cursor.rest
  simp only [Reader.step] at hs ⊢
  rw [hconstruct, h.opened_eq, h.cursor.position_eq]
  split at hs
  · refine lift ?_ hs
    rintro text c hc ⟨⟩
    obtain ⟨c', hc', halike⟩ := h.cursor.readPast (by decide) hc hz
    exact ⟨c', _, hc', rfl, h.with_cursor halike⟩
  · refine lift ?_ hs
    rintro text c hc ⟨⟩
    obtain ⟨c', hc', halike⟩ := h.cursor.readPast (by decide) hc hz
    exact ⟨c', _, hc', rfl, h.with_cursor halike⟩
  · next hk =>
    rw [hk] at hfront
    refine lift ?_ hs
    rintro text c hc ⟨⟩
    have hspan := congrArg List.length (Cursor.passes_of_readPast hc).1.rest_eq
    have hlength : 9 ≤ r.cursor.rest.length := hfront.length_le
    rw [List.length_append, Cursor.length_rest_advance] at hspan
    change z.length ≤ c.rest.length at hz
    have hopen := h.cursor.advance (n := 9) (by omega)
    obtain ⟨c', hc', halike⟩ := hopen.readPast (by decide) hc hz
    exact ⟨c', _, hc', rfl, h.with_cursor halike⟩
  · refine lift ?_ hs
    rintro text c hc ⟨⟩
    obtain ⟨c', hc', halike⟩ := h.cursor.readDeclaration hc hz
    exact ⟨c', _, hc', rfl, h.with_cursor halike⟩
  · next hk =>
    rw [hk] at hfront
    refine lift ?_ hs
    intro written c hc hleave
    have hcursor := cursor_leave hleave
    obtain ⟨c', hc', halike⟩ := Tag.alike_readClosing h.cursor hc (by rw [hcursor] at hz; exact hz) hfront.length_le
    obtain ⟨s', hs', hsalike⟩ := (h.with_cursor halike).leave hleave
    exact ⟨c', s', hc', hs', hsalike⟩
  · refine lift ?_ hs
    intro tag c hc henter
    have hcursor := cursor_enter henter
    obtain ⟨c', hc', halike⟩ := Tag.alike_readOpening h.cursor hc (by rw [hcursor] at hz; exact hz)
    obtain ⟨s', hs', hsalike⟩ := (h.with_cursor halike).enter henter
    exact ⟨c', s', hc', hs', hsalike⟩
  · obtain ⟨content, place, rfl⟩ : ∃ content place, t = some (.text content place) := by
      simp only [Reader.readText] at hs
      split at hs
      · cases hs
      · next content _ =>
        cases hs
        exact ⟨content, _, rfl⟩
    exact h.readText hs (htext content place rfl)

end Alike

/-! ### Tokens -/

theorem read_of_step {t : Token} (hr : r.cursor.rest ≠ []) (h : r.step = .ok (some t) s) :
    r.read = .ok (some t) s := by
  rw [read, dif_neg hr]
  split <;> simp_all

theorem read_of_step_none (hr : r.cursor.rest ≠ []) (h : r.step = .ok none s) : r.read = s.read := by
  rw [read, dif_neg hr]
  split <;> simp_all

/-- After a text no closing token is owed. -/
theorem pending_of_text {content : Text} {place : Position} (h : r.next = .ok (some (.text content place)) s) :
    s.pending = none := by
  cases hs : s.pending with
  | none => rfl
  | some owed =>
      obtain ⟨_, _, _, ht, -⟩ := opening_of_pending h hs
      cases ht

namespace Alike

theorem read {t : Token} (h : Alike z z' r r') (hp : r.pending = none) (hs : r.read = .ok (some t) s)
    (hz : z.length ≤ s.cursor.rest.length)
    (htext : ∀ content place, t = .text content place → z.length < s.cursor.rest.length) :
    ∃ s', r'.read = .ok (some t) s' ∧ Alike z z' s s' := by
  fun_induction Reader.read r generalizing r' with
  | case1 => cases hs
  | case2 => cases hs
  | case3 r hr t' s₁ hstep =>
      cases hs
      have hlt := length_rest_step_lt hr hstep
      have hr' := h.cursor.rest_ne_nil (by omega)
      obtain ⟨s', hs', halike⟩ := h.step hp hr hstep hz
        (fun content place e => htext content place (Option.some.inj e))
      exact ⟨s', read_of_step hr' hs', halike⟩
  | case4 r hr s₁ hstep hlt ih =>
      have hle := (reaches_of_read hs).length_rest_le
      have hr' := h.cursor.rest_ne_nil (by omega)
      obtain ⟨s₁', hs₁', halike⟩ := h.step hp hr hstep (by omega) (by rintro _ _ ⟨⟩)
      have hp₁ : s₁.pending = none := by
        rw [eq_of_step_none hstep]
        exact hp
      obtain ⟨s', hs', hsalike⟩ := ih halike hp₁ hs
      exact ⟨s', by rw [read_of_step_none hr' hs₁', hs'], hsalike⟩

/-- A token in front of `z` is read by both, and a text also if more than `z` comes behind it. -/
theorem next {t : Token} (h : Alike z z' r r') (hs : r.next = .ok (some t) s)
    (hz : z.length ≤ s.cursor.rest.length)
    (htext : ∀ content place, t = .text content place → z.length < s.cursor.rest.length) :
    ∃ s', r'.next = .ok (some t) s' ∧ Alike z z' s s' := by
  unfold Reader.next at hs ⊢
  rw [h.pending_eq]
  split at hs
  · next name place hp =>
    cases hs
    exact ⟨_, rfl, h.cursor, by rw [h.opened_eq], rfl⟩
  · next hp => exact h.read hp hs hz htext

/-- Whatever lowers the budget further makes room behind a text. -/
theorem next_of_budget_lt {t : Token} {e : Reader} (h : Alike z z' r r') (hs : r.next = .ok (some t) s)
    (hz : z.length ≤ e.cursor.rest.length) (hreaches : s.cursor.Reaches e.cursor) (hlt : e.budget < s.budget) :
    ∃ s', r'.next = .ok (some t) s' ∧ Alike z z' s s' := by
  have hle := hreaches.length_rest_le
  apply h.next hs (by omega)
  rintro content place rfl
  have hp := pending_of_text hs
  simp only [budget, hp, Option.isSome_none, Bool.false_eq_true, if_false] at hlt
  omega

theorem skipTo {depth : Nat} (h : Alike z z' r r') (hs : r.skipTo depth = .ok () s)
    (hz : z.length ≤ s.cursor.rest.length) : ∃ s', r'.skipTo depth = .ok () s' ∧ Alike z z' s s' := by
  fun_induction Reader.skipTo r depth generalizing r' with
  | case1 => cases hs
  | case2 => cases hs
  | case3 r t s₁ hn _ hc =>
      cases hs
      obtain ⟨s', hs', halike⟩ := h.next hn hz (by rintro _ _ rfl; cases hc.1)
      refine ⟨s', ?_, halike⟩
      rw [skipTo_of_next _ hs', halike.opened_eq, if_pos hc]
  | case4 r t s₁ hn _ hc ih =>
      obtain ⟨s₁', hs₁', halike⟩ := h.next_of_budget_lt hn hz (reaches_of_skipTo hs) (budget_lt_of_skipTo hs)
      obtain ⟨s', hs', hsalike⟩ := ih halike hs
      refine ⟨s', ?_, hsalike⟩
      rw [skipTo_of_next _ hs₁', halike.opened_eq, if_neg hc, hs']

/-- An element that ends in front of `z` is passed by both. -/
theorem skip (h : Alike z z' r r') (hs : r.skip = .ok () s) (hz : z.length ≤ s.cursor.rest.length) :
    ∃ s', r'.skip = .ok () s' ∧ Alike z z' s s' := by
  obtain ⟨s', hs', halike⟩ := h.skipTo hs hz
  exact ⟨s', by rw [Reader.skip, h.opened_eq]; exact hs', halike⟩

end Alike
end Reader
end Pictogram
