import Pictogram.Proofs.Markup.Locality

/-! # Tags that break off

A tag is read without a fault; its text is broken off somewhere, and the front is read again.  Up to the
break everything is found as before.  A run of units that the break cuts through takes all that is left
(`Cursor.Alike.takeWhile_all`), and what is asked for next finds the text at its end.

Most of these places notice that the text has ended.  Some do not: where a certain unit is asked for and
none is found, the markup is faulted.  That is so directly behind `<`, behind the name of an attribute, behind
its equals sign, and behind the slash of `/>`; these are the gaps of a tag (`Source.Gap`,
`Source.BrokenTag`).  A tag fails as markup only at a gap (`breaksOff_readOpening`), and there it always does
(`readOpening_of_brokenTag`). -/

namespace Pictogram

/-! ### Cursors -/

namespace Cursor

variable {z : Text} {c c' : Cursor}

theorem Alike.length_lt (h : Alike z [] c c') (hne : c'.rest ≠ []) : z.length < c.rest.length := by
  obtain ⟨t, ht, ht'⟩ := h.rest_eq
  rw [List.append_nil] at ht'
  have hpos := List.length_pos_iff.mpr (ht' ▸ hne)
  rw [ht, List.length_append]
  omega

theorem Alike.length_le {z z' : Text} (h : Alike z z' c c') : z.length ≤ c.rest.length := by
  obtain ⟨t, ht, -⟩ := h.rest_eq
  rw [ht, List.length_append]
  omega

/-- A run of units that goes up to the break or over it takes all that is in front of it. -/
theorem Alike.takeWhile_all (h : Alike z [] c c') {p : CodeUnit → Bool}
    (hle : (c.takeWhile p).2.rest.length ≤ z.length) :
    (∀ u ∈ c'.rest, p u) ∧ (c'.takeWhile p).1 = c'.rest ∧ (c'.takeWhile p).2.rest = [] := by
  obtain ⟨t, ht, ht'⟩ := h.rest_eq
  rw [List.append_nil] at ht'
  have hall : ∀ u ∈ c'.rest, p u := by
    rw [ht', ← List.takeWhile_eq_self_iff]
    by_contra hne
    have hlt : (t.takeWhile p).length < t.length :=
      Nat.lt_of_le_of_ne (List.takeWhile_prefix p).length_le
        fun e => hne ((List.takeWhile_prefix p).eq_of_length e)
    have hrun : (c.takeWhile p).1 = t.takeWhile p := by
      show c.rest.takeWhile p = _
      rw [ht, List.takeWhile_append, if_neg (Nat.ne_of_lt hlt)]
    rw [length_rest_takeWhile, hrun, ht, List.length_append] at hle
    omega
  exact ⟨hall, takeWhile_eq (by simp) hall (by simp)⟩

theorem Alike.name_all (h : Alike z [] c c') (hle : c.name.2.rest.length ≤ z.length) :
    (∀ u ∈ c'.rest, isNameUnit u) ∧ c'.name.1 = c'.rest ∧ c'.name.2.rest = [] := h.takeWhile_all hle

theorem Alike.skipBlanks_all (h : Alike z [] c c') (hle : c.skipBlanks.rest.length ≤ z.length) :
    Source.IsBlank c'.rest ∧ c'.skipBlanks.rest = [] := by
  obtain ⟨hall, -, hrest⟩ := h.takeWhile_all hle
  exact ⟨hall, hrest⟩

theorem exists_blanks (c : Cursor) : ∃ b, Source.IsBlank b ∧ c.rest = b ++ c.skipBlanks.rest :=
  ⟨_, List.all_eq_true.mp List.all_takeWhile, (c.passes_takeWhile CodeUnit.isBlank).rest_eq⟩

theorem rest_advance_one {u : CodeUnit} {t : Text} (h : c.rest = u :: t) : (c.advance 1).rest = t :=
  rest_advance (a := [u]) h rfl

theorem rest_skipBlanks_of_nil (h : c.rest = []) : c.skipBlanks.rest = [] := by
  have hle := c.length_rest_skipBlanks_le
  rw [h] at hle
  exact List.length_eq_zero_iff.mp (Nat.le_zero.mp hle)

end Cursor

/-! ### Gaps -/

namespace Source

/-- What is written of a tag behind its name if it breaks off at a gap: whole attributes, and then an
attribute without its opening quote, or a slash. -/
inductive Gap : Text → Prop
  | slash {b : Text} : IsBlank b → Gap (b ++ [unit '/'])
  | key {b key b₁ : Text} : IsBlank b → IsName key → IsBlank b₁ → Gap (b ++ (key ++ b₁))
  | equals {b key b₁ b₂ : Text} : IsBlank b → IsName key → IsBlank b₁ → IsBlank b₂ →
      Gap (b ++ (key ++ (b₁ ++ unit '=' :: b₂)))
  | entry {b key b₁ b₂ raw t : Text} {quote : CodeUnit} : IsBlank b → IsName key → IsBlank b₁ → IsBlank b₂ →
      Tag.isQuote quote → quote ∉ raw → Gap t →
      Gap (b ++ (key ++ (b₁ ++ unit '=' :: (b₂ ++ quote :: (raw ++ quote :: t)))))

/-- A tag that breaks off at a gap. -/
inductive BrokenTag : Text → Prop
  | angle : BrokenTag [unit '<']
  | inside {name t : Text} : IsName name → (∀ u ∈ t.head?, Cursor.isNameUnit u = false) → Gap t →
      BrokenTag (unit '<' :: (name ++ t))

end Source

/-- Reading fails because the text ends, or it faults the markup at a gap. -/
def BreaksOff {σ α : Type} (gap : Prop) (o : Outcome σ α) : Prop :=
  ∃ e s, o = .error e s ∧ (e.cause.code = .unexpectedEnd ∨ e.cause.code = .malformedMarkup ∧ gap)

namespace Tag

open Cursor Source

variable {z : Text} {c c' d : Cursor} {ended : Fault}

theorem breaksOff_readValue {key value : Text} {place : Position} (hended : ended.code = .unexpectedEnd)
    (h : Alike z [] c c') (hne : c'.rest ≠ []) (hd : readValue ended key place c = .ok value d)
    (hz : d.rest.length < z.length) : BreaksOff False (readValue ended key place c') := by
  have hlt := h.length_lt hne
  unfold readValue at hd
  split at hd
  · cases hd
  · next quote t hc =>
    obtain ⟨t', hc'⟩ := h.rest_cons hc (by rw [hc, List.length_cons] at hlt; omega)
    split at hd
    · next hquote =>
      dsimp only at hd
      split at hd
      · cases hd
      · split at hd
        · cases hd
        · cases hd
          rw [length_rest_advance] at hz
          have hopen : Alike z [] (c.advance 1) (c'.advance 1) := h.advance (by omega)
          obtain ⟨-, -, hend⟩ := hopen.takeWhile_all (p := (· ≠ quote)) (by omega)
          unfold readValue
          rw [hc']
          simp only [if_pos hquote, if_pos hend]
          exact ⟨_, _, rfl, .inl hended⟩
    · cases hd

/-- An attribute breaks off in its name, in the blanks on either side of the equals sign, or in its value. -/
theorem breaksOff_readAttribute {element : Text} {u : CodeUnit} {entry : Text × Text}
    (hended : ended.code = .unexpectedEnd) (h : Alike z [] c c') (hne : c'.rest ≠ [])
    (hd : readAttribute ended element u c = .ok entry d) (hz : d.rest.length < z.length) :
    BreaksOff (∀ b, IsBlank b → Gap (b ++ c'.rest)) (readAttribute ended element u c') := by
  unfold readAttribute at hd
  dsimp only at hd
  split at hd
  · cases hd
  · next hkey =>
    split at hd
    · next hequals =>
      split at hd
      · cases hd
      · next value s hvalue =>
        cases hd
        by_cases hname : c.name.2.rest.length ≤ z.length
        · obtain ⟨hall, htake, hrest⟩ := h.name_all hname
          unfold readAttribute
          simp only [htake, if_neg hne, rest_skipBlanks_of_nil hrest]
          refine ⟨_, _, rfl, .inr ⟨rfl, fun b hb => ?_⟩⟩
          simpa using @Gap.key b c'.rest [] hb ⟨hne, hall⟩ (by simp [IsBlank])
        · obtain ⟨hkey', hn⟩ := h.name (by omega)
          have hname' := isName_name (hkey' ▸ hkey)
          have hsplit := c'.passes_name.rest_eq
          by_cases hblanks : c.name.2.skipBlanks.rest.length ≤ z.length
          · obtain ⟨hblank, hrest⟩ := hn.skipBlanks_all hblanks
            unfold readAttribute
            simp only [if_neg hname'.1, hrest]
            refine ⟨_, _, rfl, .inr ⟨rfl, fun b hb => ?_⟩⟩
            rw [hsplit]
            exact .key hb hname' hblank
          · have hb₁ := hn.skipBlanks (by omega)
            have hadvance := hb₁.advance (n := 1) (by omega)
            have hequals' := (hb₁.head? (by omega)).trans hequals
            unfold readAttribute
            simp only [if_neg hname'.1, if_pos hequals']
            by_cases hafter : (c.name.2.skipBlanks.advance 1).skipBlanks.rest.length ≤ z.length
            · obtain ⟨hblank₂, hrest⟩ := hadvance.skipBlanks_all hafter
              obtain ⟨b₁, hblank₁, hsplit₁⟩ := c'.name.2.exists_blanks
              obtain ⟨t, ht⟩ := List.head?_eq_some_iff.mp hequals'
              rw [rest_advance_one ht] at hblank₂
              rw [readValue, hrest]
              refine ⟨_, _, rfl, .inr ⟨rfl, fun b hb => ?_⟩⟩
              rw [hsplit, hsplit₁, ht]
              exact .equals hb hname' hblank₁ hblank₂
            · have hb₂ := hadvance.skipBlanks (by omega)
              obtain ⟨e, s', hs', hcode | ⟨-, ⟨⟩⟩⟩ :=
                breaksOff_readValue hended hb₂ (hb₂.rest_ne_nil (by omega)) hvalue hz
              rw [← h.position_eq, ← hkey'] at hs'
              rw [hs']
              exact ⟨e, s', rfl, .inl hcode⟩
    · cases hd

/-- What a quoted value spans. -/
theorem value_of_readValue {key value : Text} {place : Position} (h : readValue ended key place c = .ok value d) :
    ∃ quote raw, isQuote quote ∧ quote ∉ raw ∧ c.rest = quote :: (raw ++ quote :: d.rest) := by
  unfold readValue at h
  split at h
  · cases h
  · next quote t hc =>
    split at h
    · next hquote =>
      dsimp only at h
      split at h
      · cases h
      · next hne =>
        split at h
        · cases h
        · cases h
          have hspan := ((c.advance 1).passes_takeWhile (· ≠ quote)).rest_eq
          obtain ⟨q, t', hend⟩ := List.exists_cons_of_ne_nil hne
          have hq : q = quote := by
            have := head_takeWhile (c := c.advance 1) (p := (· ≠ quote)) (u := q) (by rw [hend]; rfl)
            simpa using this
          refine ⟨quote, ((c.advance 1).takeWhile (· ≠ quote)).1, hquote, ?_, ?_⟩
          · intro hmem
            have := List.all_eq_true.mp List.all_takeWhile quote hmem
            simp at this
          · rw [hc, ← rest_advance_one hc, hspan, rest_advance_one hend, hend, hq]
    · cases h

/-- What an attribute spans. -/
theorem attribute_of_readAttribute {element : Text} {u : CodeUnit} {entry : Text × Text}
    (h : readAttribute ended element u c = .ok entry d) :
    ∃ key b₁ b₂ raw quote, IsName key ∧ IsBlank b₁ ∧ IsBlank b₂ ∧ isQuote quote ∧ quote ∉ raw ∧
      c.rest = key ++ (b₁ ++ unit '=' :: (b₂ ++ quote :: (raw ++ quote :: d.rest))) := by
  unfold readAttribute at h
  dsimp only at h
  split at h
  · cases h
  · next hkey =>
    split at h
    · next hequals =>
      split at h
      · cases h
      · next value s hvalue =>
        cases h
        obtain ⟨t, ht⟩ := List.head?_eq_some_iff.mp hequals
        obtain ⟨quote, raw, hquote, hraw, hspan⟩ := value_of_readValue hvalue
        have hname := c.passes_name.rest_eq
        obtain ⟨b₁, hb₁, hblanks⟩ := c.name.2.exists_blanks
        obtain ⟨b₂, hb₂, hafter⟩ := (c.name.2.skipBlanks.advance 1).exists_blanks
        rw [rest_advance_one ht, hspan] at hafter
        refine ⟨c.name.1, b₁, b₂, raw, quote, isName_name hkey, hb₁, hb₂, hquote, hraw, ?_⟩
        rw [hname, hblanks, ht, hafter]
    · cases h

theorem readAttributes_of_end {element : Text} (found : Table) (h : c.skipBlanks.rest = []) :
    readAttributes ended element found c = .error (ended.placed c.skipBlanks.position) c.skipBlanks := by
  rw [readAttributes]
  split <;> simp_all

theorem readAttributes_of_error {element : Text} {u : CodeUnit} {t : Text} {e : CompileError} (found : Table)
    (h : c.skipBlanks.rest = u :: t) (hu : ¬ EndsTag u)
    (he : readAttribute ended element u c.skipBlanks = .error e d) :
    readAttributes ended element found c = .error e d := by
  rw [readAttributes]
  split
  · simp_all
  · next v t' h' =>
    rw [h] at h'
    cases h'
    rw [if_neg (show ¬ (u = unit '>' ∨ u = unit '/') from hu)]
    split <;> simp_all

/-- Attributes break off in the blanks in front of one, or of the bracket, or within one. -/
theorem breaksOff_readAttributes {element : Text} {found attributes : Table} (hended : ended.code = .unexpectedEnd)
    (h : Alike z [] c c') (hd : readAttributes ended element found c = .ok attributes d)
    (hz : d.rest.length ≤ z.length) :
    BreaksOff (Gap c'.rest) (readAttributes ended element found c') := by
  have hinBlanks {c c' : Cursor} {found : Table} (h : Alike z [] c c')
      (hle : c.skipBlanks.rest.length ≤ z.length) :
      BreaksOff (Gap c'.rest) (readAttributes ended element found c') := by
    obtain ⟨-, hrest⟩ := h.skipBlanks_all hle
    rw [readAttributes_of_end found hrest]
    exact ⟨_, _, rfl, .inl hended⟩
  fun_induction readAttributes ended element found c generalizing c' with
  | case1 => cases hd
  | case2 found c u t hrest hu =>
      cases hd
      exact hinBlanks h hz
  | case3 => cases hd
  | case4 found c u t hrest hu key value s hattribute hlt ih =>
      by_cases hblanks : c.skipBlanks.rest.length ≤ z.length
      · exact hinBlanks h hblanks
      · have hb := h.skipBlanks (by omega)
        have hne := hb.rest_ne_nil (by omega)
        obtain ⟨t', hrest'⟩ := hb.rest_cons hrest (by rw [hrest, List.length_cons] at hblanks; omega)
        obtain ⟨b, hblank, hsplit⟩ := c'.exists_blanks
        by_cases hs : s.rest.length < z.length
        · obtain ⟨e, d', he, hcause⟩ := breaksOff_readAttribute hended hb hne hattribute hs
          refine ⟨e, d', readAttributes_of_error found hrest' hu he, hcause.imp_right ?_⟩
          rintro ⟨hcode, hgap⟩
          exact ⟨hcode, hsplit ▸ hgap b hblank⟩
        · obtain ⟨s', hs', halike⟩ := alike_readAttribute hb hattribute (by omega)
          obtain ⟨e, d', he, hcause⟩ := ih halike hd
          refine ⟨e, d', ?_, hcause.imp_right ?_⟩
          · rw [readAttributes_of_attribute ended element found hrest' hu hs', he]
          · rintro ⟨hcode, hgap⟩
            obtain ⟨key', b₁, b₂, raw, quote, hkey, hb₁, hb₂, hquote, hraw, hspan⟩ :=
              attribute_of_readAttribute hs'
            refine ⟨hcode, ?_⟩
            rw [hsplit, hspan]
            exact .entry hblank hkey hb₁ hb₂ hquote hraw hgap

/-- Attributes up to a slash behind which the text breaks off. -/
theorem gap_of_readAttributes {element : Text} {found attributes : Table}
    (h : readAttributes ended element found c = .ok attributes d) (hd : d.rest = [unit '/']) : Gap c.rest := by
  fun_induction readAttributes ended element found c with
  | case1 => cases h
  | case2 found c u t hrest hu =>
      cases h
      obtain ⟨b, hb, hsplit⟩ := c.exists_blanks
      rw [hsplit, hd]
      exact .slash hb
  | case3 => cases h
  | case4 found c u t hrest hu key value s hattribute hlt ih =>
      obtain ⟨key', b₁, b₂, raw, quote, hkey, hb₁, hb₂, hquote, hraw, hspan⟩ :=
        attribute_of_readAttribute hattribute
      obtain ⟨b, hb, hsplit⟩ := c.exists_blanks
      rw [hsplit, hspan]
      exact .entry hb hkey hb₁ hb₂ hquote hraw (ih h)

/-- The bracket of a tag is cut only between `/` and `>`. -/
theorem breaksOff_readBracket {element : Text} {selfClosing : Bool} (h : Alike z [] c c') (hne : c'.rest ≠ [])
    (hd : readBracket element c = .ok selfClosing d) (hz : d.rest.length < z.length) :
    BreaksOff (c'.rest = [unit '/']) (readBracket element c') := by
  obtain ⟨t, ht, ht'⟩ := h.rest_eq
  rw [List.append_nil] at ht'
  have hpos := List.length_pos_iff.mpr (ht' ▸ hne)
  have hlength := congrArg List.length ht
  rw [List.length_append] at hlength
  have hhead := h.head? (by omega)
  unfold readBracket at hd
  split at hd
  · next hslash =>
    split at hd <;> cases hd
    rw [length_rest_advance] at hz
    obtain ⟨v, hv⟩ := List.length_eq_one_iff.mp (show t.length = 1 by omega)
    have hrest : c'.rest = [unit '/'] := by
      rw [hslash, ht', hv] at hhead
      rw [ht', hv, Option.some.inj hhead]
    rw [readBracket, hrest]
    exact ⟨_, _, rfl, .inr ⟨rfl, rfl⟩⟩
  · cases hd
    rw [length_rest_advance] at hz
    omega

/-- An opening tag breaks off in its name, in its attributes, or in front of its bracket. -/
theorem breaksOff_readOpening {tag : OpeningTag} {t : Text} (hended : ended.code = .unexpectedEnd)
    (h : Alike z [] c c') (hc' : c'.rest = unit '<' :: t) (hd : readOpening ended c = .ok tag d)
    (hz : d.rest.length < z.length) : BreaksOff (BrokenTag c'.rest) (readOpening ended c') := by
  have hlt := h.length_lt (by rw [hc']; exact List.cons_ne_nil _ _)
  have hadvance := h.advance (n := 1) (by omega)
  have hrest : (c'.advance 1).rest = t := rest_advance_one hc'
  have hsplit : t = (c'.advance 1).name.1 ++ (c'.advance 1).name.2.rest := hrest ▸ (c'.advance 1).passes_name.rest_eq
  unfold readOpening at hd
  dsimp only at hd
  split at hd
  · cases hd
  · next hwritten =>
    split at hd
    · cases hd
    · next attributes s hattributes =>
      split at hd
      · cases hd
      · next selfClosing s' hbracket =>
        cases hd
        unfold readOpening
        dsimp only
        by_cases hname : (c.advance 1).name.2.rest.length ≤ z.length
        · obtain ⟨-, htake, hend⟩ := hadvance.name_all hname
          rw [hrest] at htake
          rw [htake]
          by_cases hempty : t = []
          · rw [if_pos hempty]
            refine ⟨_, _, rfl, .inr ⟨rfl, ?_⟩⟩
            rw [hc', hempty]
            exact .angle
          · rw [if_neg hempty, readAttributes_of_end _ (rest_skipBlanks_of_nil hend)]
            exact ⟨_, _, rfl, .inl hended⟩
        · obtain ⟨hwritten', hn⟩ := hadvance.name (by omega)
          have hisName := isName_name (hwritten' ▸ hwritten)
          have hinside (hgap : Gap (c'.advance 1).name.2.rest) : BrokenTag c'.rest := by
            rw [hc', hsplit]
            exact .inside hisName (fun u hu => head_takeWhile hu) hgap
          rw [if_neg hisName.1]
          by_cases hs : s.rest.length ≤ z.length
          · obtain ⟨e, s₁, he, hcause⟩ := breaksOff_readAttributes hended hn hattributes hs
            rw [← hwritten'] at he
            rw [he]
            exact ⟨e, s₁, rfl, hcause.imp_right fun hg => ⟨hg.1, hinside hg.2⟩⟩
          · obtain ⟨s₁, hs₁, halike⟩ := alike_readAttributes hn hattributes (by omega)
            obtain ⟨e, s₂, he, hcause⟩ := breaksOff_readBracket halike (halike.rest_ne_nil (by omega)) hbracket hz
            rw [← hwritten'] at hs₁ he
            simp only [hs₁, he]
            exact ⟨e, s₂, rfl, hcause.imp_right fun hg => ⟨hg.1, hinside (gap_of_readAttributes hs₁ hg.2)⟩⟩

theorem readOpening_angle (ended : Fault) (h : c.rest = [unit '<']) :
    ∃ s, readOpening ended c = .error (Fault.missingElementName.placed c.position) s := by
  have hname : (c.advance 1).name.1 = [] := (name_eq (a := []) (rest_advance_one h) (by simp) (by simp)).1
  unfold readOpening
  simp only [hname, if_true]
  exact ⟨_, rfl⟩

theorem breaksOff_readClosing {written t : Text} (hended : ended.code = .unexpectedEnd) (h : Alike z [] c c')
    (hc' : c'.rest = lit "</" ++ t) (hd : readClosing ended c = .ok written d)
    (hz : d.rest.length < z.length) : BreaksOff False (readClosing ended c') := by
  obtain ⟨x, hx, hx'⟩ := h.rest_eq
  rw [List.append_nil] at hx'
  have hlength : 2 ≤ x.length := by
    rw [← hx', hc', List.length_append]
    exact Nat.le_add_right 2 t.length
  have hadvance := h.advance (n := 2) (by rw [hx, List.length_append]; omega)
  unfold readClosing at hd
  dsimp only at hd
  split at hd
  · cases hd
  · split at hd
    · cases hd
      rw [length_rest_advance] at hz
      have hend : (c'.advance 2).name.2.skipBlanks.rest = [] := by
        by_cases hname : (c.advance 2).name.2.rest.length ≤ z.length
        · exact rest_skipBlanks_of_nil (hadvance.name_all hname).2.2
        · obtain ⟨-, hn⟩ := hadvance.name (by omega)
          exact (hn.skipBlanks_all (by omega)).2
      unfold readClosing
      dsimp only
      rw [hend]
      exact ⟨_, _, rfl, .inl hended⟩
    · cases hd

end Tag

/-! ### Reading a gap -/

namespace Tag

open Cursor Source

variable {c : Cursor} {ended : Fault}

theorem readValue_of_decode_error {quote : CodeUnit} {raw rest : Text} {f : Fault} (key : Text) (place : Position)
    (hq : isQuote quote) (hr : quote ∉ raw) (hd : Reference.decode raw = .error f)
    (h : c.rest = quote :: (raw ++ quote :: rest)) :
    ∃ s, readValue ended key place c = .error (f.placed place) s := by
  obtain ⟨hraw, hrest⟩ := takeWhile_eq (p := (· ≠ quote)) (rest_advance_one h)
    (fun u hu => by simpa using fun e : u = quote => hr (e ▸ hu)) (by simp)
  have hne : ((c.advance 1).takeWhile (· ≠ quote)).2.rest ≠ [] := by rw [hrest]; simp
  refine ⟨((c.advance 1).takeWhile (· ≠ quote)).2, ?_⟩
  unfold readValue
  rw [h]
  simp only [if_pos hq, if_neg hne, hraw, hd]

/-- An attribute is read to the blanks behind its name. -/
theorem rest_of_key {key b t : Text} (hn : IsName key) (hb : IsBlank b)
    (ht : ∀ u ∈ t.head?, u.isBlank = false ∧ isNameUnit u = false) (h : c.rest = key ++ (b ++ t)) :
    c.name.1 = key ∧ c.name.2.skipBlanks.rest = t := by
  have hboundary : ∀ u ∈ (b ++ t).head?, isNameUnit u = false := by
    intro u hu
    cases b with
    | nil => exact (ht u hu).2
    | cons v b =>
        obtain rfl : v = u := by simpa using hu
        exact not_isNameUnit_of_isBlank (hb v (by simp))
  obtain ⟨hname, hrest⟩ := name_eq h hn.2 hboundary
  exact ⟨hname, rest_skipBlanks hrest hb fun u hu => (ht u hu).1⟩

/-- An attribute is read to its value, and what comes of that is what comes of the attribute. -/
theorem readAttribute_of_equals {key b₁ b₂ t : Text} (element : Text) (u : CodeUnit) (hn : IsName key)
    (hb₁ : IsBlank b₁) (hb₂ : IsBlank b₂) (ht : ∀ u ∈ t.head?, u.isBlank = false)
    (h : c.rest = key ++ (b₁ ++ unit '=' :: (b₂ ++ t))) :
    ∃ c', c'.rest = t ∧
      (∀ {e s}, readValue ended key c.position c' = .error e s → readAttribute ended element u c = .error e s) ∧
      ∀ {value s}, readValue ended key c.position c' = .ok value s →
        readAttribute ended element u c = .ok (key, value) s := by
  obtain ⟨hname, hrest⟩ := rest_of_key hn hb₁ (by rintro v ⟨⟩; decide) h
  refine ⟨(c.name.2.skipBlanks.advance 1).skipBlanks, rest_skipBlanks (rest_advance_one hrest) hb₂ ht, ?_, ?_⟩
  · intro e s hvalue
    unfold readAttribute
    simp only [hname, if_neg hn.1, hrest, List.head?_cons, if_true, hvalue]
  · intro value s hvalue
    unfold readAttribute
    simp only [hname, if_neg hn.1, hrest, List.head?_cons, if_true, hvalue]

/-- A name behind blanks begins an attribute. -/
theorem skipBlanks_of_key {b key t : Text} (hb : IsBlank b) (hn : IsName key) (h : c.rest = b ++ (key ++ t)) :
    ∃ u t', c.skipBlanks.rest = u :: t' ∧ ¬ EndsTag u ∧ c.skipBlanks.rest = key ++ t := by
  obtain ⟨u, key', rfl⟩ := List.exists_cons_of_ne_nil hn.1
  have hu := hn.2 u (by simp)
  have hrest := rest_skipBlanks h hb (by rintro v ⟨⟩; exact not_isBlank_of_isNameUnit hu)
  refine ⟨u, key' ++ t, hrest, ?_, hrest⟩
  intro hends
  rw [hends.not_isNameUnit] at hu
  cases hu

/-- Behind the name of a tag that breaks off at a gap the attributes are at fault, or only `/` is left. -/
theorem readAttributes_of_gap {t : Text} (ended : Fault) (h : Gap t) (element : Text) (found : Table)
    (hc : c.rest = t) :
    (∃ e s, readAttributes ended element found c = .error e s ∧ e.cause.code = .malformedMarkup) ∨
      ∃ attributes s, readAttributes ended element found c = .ok attributes s ∧ s.rest = [unit '/'] := by
  induction h generalizing c found with
  | slash hb =>
      have hrest := rest_skipBlanks hc hb (by rintro v ⟨⟩; decide)
      exact .inr ⟨_, _, readAttributes_of_closing ended element found hrest (.inr rfl), hrest⟩
  | @key b key b₁ hb hn hb₁ =>
      obtain ⟨u, t, hcons, hu, hrest⟩ := skipBlanks_of_key hb hn hc
      obtain ⟨hname, hend⟩ := rest_of_key (t := []) hn hb₁ (by simp) (by simpa using hrest)
      have herror : readAttribute ended element u c.skipBlanks =
          .error ((Fault.missingValue key).placed c.skipBlanks.position) c.skipBlanks.name.2.skipBlanks := by
        unfold readAttribute
        simp only [hname, if_neg hn.1, hend]
        rfl
      exact .inl ⟨_, _, readAttributes_of_error found hcons hu herror, rfl⟩
  | @equals b key b₁ b₂ hb hn hb₁ hb₂ =>
      obtain ⟨u, t, hcons, hu, hrest⟩ := skipBlanks_of_key hb hn hc
      obtain ⟨c', hc', herror, -⟩ :=
        readAttribute_of_equals (t := []) element u hn hb₁ hb₂ (by simp) (by simpa using hrest)
      have hvalue : readValue ended key c.skipBlanks.position c' =
          .error ((Fault.unquotedValue key).placed c.skipBlanks.position) c' := by
        rw [readValue, hc']
      exact .inl ⟨_, _, readAttributes_of_error found hcons hu (herror hvalue), rfl⟩
  | @entry b key b₁ b₂ raw t quote hb hn hb₁ hb₂ hq hr _ ih =>
      obtain ⟨u, t', hcons, hu, hrest⟩ := skipBlanks_of_key hb hn hc
      have hquote : quote.isBlank = false := by rcases eq_of_isQuote hq with rfl | rfl <;> decide
      obtain ⟨c', hc', herror, hok⟩ :=
        readAttribute_of_equals element u hn hb₁ hb₂ (by rintro v ⟨⟩; exact hquote) hrest
      cases hd : Reference.decode raw with
      | error f =>
          obtain ⟨s, hs⟩ := readValue_of_decode_error key c.skipBlanks.position hq hr hd hc'
          exact .inl ⟨_, s, readAttributes_of_error found hcons hu (herror hs), Reference.code_of_decode hd⟩
      | ok value =>
          obtain ⟨s, hs, hstop⟩ := readValue_eq ended key c.skipBlanks.position hq hr hd hc'
          rw [readAttributes_of_attribute ended element found hcons hu (hok hs)]
          exact ih _ hstop

theorem readOpening_of_brokenTag (ended : Fault) (h : BrokenTag c.rest) :
    ∃ e s, readOpening ended c = .error e s ∧ e.cause.code = .malformedMarkup := by
  generalize hc : c.rest = t at h
  cases h with
  | angle =>
      obtain ⟨s, hs⟩ := readOpening_angle ended hc
      exact ⟨_, s, hs, rfl⟩
  | @inside name t hn hboundary hgap =>
      obtain ⟨hname, hrest⟩ := name_eq (rest_advance_one hc) hn.2 hboundary
      unfold readOpening
      simp only [hname, if_neg hn.1]
      rcases readAttributes_of_gap ended hgap name .empty hrest with ⟨e, s, hs, hcode⟩ | ⟨found, s, hs, hslash⟩
      · rw [hs]
        exact ⟨e, s, rfl, hcode⟩
      · rw [hs]
        simp only [readBracket, hslash]
        exact ⟨_, _, rfl, rfl⟩

end Tag

end Pictogram
