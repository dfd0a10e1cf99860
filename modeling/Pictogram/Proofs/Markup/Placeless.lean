import Pictogram.Proofs.Markup.BrokenTag

/-! # Reading is the same at every place

Two readers have the same text left, the same elements open and a closing token owed for the same element, but
stand at different places (`Reader.Matches`).  What they read differs in places only: the tokens are the same
events, and faults have the same cause (`Matches.read`).

Every reading function takes the text that is left from its cursor and nothing else, so there is one lemma for
each of them. -/

namespace Pictogram

/-- Two outcomes that may differ in places: both succeed, with results related by `S`, or both fail for the same
cause, and the states after it are related by `R`. -/
inductive Outcome.Agrees {σ α : Type} (S : α → α → Prop) (R : σ → σ → Prop) : Outcome σ α → Outcome σ α → Prop
  | ok {a a' : α} {s s' : σ} : S a a' → R s s' → Agrees S R (.ok a s) (.ok a' s')
  | error {e e' : CompileError} {s s' : σ} : e'.cause = e.cause → R s s' → Agrees S R (.error e s) (.error e' s')

namespace Outcome

variable {σ α : Type} {S : α → α → Prop} {R : σ → σ → Prop} {s : σ} {o : Outcome σ α}

theorem Agrees.exists_of_ok {a : α} (h : Agrees S R (.ok a s) o) : ∃ a' s', o = .ok a' s' ∧ S a a' ∧ R s s' := by
  cases h with
  | ok ha hs => exact ⟨_, _, rfl, ha, hs⟩

theorem Agrees.exists_of_error {e : CompileError} (h : Agrees S R (.error e s) o) :
    ∃ e' s', o = .error e' s' ∧ e'.cause = e.cause ∧ R s s' := by
  cases h with
  | error he hs => exact ⟨_, _, rfl, he, hs⟩

theorem Agrees.imp {R' : σ → σ → Prop} {o o' : Outcome σ α} (h : Agrees S R o o')
    (hR : ∀ s s', R s s' → R' s s') : Agrees S R' o o' := by
  cases h with
  | ok ha hs => exact .ok ha (hR _ _ hs)
  | error he hs => exact .error he (hR _ _ hs)

end Outcome

/-! ### Cursors -/

namespace Cursor

/-- Two cursors with the same text left. -/
def Matches (c c' : Cursor) : Prop := c'.rest = c.rest

variable {c c' : Cursor}

namespace Matches

theorem rest_eq (h : Matches c c') : c'.rest = c.rest := h

theorem advance (h : Matches c c') (n : Nat) : Matches (c.advance n) (c'.advance n) := congrArg (List.drop n) h

theorem takeWhile_eq (h : Matches c c') (p : CodeUnit → Bool) : (c'.takeWhile p).1 = (c.takeWhile p).1 :=
  congrArg (List.takeWhile p) h

theorem takeWhile (h : Matches c c') (p : CodeUnit → Bool) : Matches (c.takeWhile p).2 (c'.takeWhile p).2 := by
  show Matches (c.advance (c.rest.takeWhile p).length) (c'.advance (c'.rest.takeWhile p).length)
  rw [h.rest_eq]
  exact h.advance _

theorem skipBlanks (h : Matches c c') : Matches c.skipBlanks c'.skipBlanks := h.takeWhile _

theorem toEnd (h : Matches c c') : Matches c.toEnd c'.toEnd := by
  unfold Cursor.toEnd
  rw [h.rest_eq]
  exact h.advance _

theorem readPast (h : Matches c c') (stop : Text) (enclosure : Enclosure) :
    Outcome.Agrees Eq Matches (c.readPast stop enclosure) (c'.readPast stop enclosure) := by
  unfold Cursor.readPast Cursor.past?
  rw [h.rest_eq]
  cases Text.offsetOf? stop 0 c.rest with
  | none => exact .error rfl h.toEnd
  | some n => exact .ok rfl (h.advance _)

theorem readDeclaration (h : Matches c c') : Outcome.Agrees Eq Matches c.readDeclaration c'.readDeclaration := by
  unfold Cursor.readDeclaration
  rw [h.rest_eq]
  cases declarationLength? 0 0 c.rest with
  | none => exact .error rfl h.toEnd
  | some n => exact .ok rfl (h.advance n)

end Matches
end Cursor

/-! ### Tags -/

namespace Tag

open Cursor

variable {c c' : Cursor}

theorem agrees_readValue (h : Matches c c') (ended : Fault) (key : Text) (place place' : Position) :
    Outcome.Agrees Eq Matches (readValue ended key place c) (readValue ended key place' c') := by
  unfold readValue
  rw [h.rest_eq]
  cases c.rest with
  | nil => exact .error rfl h
  | cons quote t =>
      dsimp only
      by_cases hquote : isQuote quote
      · have hvalue := (h.advance 1).takeWhile (· ≠ quote)
        rw [if_pos hquote, if_pos hquote, (h.advance 1).takeWhile_eq, hvalue.rest_eq]
        by_cases hend : ((c.advance 1).takeWhile (· ≠ quote)).2.rest = []
        · rw [if_pos hend, if_pos hend]
          exact .error rfl hvalue
        · rw [if_neg hend, if_neg hend]
          cases Reference.decode ((c.advance 1).takeWhile (· ≠ quote)).1 with
          | error f => exact .error rfl hvalue
          | ok value => exact .ok rfl (hvalue.advance 1)
      · rw [if_neg hquote, if_neg hquote]
        exact .error rfl h

theorem agrees_readAttribute (h : Matches c c') (ended : Fault) (element : Text) (u : CodeUnit) :
    Outcome.Agrees Eq Matches (readAttribute ended element u c) (readAttribute ended element u c') := by
  have hname : c'.name.1 = c.name.1 := h.takeWhile_eq isNameUnit
  have hbehind : Matches c.name.2.skipBlanks c'.name.2.skipBlanks := (h.takeWhile isNameUnit).skipBlanks
  unfold readAttribute
  dsimp only
  rw [hname, hbehind.rest_eq]
  by_cases hkey : c.name.1 = []
  · rw [if_pos hkey, if_pos hkey]
    exact .error rfl h
  · rw [if_neg hkey, if_neg hkey]
    by_cases heq : c.name.2.skipBlanks.rest.head? = some (unit '=')
    · rw [if_pos heq, if_pos heq]
      have hvalue := agrees_readValue (hbehind.advance 1).skipBlanks ended c.name.1 c.position c'.position
      generalize readValue ended c.name.1 c.position _ = o at hvalue
      generalize readValue ended c.name.1 c'.position _ = o' at hvalue
      cases hvalue with
      | ok ha hs => exact .ok (congrArg _ ha) hs
      | error he hs => exact .error he hs
    · rw [if_neg heq, if_neg heq]
      exact .error rfl hbehind

theorem agrees_readAttributes (h : Matches c c') (ended : Fault) (element : Text) (found : Table) :
    Outcome.Agrees Eq Matches (readAttributes ended element found c) (readAttributes ended element found c') := by
  fun_induction readAttributes ended element found c generalizing c' with
  | case1 found c hnil =>
      rw [readAttributes_of_end found (h.skipBlanks.rest_eq.trans hnil)]
      exact .error rfl h.skipBlanks
  | case2 found c u t hrest hu =>
      rw [readAttributes_of_closing ended element found (h.skipBlanks.rest_eq.trans hrest) hu]
      exact .ok rfl h.skipBlanks
  | case3 found c u t hrest hu e s ha =>
      obtain ⟨e', s', ha', he, hs⟩ := (ha ▸ agrees_readAttribute h.skipBlanks ended element u).exists_of_error
      rw [readAttributes_of_error found (h.skipBlanks.rest_eq.trans hrest) hu ha']
      exact .error he hs
  | case4 found c u t hrest hu key value s ha hlt ih =>
      obtain ⟨_, s', ha', rfl, hs⟩ := (ha ▸ agrees_readAttribute h.skipBlanks ended element u).exists_of_ok
      rw [readAttributes_of_attribute ended element found (h.skipBlanks.rest_eq.trans hrest) hu ha']
      exact ih hs

theorem agrees_readBracket (h : Matches c c') (element : Text) :
    Outcome.Agrees Eq Matches (readBracket element c) (readBracket element c') := by
  unfold readBracket
  rw [h.rest_eq]
  split
  · split
    · exact .ok rfl (h.advance 2)
    · exact .error rfl h
  · exact .ok rfl (h.advance 1)

theorem agrees_readOpening (h : Matches c c') (ended : Fault) :
    Outcome.Agrees Eq Matches (readOpening ended c) (readOpening ended c') := by
  have hname : (c'.advance 1).name.1 = (c.advance 1).name.1 := (h.advance 1).takeWhile_eq isNameUnit
  have hbehind : Matches (c.advance 1).name.2 (c'.advance 1).name.2 := (h.advance 1).takeWhile isNameUnit
  unfold readOpening
  dsimp only
  rw [hname]
  by_cases hempty : (c.advance 1).name.1 = []
  · rw [if_pos hempty, if_pos hempty]
    exact .error rfl hbehind
  · rw [if_neg hempty, if_neg hempty]
    have hattributes := agrees_readAttributes hbehind ended (c.advance 1).name.1 .empty
    generalize readAttributes ended (c.advance 1).name.1 .empty (c.advance 1).name.2 = o at hattributes
    generalize readAttributes ended (c.advance 1).name.1 .empty (c'.advance 1).name.2 = o' at hattributes
    cases hattributes with
    | error he hs => exact .error he hs
    | @ok attributes attributes' s s' ha hs =>
        cases ha
        have hbracket := agrees_readBracket hs (c.advance 1).name.1
        dsimp only
        generalize readBracket (c.advance 1).name.1 s = o at hbracket
        generalize readBracket (c.advance 1).name.1 s' = o' at hbracket
        cases hbracket with
        | error he hs => exact .error he hs
        | ok hclosing hs =>
            cases hclosing
            exact .ok rfl hs

theorem agrees_readClosing (h : Matches c c') (ended : Fault) :
    Outcome.Agrees Eq Matches (readClosing ended c) (readClosing ended c') := by
  have hname : (c'.advance 2).name.1 = (c.advance 2).name.1 := (h.advance 2).takeWhile_eq isNameUnit
  have hbehind : Matches (c.advance 2).name.2.skipBlanks (c'.advance 2).name.2.skipBlanks :=
    ((h.advance 2).takeWhile isNameUnit).skipBlanks
  unfold readClosing
  dsimp only
  rw [hname, hbehind.rest_eq]
  split
  · exact .error rfl hbehind
  · split
    · exact .ok rfl (hbehind.advance 1)
    · exact .error rfl hbehind

end Tag

/-! ### Readers -/

namespace Reader

/-- Two readers that differ in places only. -/
structure Matches (r r' : Reader) : Prop where
  cursor : r.cursor.Matches r'.cursor
  opened_eq : r'.opened = r.opened
  owed_eq : r'.pending.map Prod.fst = r.pending.map Prod.fst

/-- Two tokens that differ in places only, or none. -/
def SameEvent (t t' : Option Token) : Prop := t'.map Token.event = t.map Token.event

variable {r r' s : Reader}

theorem read_of_rest_eq_nil (hr : r.cursor.rest = []) : r.read = .ok none r := by rw [read, dif_pos hr]

theorem read_of_step_error {e : CompileError} (hr : r.cursor.rest ≠ []) (h : r.step = .error e s) :
    r.read = .error e s := by
  rw [read, dif_neg hr]
  split <;> simp_all

namespace Matches

theorem with_cursor {c c' : Cursor} (h : Matches r r') (hc : c.Matches c') :
    Matches { r with cursor := c } { r' with cursor := c' } := ⟨hc, h.opened_eq, h.owed_eq⟩

/-- A part that only moves the cursor, and what is done with its result. -/
theorem lift {α β : Type} {S : β → β → Prop} {o o' : Outcome Cursor α} {k k' : α → Reader → Outcome Reader β}
    (h : Matches r r') (ho : Outcome.Agrees Eq Cursor.Matches o o')
    (hk : ∀ a s s', Matches s s' → Outcome.Agrees S Matches (k a s) (k' a s')) :
    Outcome.Agrees S Matches (r.lift o k) (r'.lift o' k') := by
  cases ho with
  | error he hs => exact .error he (h.with_cursor hs)
  | ok ha hs =>
      cases ha
      exact hk _ _ _ (h.with_cursor hs)

theorem leave (h : Matches r r') (written : Text) (place place' : Position) :
    Outcome.Agrees SameEvent Matches (r.leave written place) (r'.leave written place') := by
  unfold Reader.leave
  rw [h.opened_eq]
  split
  · exact .error rfl h
  · split
    · exact .ok rfl ⟨h.cursor, rfl, h.owed_eq⟩
    · exact .error rfl h

theorem enter (h : Matches r r') (tag : OpeningTag) (place place' : Position) :
    Outcome.Agrees SameEvent Matches (r.enter tag place) (r'.enter tag place') := by
  unfold Reader.enter
  dsimp only
  rw [h.opened_eq]
  cases tag.selfClosing with
  | true => exact .ok rfl ⟨h.cursor, rfl, rfl⟩
  | false => exact .ok rfl ⟨h.cursor, rfl, h.owed_eq⟩

theorem readText (h : Matches r r') : Outcome.Agrees SameEvent Matches r.readText r'.readText := by
  have hbehind := h.cursor.takeWhile (· ≠ unit '<')
  unfold Reader.readText
  dsimp only
  rw [h.cursor.takeWhile_eq]
  cases Reference.decode (r.cursor.takeWhile (· ≠ unit '<')).1 with
  | error f => exact .error rfl (h.with_cursor hbehind)
  | ok content => exact .ok rfl (h.with_cursor hbehind)

/-- One construct. -/
theorem step (h : Matches r r') : Outcome.Agrees SameEvent Matches r.step r'.step := by
  unfold Reader.step
  dsimp only
  rw [h.cursor.rest_eq, h.opened_eq]
  cases Construct.ofText r.cursor.rest with
  | comment => exact h.lift (h.cursor.readPast _ _) (fun _ _ _ hs => .ok rfl hs)
  | instruction => exact h.lift (h.cursor.readPast _ _) (fun _ _ _ hs => .ok rfl hs)
  | characterData => exact h.lift ((h.cursor.advance 9).readPast _ _) (fun _ _ _ hs => .ok rfl hs)
  | declaration => exact h.lift h.cursor.readDeclaration (fun _ _ _ hs => .ok rfl hs)
  | closingTag => exact h.lift (Tag.agrees_readClosing h.cursor _) (fun _ _ _ hs => hs.leave _ _ _)
  | openingTag => exact h.lift (Tag.agrees_readOpening h.cursor _) (fun _ _ _ hs => hs.enter _ _ _)
  | text => exact h.readText

/-- Constructs up to the first one that yields a token. -/
theorem read (h : Matches r r') : Outcome.Agrees SameEvent Matches r.read r'.read := by
  fun_induction Reader.read r generalizing r' with
  | case1 r hr =>
      rw [read_of_rest_eq_nil (h.cursor.rest_eq.trans hr)]
      exact .ok rfl h
  | case2 r hr e s hs =>
      obtain ⟨e', s', hs', he, hmatches⟩ := (hs ▸ h.step).exists_of_error
      rw [read_of_step_error (h.cursor.rest_eq ▸ hr) hs']
      exact .error he hmatches
  | case3 r hr t s hs =>
      obtain ⟨t', s', hs', ht, hmatches⟩ := (hs ▸ h.step).exists_of_ok
      cases t' with
      | none => cases ht
      | some t' =>
          rw [read_of_step (h.cursor.rest_eq ▸ hr) hs']
          exact .ok ht hmatches
  | case4 r hr s hs hlt ih =>
      obtain ⟨t', s', hs', ht, hmatches⟩ := (hs ▸ h.step).exists_of_ok
      cases t' with
      | some t' => cases ht
      | none =>
          rw [read_of_step_none (h.cursor.rest_eq ▸ hr) hs']
          exact ih hmatches

end Matches
end Reader

end Pictogram
