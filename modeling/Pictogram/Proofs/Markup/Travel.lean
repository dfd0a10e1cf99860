import Pictogram.Proofs.Markup.Nesting

/-! # Reading moves on

`Cursor.Passes c t d` says that `d` lies behind the text `t` from `c` on, with its position moved
accordingly; `Cursor.Reaches c d` leaves the text open.  Whatever comes of reading from a cursor, the cursor
only moves on, and a fault is one of the markup that is placed somewhere on the way (`Cursor.Goes`).  This
holds of every reading function, so it holds of every construct. -/

namespace Pictogram

namespace Position

theorem after_append (p : Position) (s t : Text) : p.after (s ++ t) = (p.after s).after t := List.foldl_append

end Position

/-! ### Cursors -/

namespace Cursor

/-- The cursor `d` lies behind the text `t` from `c` on. -/
structure Passes (c : Cursor) (t : Text) (d : Cursor) : Prop where
  rest_eq : c.rest = t ++ d.rest
  position_eq : d.position = c.position.after t

theorem Passes.refl (c : Cursor) : c.Passes [] c := ⟨rfl, rfl⟩

theorem Passes.trans {c d e : Cursor} {s t : Text} (h : c.Passes s d) (h' : d.Passes t e) :
    c.Passes (s ++ t) e where
  rest_eq := by rw [h.rest_eq, h'.rest_eq, List.append_assoc]
  position_eq := by rw [h'.position_eq, h.position_eq, Position.after_append]

theorem passes_advance (c : Cursor) (n : Nat) : c.Passes (c.rest.take n) (c.advance n) :=
  ⟨(List.take_append_drop n c.rest).symm, rfl⟩

/-- Moving past as many units as a text has passes that text. -/
theorem passes_of_prefix {c : Cursor} {t : Text} (h : t <+: c.rest) : c.Passes t (c.advance t.length) := by
  have := c.passes_advance t.length
  rwa [← List.prefix_iff_eq_take.mp h] at this

theorem passes_takeWhile (c : Cursor) (p : CodeUnit → Bool) : c.Passes (c.takeWhile p).1 (c.takeWhile p).2 :=
  passes_of_prefix (List.takeWhile_prefix p)

theorem passes_name (c : Cursor) : c.Passes c.name.1 c.name.2 := c.passes_takeWhile isNameUnit

/-- A stretch of units that satisfy `p` ends at one that does not. -/
theorem head_takeWhile {c : Cursor} {p : CodeUnit → Bool} {u : CodeUnit}
    (h : u ∈ (c.takeWhile p).2.rest.head?) : p u = false := by
  have hrest : (c.takeWhile p).2.rest = c.rest.dropWhile p := by
    have happend := (c.passes_takeWhile p).rest_eq
    rw [← List.takeWhile_append_dropWhile (p := p) (l := c.rest)] at happend
    exact (List.append_cancel_left happend).symm
  rw [hrest] at h
  have := List.head?_dropWhile_not p c.rest
  rw [Option.mem_def.mp h] at this
  simpa using this

/-- The cursor `d` lies at `c` or behind it. -/
def Reaches (c d : Cursor) : Prop := ∃ t, c.Passes t d

theorem Reaches.refl (c : Cursor) : c.Reaches c := ⟨[], .refl c⟩

theorem Reaches.trans {c d e : Cursor} (h : c.Reaches d) (h' : d.Reaches e) : c.Reaches e := by
  obtain ⟨s, hs⟩ := h
  obtain ⟨t, ht⟩ := h'
  exact ⟨s ++ t, hs.trans ht⟩

theorem Reaches.advance {c d : Cursor} (h : c.Reaches d) (n : Nat) : c.Reaches (d.advance n) :=
  h.trans ⟨_, d.passes_advance n⟩

theorem Reaches.takeWhile {c d : Cursor} (h : c.Reaches d) (p : CodeUnit → Bool) :
    c.Reaches (d.takeWhile p).2 := h.trans ⟨_, d.passes_takeWhile p⟩

theorem Reaches.skipBlanks {c d : Cursor} (h : c.Reaches d) : c.Reaches d.skipBlanks := h.takeWhile _

theorem Reaches.name {c d : Cursor} (h : c.Reaches d) : c.Reaches d.name.2 := h.takeWhile _

theorem Reaches.toEnd {c d : Cursor} (h : c.Reaches d) : c.Reaches d.toEnd := h.advance _

end Cursor

/-! ### Faults -/

namespace FaultCode

/-- The text ends too soon, or its markup is malformed. -/
def isMarkup : FaultCode → Bool
  | unexpectedEnd | malformedMarkup => true
  | _ => false

theorem isMarkup_iff {code : FaultCode} : code.isMarkup ↔ code = .unexpectedEnd ∨ code = .malformedMarkup := by
  cases code <;> decide

theorem kind_of_isMarkup {code : FaultCode} (h : code.isMarkup) : code.kind = .structural := by
  rcases isMarkup_iff.mp h with rfl | rfl
  · rfl
  · rfl

end FaultCode

namespace Cursor

/-- What can come of reading that began at `c`: the cursor has moved on, and a fault lies on the way. -/
inductive Goes {α : Type} (c : Cursor) : Outcome Cursor α → Prop
  | ok {a : α} {d : Cursor} : c.Reaches d → Goes c (.ok a d)
  | error {f : Fault} {p d : Cursor} : f.code.isMarkup → c.Reaches p → c.Reaches d →
      Goes c (.error (f.placed p.position) d)

theorem Goes.reaches {α : Type} {c d : Cursor} {a : α} (h : c.Goes (.ok a d)) : c.Reaches d := by
  cases h with
  | ok h => exact h

theorem Goes.cast {α β : Type} {c d : Cursor} {e : CompileError} (h : Goes (α := α) c (.error e d)) :
    Goes (α := β) c (.error e d) := by
  cases h with
  | error hf hp hd => exact .error hf hp hd

end Cursor

/-! ### References -/

namespace Reference

theorem code_of_character {code : Nat} {reference : Text} {f : Fault}
    (h : character code reference = .error f) : f.code = .malformedMarkup := by
  unfold character at h
  split at h <;> cases h
  rfl

/-- A reference that is at fault is at fault as markup. -/
theorem code_of_mem_passes {rule : Rule} (hr : rule ∈ passes) {t : Text} {n : Nat} {f : Fault}
    (h : rule t = some (n, .error f)) : f.code = .malformedMarkup := by
  have hnamed {name : String} {u : CodeUnit} (e : rule = named name u) : f.code = .malformedMarkup := by
    rw [e, named] at h
    split at h <;> cases h
  have hnumeric {opening : Text} {base : Nat} (e : rule = numeric opening base) : f.code = .malformedMarkup := by
    rw [e] at h
    unfold numeric at h
    split at h
    · cases h
    · dsimp only at h
      split at h
      · obtain ⟨-, hc⟩ := Prod.mk.inj (Option.some.inj h)
        exact code_of_character hc
      · cases h
  simp only [passes, List.mem_cons, List.not_mem_nil, or_false] at hr
  rcases hr with e | e | e | e | e | e | e
  · exact hnamed e
  · exact hnamed e
  · exact hnamed e
  · exact hnamed e
  · exact hnumeric e
  · exact hnumeric e
  · exact hnamed e

theorem code_of_pass {rule : Rule} (hr : rule ∈ passes) {skip : Nat} {t : Text} {f : Fault}
    (h : pass rule skip t = .error f) : f.code = .malformedMarkup := by
  fun_induction pass rule skip t with
  | case1 => cases h
  | case2 _ _ t ih => exact ih h
  | case3 u t _ ih =>
      cases hp : pass rule 0 t with
      | error g =>
          rw [hp] at h
          cases h
          exact ih hp
      | ok s =>
          rw [hp] at h
          cases h
  | case4 u t n g hn =>
      cases h
      exact code_of_mem_passes hr hn
  | case5 u t n replacement _ ih =>
      cases hp : pass rule (n - 1) t with
      | error g =>
          rw [hp] at h
          cases h
          exact ih hp
      | ok s =>
          rw [hp] at h
          cases h

theorem code_of_foldlM {rules : List Rule} (hr : ∀ rule ∈ rules, rule ∈ passes) {t : Text} {f : Fault}
    (h : rules.foldlM (fun t rule => pass rule 0 t) t = .error f) : f.code = .malformedMarkup := by
  induction rules generalizing t with
  | nil => cases h
  | cons rule rules ih =>
      rw [List.foldlM_cons] at h
      cases hp : pass rule 0 t with
      | error g =>
          rw [hp] at h
          cases h
          exact code_of_pass (hr rule (by simp)) hp
      | ok s =>
          rw [hp] at h
          exact ih (fun r hm => hr r (by simp [hm])) h

theorem code_of_decode {t : Text} {f : Fault} (h : decode t = .error f) : f.code = .malformedMarkup :=
  code_of_foldlM (fun _ hm => hm) h

theorem isMarkup_of_decode {t : Text} {f : Fault} (h : decode t = .error f) : f.code.isMarkup := by
  rw [code_of_decode h]
  rfl

end Reference

theorem Fault.isMarkup_unexpectedEnd (opened : List OpenElement) : (unexpectedEnd opened).code.isMarkup := by
  cases opened <;> rfl

/-! ### Constructs with a terminator -/

namespace Cursor

variable {b c : Cursor}

theorem goes_readPast (stop : Text) (enclosure : Enclosure) (h : b.Reaches c) :
    b.Goes (c.readPast stop enclosure) := by
  unfold readPast
  split
  · next t d hp =>
    obtain ⟨n, -, e⟩ := Option.map_eq_some_iff.mp hp
    obtain ⟨-, rfl⟩ := Prod.mk.inj e
    exact .ok (h.advance _)
  · exact .error rfl h h.toEnd

theorem goes_readDeclaration (h : b.Reaches c) : b.Goes c.readDeclaration := by
  unfold readDeclaration
  split
  · exact .ok (h.advance _)
  · exact .error rfl h h.toEnd

end Cursor

/-! ### Tags -/

namespace Tag

open Cursor

variable {b c : Cursor} {ended : Fault}

/-- A fault in a value is placed at the attribute, which began at `p`. -/
theorem goes_readValue {p : Cursor} (key : Text) (hended : ended.code.isMarkup) (hp : b.Reaches p)
    (h : b.Reaches c) : b.Goes (readValue ended key p.position c) := by
  unfold readValue
  split
  · exact .error rfl hp h
  · next quote _ _ =>
    split
    · have hvalue := (h.advance 1).takeWhile (· ≠ quote)
      dsimp only
      split
      · exact .error hended hvalue hvalue
      · split
        · next f hf => exact .error (Reference.isMarkup_of_decode hf) hp hvalue
        · exact .ok (hvalue.advance 1)
    · exact .error rfl hp h

theorem goes_readAttribute (element : Text) (u : CodeUnit) (hended : ended.code.isMarkup)
    (h : b.Reaches c) : b.Goes (readAttribute ended element u c) := by
  have hname := h.name.skipBlanks
  unfold readAttribute
  dsimp only
  split
  · exact .error rfl h h
  · split
    · have hvalue := goes_readValue c.name.1 hended h (hname.advance 1).skipBlanks
      split
      · next e => exact (e ▸ hvalue).cast
      · next e => exact .ok (e ▸ hvalue).reaches
    · exact .error rfl h hname

theorem goes_readAttributes (element : Text) (found : Table) (hended : ended.code.isMarkup)
    (h : b.Reaches c) : b.Goes (readAttributes ended element found c) := by
  fun_induction readAttributes ended element found c with
  | case1 found c => exact .error hended h.skipBlanks h.skipBlanks
  | case2 found c => exact .ok h.skipBlanks
  | case3 found c u _ _ _ e s ha =>
      have hattribute := goes_readAttribute element u hended h.skipBlanks
      exact (ha ▸ hattribute).cast
  | case4 found c u _ _ _ key value s ha _ ih =>
      have hattribute := goes_readAttribute element u hended h.skipBlanks
      exact ih (ha ▸ hattribute).reaches

theorem goes_readBracket (element : Text) (h : b.Reaches c) : b.Goes (readBracket element c) := by
  unfold readBracket
  split
  · split
    · exact .ok (h.advance 2)
    · exact .error rfl h h
  · exact .ok (h.advance 1)

theorem goes_readOpening (hended : ended.code.isMarkup) (h : b.Reaches c) :
    b.Goes (readOpening ended c) := by
  have hname := (h.advance 1).name
  unfold readOpening
  dsimp only
  split
  · exact .error rfl h hname
  · have hattributes := goes_readAttributes (c.advance 1).name.1 .empty hended hname
    split
    · next e => exact (e ▸ hattributes).cast
    · next e =>
      have hbracket := goes_readBracket (c.advance 1).name.1 (e ▸ hattributes).reaches
      split
      · next e => exact (e ▸ hbracket).cast
      · next e => exact .ok (e ▸ hbracket).reaches

theorem goes_readClosing (hended : ended.code.isMarkup) (h : b.Reaches c) :
    b.Goes (readClosing ended c) := by
  have hname := (h.advance 2).name.skipBlanks
  unfold readClosing
  dsimp only
  split
  · exact .error hended hname hname
  · split
    · exact .ok (hname.advance 1)
    · exact .error rfl h hname

end Tag

/-! ### Readers -/

namespace Reader

/-- What a failure of reading leaves behind: only the cursor has moved, and the fault lies on the way. -/
structure Fails (r : Reader) (e : CompileError) (s : Reader) : Prop where
  reader_eq : s = { r with cursor := s.cursor }
  reaches : r.cursor.Reaches s.cursor
  located : ∃ f p, e = Fault.placed f (Cursor.position p) ∧ f.code.isMarkup ∧ r.cursor.Reaches p

theorem lift_eq_error {α β : Type} {r s : Reader} {o : Outcome Cursor α} {next : α → Reader → Outcome Reader β}
    {e : CompileError} (h : r.lift o next = .error e s) :
    (∃ c, o = .error e c ∧ s = { r with cursor := c }) ∨
      ∃ a c, o = .ok a c ∧ next a { r with cursor := c } = .error e s := by
  cases o with
  | error e' c =>
      cases h
      exact .inl ⟨c, rfl, rfl⟩
  | ok a c => exact .inr ⟨a, c, rfl, h⟩

/-- A failure of a part that only moves the cursor is a failure of the reader. -/
theorem fails_of_lift {α β : Type} {r s : Reader} {o : Outcome Cursor α} {next : α → Reader → Outcome Reader β}
    {e : CompileError} (ho : r.cursor.Goes o)
    (hnext : ∀ a c, o = .ok a c → next a { r with cursor := c } = .error e s → r.Fails e s)
    (h : r.lift o next = .error e s) : r.Fails e s := by
  rcases lift_eq_error h with ⟨c, hc, rfl⟩ | ⟨a, c, hc, hs⟩
  · rw [hc] at ho
    cases ho with
    | error hf hp hd => exact ⟨rfl, hd, _, _, rfl, hf, hp⟩
  · exact hnext a c hc hs

theorem fails_of_leave {r s : Reader} {c : Cursor} {written : Text} {e : CompileError}
    (hc : r.cursor.Reaches c) (h : leave { r with cursor := c } written r.cursor.position = .error e s) :
    r.Fails e s := by
  unfold leave at h
  split at h
  · cases h
    exact ⟨rfl, hc, _, _, rfl, rfl, .refl _⟩
  · split at h <;> cases h
    exact ⟨rfl, hc, _, _, rfl, rfl, .refl _⟩

/-- A construct that cannot be read leaves the open elements alone. -/
theorem fails_of_step {r s : Reader} {e : CompileError} (h : r.step = .error e s) : r.Fails e s := by
  have hended := Fault.isMarkup_unexpectedEnd r.opened
  have hrefl := Cursor.Reaches.refl r.cursor
  simp only [step] at h
  split at h
  · exact fails_of_lift (Cursor.goes_readPast _ _ hrefl) (by rintro _ _ _ ⟨⟩) h
  · exact fails_of_lift (Cursor.goes_readPast _ _ hrefl) (by rintro _ _ _ ⟨⟩) h
  · exact fails_of_lift (Cursor.goes_readPast _ _ (hrefl.advance 9)) (by rintro _ _ _ ⟨⟩) h
  · exact fails_of_lift (Cursor.goes_readDeclaration hrefl) (by rintro _ _ _ ⟨⟩) h
  · have htag := Tag.goes_readClosing hended hrefl
    exact fails_of_lift htag (fun _ _ hc hs => fails_of_leave (hc ▸ htag).reaches hs) h
  · exact fails_of_lift (Tag.goes_readOpening hended hrefl) (by rintro _ _ _ ⟨⟩) h
  · simp only [readText] at h
    split at h <;> cases h
    next hf => exact ⟨rfl, hrefl.takeWhile _, _, _, rfl, Reference.isMarkup_of_decode hf, hrefl⟩

theorem reaches_of_step {r s : Reader} {t : Option Token} (h : r.step = .ok t s) :
    r.cursor.Reaches s.cursor := by
  have hended := Fault.isMarkup_unexpectedEnd r.opened
  have hrefl := Cursor.Reaches.refl r.cursor
  simp only [step] at h
  split at h
  · obtain ⟨_, c, hc, e⟩ := lift_eq_ok h
    cases e
    exact (hc ▸ Cursor.goes_readPast _ _ hrefl).reaches
  · obtain ⟨_, c, hc, e⟩ := lift_eq_ok h
    cases e
    exact (hc ▸ Cursor.goes_readPast _ _ hrefl).reaches
  · obtain ⟨_, c, hc, e⟩ := lift_eq_ok h
    cases e
    exact (hc ▸ Cursor.goes_readPast _ _ (hrefl.advance 9)).reaches
  · obtain ⟨_, c, hc, e⟩ := lift_eq_ok h
    cases e
    exact (hc ▸ Cursor.goes_readDeclaration hrefl).reaches
  · obtain ⟨_, c, hc, e⟩ := lift_eq_ok h
    rw [cursor_leave e]
    exact (hc ▸ Tag.goes_readClosing hended hrefl).reaches
  · obtain ⟨_, c, hc, e⟩ := lift_eq_ok h
    rw [cursor_enter e]
    exact (hc ▸ Tag.goes_readOpening hended hrefl).reaches
  · simp only [readText] at h
    split at h <;> cases h
    exact hrefl.takeWhile _

/-- A failure after a construct that yields no token is a failure before it. -/
theorem Fails.of_step_none {r s s' : Reader} {e : CompileError} (hs : r.step = .ok none s) (h : s.Fails e s') :
    r.Fails e s' := by
  have hreaches := reaches_of_step hs
  obtain ⟨f, p, rfl, hf, hp⟩ := h.located
  refine ⟨?_, hreaches.trans h.reaches, f, p, rfl, hf, hreaches.trans hp⟩
  rw [h.reader_eq, eq_of_step_none hs]

theorem fails_of_read {r s : Reader} {e : CompileError} (h : r.read = .error e s) : r.Fails e s := by
  fun_induction read r with
  | case1 => cases h
  | case2 r hr e' s' hs =>
      cases h
      exact fails_of_step hs
  | case3 => cases h
  | case4 r hr s' hs _ ih => exact (ih h).of_step_none hs

/-- A failed `next` leaves the open elements and the closing token that is owed as they were. -/
theorem fails_of_next {r s : Reader} {e : CompileError} (h : r.next = .error e s) : r.Fails e s := by
  unfold next at h
  split at h
  · cases h
  · exact fails_of_read h

theorem reaches_of_read {r s : Reader} {t : Option Token} (h : r.read = .ok t s) :
    r.cursor.Reaches s.cursor := by
  fun_induction read r with
  | case1 r =>
      cases h
      exact .refl _
  | case2 => cases h
  | case3 r hr t s hs =>
      cases h
      exact reaches_of_step hs
  | case4 r hr s' hs _ ih => exact (reaches_of_step hs).trans (ih h)

theorem reaches_of_next {r s : Reader} {t : Option Token} (h : r.next = .ok t s) :
    r.cursor.Reaches s.cursor := by
  unfold next at h
  split at h
  · cases h
    exact .refl _
  · exact reaches_of_read h

/-- At the end of the text nothing but the cursor has changed. -/
theorem eq_of_read_none {r s : Reader} (h : r.read = .ok none s) : s = { r with cursor := s.cursor } := by
  fun_induction read r with
  | case1 r =>
      cases h
      rfl
  | case2 => cases h
  | case3 => cases h
  | case4 r hr s' hs _ ih => rw [ih h, eq_of_step_none hs]

theorem eq_of_next_none {r s : Reader} (h : r.next = .ok none s) :
    s = { r with cursor := s.cursor } ∧ r.pending = none := by
  unfold next at h
  split at h
  · cases h
  · next hp => exact ⟨eq_of_read_none h, hp⟩

/-! ### Skipping -/

theorem reaches_of_skipTo {r s : Reader} {depth : Nat} (h : r.skipTo depth = .ok () s) :
    r.cursor.Reaches s.cursor := by
  fun_induction skipTo r depth with
  | case1 => cases h
  | case2 => cases h
  | case3 r t s' hn _ _ =>
      cases h
      exact reaches_of_next hn
  | case4 r t s' hn _ _ ih => exact (reaches_of_next hn).trans (ih h)

/-- A fault found while skipping lies on the way. -/
theorem located_of_skipTo {r s : Reader} {depth : Nat} {e : CompileError} (h : r.skipTo depth = .error e s) :
    r.cursor.Reaches s.cursor ∧
      ∃ f p, e = Fault.placed f (Cursor.position p) ∧ f.code.isMarkup ∧ r.cursor.Reaches p := by
  fun_induction skipTo r depth with
  | case1 r e' s' hn =>
      cases h
      exact ⟨(fails_of_next hn).reaches, (fails_of_next hn).located⟩
  | case2 r s' hn =>
      cases h
      have hreaches := reaches_of_next hn
      exact ⟨hreaches, _, _, rfl, Fault.isMarkup_unexpectedEnd s.opened, hreaches⟩
  | case3 => cases h
  | case4 r t s' hn _ _ ih =>
      obtain ⟨hs, f, p, rfl, hf, hp⟩ := ih h
      have hreaches := reaches_of_next hn
      exact ⟨hreaches.trans hs, f, p, rfl, hf, hreaches.trans hp⟩

end Reader
end Pictogram
