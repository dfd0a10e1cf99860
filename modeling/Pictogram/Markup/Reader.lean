import Pictogram.Markup.Tag

/-! # The markup reader

A reader yields the tokens of a text one by one.  It holds a cursor, the elements that are open,
innermost first, and, after a self-closing tag, the closing token that is still owed.  Comments,
processing instructions and declarations are passed over.  A token carries the place where its
construct begins; the closing token of a self-closing tag carries that of the tag.

A reader survives its faults: the state after a failed `next` is part of the outcome.

`Reader.budget` bounds the tokens still to come: every token lowers it (`budget_lt_of_next`). -/

namespace Pictogram

/-- What can begin at a place of a text. -/
inductive Construct where
  | comment
  | instruction
  | characterData
  | declaration
  | closingTag
  | openingTag
  | text
deriving DecidableEq, Repr

/-- The construct at the front of a text. -/
def Construct.ofText (t : Text) : Construct :=
  if t.startsWith (lit "<!--") then comment
  else if t.startsWith (lit "<?") then instruction
  else if t.startsWith (lit "<![CDATA[") then characterData
  else if t.startsWith (lit "<!") then declaration
  else if t.startsWith (lit "</") then closingTag
  else if t.startsWith (lit "<") then openingTag
  else text

/-! ### Constructs with a terminator -/

namespace Cursor

/-- Moves past a terminator; without one, to the end of the text. -/
def readPast (c : Cursor) (stop : Text) (enclosure : Enclosure) : Outcome Cursor Text :=
  match c.past? stop with
  | some (t, c) => .ok t c
  | none => .error ((Fault.unterminated enclosure).placed c.position) c.toEnd

/-- The length of a declaration of which `n` units are read: it ends at the first `>` outside
brackets. -/
def declarationLength? (depth : Int) (n : Nat) : Text → Option Nat
  | [] => none
  | u :: t =>
    if u = unit '[' then declarationLength? (depth + 1) (n + 1) t
    else if u = unit ']' then declarationLength? (depth - 1) (n + 1) t
    else if u = unit '>' ∧ depth = 0 then some (n + 1)
    else declarationLength? depth (n + 1) t

/-- Moves past a declaration; without its end, to the end of the text. -/
def readDeclaration (c : Cursor) : Outcome Cursor Text :=
  match declarationLength? 0 0 c.rest with
  | some n => .ok (c.rest.take n) (c.advance n)
  | none => .error ((Fault.unterminated .declaration).placed c.position) c.toEnd

theorem length_rest_readPast_lt {c c' : Cursor} {stop t : Text} {enclosure : Enclosure} (hs : stop ≠ [])
    (h : c.readPast stop enclosure = .ok t c') : c'.rest.length < c.rest.length := by
  unfold readPast at h
  split at h
  · next hp =>
    cases h
    exact length_rest_past?_lt hs hp
  · cases h

theorem lt_of_declarationLength? {depth : Int} {n k : Nat} {t : Text}
    (h : declarationLength? depth n t = some k) : n < k ∧ t ≠ [] := by
  fun_induction declarationLength? depth n t with
  | case1 => simp at h
  | case2 depth n t ih => exact ⟨Nat.lt_of_succ_lt (ih h).1, by simp⟩
  | case3 depth n t _ ih => exact ⟨Nat.lt_of_succ_lt (ih h).1, by simp⟩
  | case4 depth n u t _ _ _ => simp_all; omega
  | case5 depth n u t _ _ _ ih => exact ⟨Nat.lt_of_succ_lt (ih h).1, by simp⟩

theorem length_rest_readDeclaration_lt {c c' : Cursor} {t : Text} (h : c.readDeclaration = .ok t c') :
    c'.rest.length < c.rest.length := by
  unfold readDeclaration at h
  split at h
  · next n hn =>
    cases h
    obtain ⟨hpos, hne⟩ := lt_of_declarationLength? hn
    have := List.length_pos_iff.mpr hne
    simp only [length_rest_advance]
    omega
  · cases h

end Cursor

/-! ### Readers -/

structure Reader where
  cursor : Cursor
  opened : List OpenElement
  /-- The closing token owed by a self-closing tag. -/
  pending : Option (ElementName × Position)
deriving DecidableEq, Repr

namespace Reader

def ofText (t : Text) : Reader := ⟨.ofText t, [], none⟩

/-- The error of a text that ends where the reader is. -/
def unexpectedEnd (r : Reader) : CompileError := (Fault.unexpectedEnd r.opened).placed r.cursor.position

/-- The reader after an outcome that only moved the cursor. -/
def lift {α β : Type} (r : Reader) (o : Outcome Cursor α) (next : α → Reader → Outcome Reader β) :
    Outcome Reader β :=
  match o with
  | .error e c => .error e { r with cursor := c }
  | .ok a c => next a { r with cursor := c }

/-- Opens the element of a tag that began at `place`. -/
def enter (r : Reader) (tag : OpeningTag) (place : Position) : Outcome Reader (Option Token) :=
  let declared := tag.attributes.declarations
  let name := ElementName.resolve (declared :: r.opened.map OpenElement.declared) tag.written
  let r := { r with opened := ⟨tag.written, name, declared⟩ :: r.opened }
  let r := if tag.selfClosing then { r with pending := some (name, place) } else r
  .ok (some (.opening name tag.attributes.unlabelled place)) r

/-- Closes the innermost element by a tag that began at `place`. -/
def leave (r : Reader) (written : Text) (place : Position) : Outcome Reader (Option Token) :=
  match r.opened with
  | [] => .error ((Fault.unopenedEndTag written).placed place) r
  | e :: outer =>
    if e.written = written then .ok (some (.closing e.name place)) { r with opened := outer }
    else .error ((Fault.mismatchedEndTag e.written written).placed place) r

/-- Reads text up to the next markup. -/
def readText (r : Reader) : Outcome Reader (Option Token) :=
  let place := r.cursor.position
  let (raw, c) := r.cursor.takeWhile (· ≠ unit '<')
  match Reference.decode raw with
  | .error f => .error (f.placed place) { r with cursor := c }
  | .ok content => .ok (some (.text content place)) { r with cursor := c }

/-- Reads one construct; `none` if it yields no token. -/
def step (r : Reader) : Outcome Reader (Option Token) :=
  let c := r.cursor
  let ended := Fault.unexpectedEnd r.opened
  match Construct.ofText c.rest with
  | .comment => r.lift (c.readPast (lit "-->") .comment) fun _ r => .ok none r
  | .instruction => r.lift (c.readPast (lit "?>") .instruction) fun _ r => .ok none r
  | .characterData =>
    r.lift ((c.advance 9).readPast (lit "]]>") .characterData) fun t r => .ok (some (.text t c.position)) r
  | .declaration => r.lift c.readDeclaration fun _ r => .ok none r
  | .closingTag => r.lift (Tag.readClosing ended c) fun written r => r.leave written c.position
  | .openingTag => r.lift (Tag.readOpening ended c) fun tag r => r.enter tag c.position
  | .text => r.readText

/-! ### Progress -/

/-- Text that is no markup does not begin with `<`. -/
theorem ne_of_ofText_eq_text {u : CodeUnit} {t : Text} (h : Construct.ofText (u :: t) = .text) :
    u ≠ unit '<' := by
  rintro rfl
  have hlt : Text.startsWith (unit '<' :: t) (lit "<") = true := by
    simp only [show lit "<" = [unit '<'] by decide, Text.startsWith, Text.stripFront?, if_true, Option.isSome_some]
  simp only [Construct.ofText, hlt, if_true] at h
  repeat' split at h
  all_goals cases h

theorem lift_eq_ok {α β : Type} {r r' : Reader} {o : Outcome Cursor α} {next : α → Reader → Outcome Reader β}
    {b : β} (h : r.lift o next = .ok b r') : ∃ a c, o = .ok a c ∧ next a { r with cursor := c } = .ok b r' := by
  cases o with
  | error e c => cases h
  | ok a c => exact ⟨a, c, rfl, h⟩

theorem cursor_enter {r r' : Reader} {tag : OpeningTag} {place : Position} {t : Option Token}
    (h : r.enter tag place = .ok t r') : r'.cursor = r.cursor := by
  simp only [enter] at h
  split at h <;> cases h <;> rfl

theorem cursor_leave {r r' : Reader} {written : Text} {place : Position} {t : Option Token}
    (h : r.leave written place = .ok t r') : r'.cursor = r.cursor := by
  unfold leave at h
  split at h
  · cases h
  · split at h <;> cases h
    rfl

/-- Every construct that is read moves the cursor on. -/
theorem length_rest_step_lt {r r' : Reader} {t : Option Token} (hr : r.cursor.rest ≠ [])
    (h : r.step = .ok t r') : r'.cursor.rest.length < r.cursor.rest.length := by
  simp only [step] at h
  split at h
  · obtain ⟨_, c, hc, e⟩ := lift_eq_ok h
    cases e
    exact Cursor.length_rest_readPast_lt (by decide) hc
  · obtain ⟨_, c, hc, e⟩ := lift_eq_ok h
    cases e
    exact Cursor.length_rest_readPast_lt (by decide) hc
  · obtain ⟨_, c, hc, e⟩ := lift_eq_ok h
    cases e
    have := Cursor.length_rest_readPast_lt (by decide) hc
    simp only [Cursor.length_rest_advance] at this ⊢
    omega
  · obtain ⟨_, c, hc, e⟩ := lift_eq_ok h
    cases e
    exact Cursor.length_rest_readDeclaration_lt hc
  · obtain ⟨_, c, hc, e⟩ := lift_eq_ok h
    rw [cursor_leave e]
    exact Tag.length_rest_readClosing_lt hr hc
  · obtain ⟨_, c, hc, e⟩ := lift_eq_ok h
    rw [cursor_enter e]
    exact Tag.length_rest_readOpening_lt hr hc
  · next hc =>
    simp only [readText] at h
    split at h <;> cases h
    cases e : r.cursor.rest with
    | nil => exact absurd e hr
    | cons u t =>
      have hu := ne_of_ofText_eq_text (e ▸ hc)
      have hpos : 0 < (r.cursor.takeWhile (· ≠ unit '<')).1.length := by simp [Cursor.takeWhile, e, hu]
      have hlen := r.cursor.length_rest_takeWhile (· ≠ unit '<')
      simp only [e, List.length_cons] at hlen ⊢
      omega

/-- The next token, past constructs that yield none; `none` at the end of the text. -/
def read (r : Reader) : Outcome Reader (Option Token) :=
  if hr : r.cursor.rest = [] then .ok none r
  else match h : r.step with
    | .error e s => .error e s
    | .ok (some t) s => .ok (some t) s
    | .ok none s =>
      have : s.cursor.rest.length < r.cursor.rest.length := length_rest_step_lt hr h
      s.read
termination_by r.cursor.rest.length

/-- The next token: the closing token that is owed, or the next one of the text. -/
def next (r : Reader) : Outcome Reader (Option Token) :=
  match r.pending with
  | some (name, place) => .ok (some (.closing name place)) { r with opened := r.opened.tail, pending := none }
  | none => r.read

/-- A bound on the tokens still to come. -/
def budget (r : Reader) : Nat := 2 * r.cursor.rest.length + if r.pending.isSome then 1 else 0

theorem length_rest_read_lt {r r' : Reader} {t : Token} (h : r.read = .ok (some t) r') :
    r'.cursor.rest.length < r.cursor.rest.length := by
  fun_induction read r with
  | case1 => cases h
  | case2 => cases h
  | case3 r hr t s hs =>
    cases h
    exact length_rest_step_lt hr hs
  | case4 r hr s hs hlt ih => exact Nat.lt_trans (ih h) hlt

/-- Every token lowers the budget. -/
theorem budget_lt_of_next {r r' : Reader} {t : Token} (h : r.next = .ok (some t) r') :
    r'.budget < r.budget := by
  unfold next at h
  split at h
  · next hp =>
    cases h
    simp [budget, hp]
  · have := length_rest_read_lt h
    simp only [budget]
    split <;> split <;> omega

/-! ### Elements and whole texts -/

/-- Reads to the closing token that leaves one element fewer than `depth` open. -/
def skipTo (r : Reader) (depth : Nat) : Outcome Reader Unit :=
  match h : r.next with
  | .error e s => .error e s
  | .ok none s => .error s.unexpectedEnd s
  | .ok (some t) s =>
    have := budget_lt_of_next h
    if t.isClosing ∧ s.opened.length + 1 = depth then .ok () s else s.skipTo depth
termination_by r.budget

/-- Reads to the end of the innermost open element. -/
def skip (r : Reader) : Outcome Reader Unit := r.skipTo r.opened.length

theorem budget_lt_of_skipTo {r r' : Reader} {depth : Nat} (h : r.skipTo depth = .ok () r') :
    r'.budget < r.budget := by
  fun_induction skipTo r depth with
  | case1 => cases h
  | case2 => cases h
  | case3 r t s _ hlt _ =>
    cases h
    exact hlt
  | case4 r t s _ hlt _ ih => exact Nat.lt_trans (ih h) hlt

/-- The tokens up to the end of the text or the first error, that error, and the reader then. -/
def drain (r : Reader) : List Token × Option CompileError × Reader :=
  match h : r.next with
  | .error e s => ([], some e, s)
  | .ok none s => ([], none, s)
  | .ok (some t) s =>
    have := budget_lt_of_next h
    let (ts, rest) := s.drain
    (t :: ts, rest)
termination_by r.budget

end Reader
end Pictogram
