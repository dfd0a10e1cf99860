import Pictogram.Json
import Pictogram.Proofs.Decimal.Spelling
import Pictogram.Proofs.Script.Drawing
import Pictogram.Proofs.Text.Quoted

/-! # Reading JSON

A reader of JSON texts, unit by unit.  It keeps the lexeme that is being read (`Lexing`) and the place in
the value that the text spells (`Place`): the arrays and objects that are open, and what may come next.
Texts have no control units and only the escapes of the standard, numbers no zero in front, lists no comma
at their end; nothing but blanks stands around the value.  Numbers are read as the nearest double.

`Json.value` is what a JSON text says of a value: numbers that are not finite are `null`, and zero has no
sign.  What is rendered is read as that wherever a value may begin (`Begins.readsTo_render`), and as a whole
text if nothing but blanks follows (`read?_render_append`). -/

namespace Pictogram
namespace Json

/-- What a JSON text stands for. -/
inductive Value where
  | null
  | boolean (b : Bool)
  | number (x : Float)
  | text (t : Text)
  | array (items : List Value)
  | object (fields : List (Text × Value))

/-! ### Words -/

/-- A number with a strict numeral and an optional exponent. -/
def number? (w : Text) : Option Float := do
  let (n, rest) ← Numeral.scan? w
  let e ← Decimal.readExponent? rest
  let d : ShortDecimal := ⟨Digit.value (n.whole ++ n.fractionDigits), e - n.fractionDigits.length⟩
  if n.Strict then some (d.nearest n.negative) else none

def scalar? (w : Text) : Option Value :=
  match number? w with
  | some x => some (.number x)
  | none =>
      if w = lit "null" then some .null
      else if w = lit "true" then some (.boolean true)
      else if w = lit "false" then some (.boolean false)
      else none

/-! ### Places -/

/-- An array or object that is open, with what it has so far; in an object, also the key of the value
that is being read. -/
inductive Frame where
  | array (items : List Value)
  | object (fields : List (Text × Value)) (key : Text)

/-- What comes next, in the open arrays and objects. -/
inductive Place where
  | value (frames : List Frame)
  | firstItem (frames : List Frame)
  | firstKey (frames : List Frame)
  | key (frames : List Frame) (fields : List (Text × Value))
  | colon (frames : List Frame) (fields : List (Text × Value)) (key : Text)
  | behind (frames : List Frame) (v : Value)

inductive Lexeme where
  | word (w : Text)
  | text (t : Text)
  | mark (u : CodeUnit)
deriving DecidableEq

namespace Place

/-- A value begins. -/
def begin (frames : List Frame) : Lexeme → Option Place
  | .word w => (scalar? w).map (behind frames)
  | .text t => some (behind frames (.text t))
  | .mark u =>
      if u = unit '[' then some (firstItem frames)
      else if u = unit '\x7b' then some (firstKey frames)
      else none

/-- The place behind one more lexeme. -/
def feed : Place → Lexeme → Option Place
  | value frames, l => begin frames l
  | firstItem frames, l =>
      if l = .mark (unit ']') then some (behind frames (.array [])) else begin (.array [] :: frames) l
  | firstKey frames, .mark u => if u = unit '\x7d' then some (behind frames (.object [])) else none
  | firstKey frames, .text k => some (colon frames [] k)
  | key frames fields, .text k => some (colon frames fields k)
  | colon frames fields k, .mark u => if u = unit ':' then some (value (.object fields k :: frames)) else none
  | behind (.array items :: frames) v, .mark u =>
      if u = unit ',' then some (value (.array (items ++ [v]) :: frames))
      else if u = unit ']' then some (behind frames (.array (items ++ [v])))
      else none
  | behind (.object fields k :: frames) v, .mark u =>
      if u = unit ',' then some (key frames (fields ++ [(k, v)]))
      else if u = unit '\x7d' then some (behind frames (.object (fields ++ [(k, v)])))
      else none
  | _, _ => none

end Place

/-! ### Units -/

/-- The lexeme that is being read. -/
inductive Lexing where
  | between
  | word (w : Text)
  | text (content : Text)
  | escape (content : Text)
  | hexEscape (content digits : Text)

structure Reader where
  lexing : Lexing
  place : Place

def isBlank (u : CodeUnit) : Bool := u = unit ' ' || u = unit '\t' || u = unit '\n' || u = unit '\r'

/-- The unit that a letter stands for after a backslash. -/
def unescape? (e : CodeUnit) : Option CodeUnit := if e = unit '/' then some e else Script.unescape? e

namespace Reader

/-- A unit where no lexeme is open. -/
def start (p : Place) (u : CodeUnit) : Option Reader :=
  if Script.isWordUnit u then some ⟨.word [u], p⟩
  else if u = unit '"' then some ⟨.text [], p⟩
  else if isBlank u then some ⟨.between, p⟩
  else (p.feed (.mark u)).map (⟨.between, ·⟩)

/-- The place once the lexeme that is being read is complete. -/
def settle : Reader → Option Place
  | ⟨.between, p⟩ => some p
  | ⟨.word w, p⟩ => p.feed (.word w)
  | _ => none

def step : Reader → CodeUnit → Option Reader
  | ⟨.between, p⟩, u => start p u
  | ⟨.word w, p⟩, u =>
      if Script.isWordUnit u then some ⟨.word (w ++ [u]), p⟩ else (p.feed (.word w)).bind (start · u)
  | ⟨.text s, p⟩, u =>
      if u = unit '"' then (p.feed (.text s)).map (⟨.between, ·⟩)
      else if u = unit '\\' then some ⟨.escape s, p⟩
      else if u < 0x20 then none
      else some ⟨.text (s ++ [u]), p⟩
  | ⟨.escape s, p⟩, u =>
      if u = unit 'u' then some ⟨.hexEscape s [], p⟩ else (unescape? u).map fun v => ⟨.text (s ++ [v]), p⟩
  | ⟨.hexEscape s digits, p⟩, u =>
      if digits.length < 3 then some ⟨.hexEscape s (digits ++ [u]), p⟩
      else (Script.hexNumber? (digits ++ [u])).map fun n => ⟨.text (s ++ [UInt16.ofNat n]), p⟩

end Reader

/-- Reads a text that spells one value. -/
def read? (t : Text) : Option Value :=
  match (t.foldlM Reader.step ⟨.between, .value []⟩).bind Reader.settle with
  | some (.behind [] v) => some v
  | _ => none

/-! ### Numbers are read back -/

/-- A strict numeral with an exponent or nothing behind it is a number. -/
theorem number?_text_append {n : Numeral} {tail : Text} {e : Int} (hn : n.WellFormed) (hstrict : n.Strict)
    (htail : tail = [] ∧ e = 0 ∨ tail = Decimal.signedExponent e) :
    number? (n.text ++ tail) = some (ShortDecimal.nearest
      ⟨Digit.value (n.whole ++ n.fractionDigits), e - n.fractionDigits.length⟩ n.negative) := by
  have hends : n.EndsBefore tail := by
    rcases htail with ⟨rfl, -⟩ | rfl
    · simp [Numeral.EndsBefore]
    · intro u hu
      obtain rfl : unit 'e' = u := Option.some.inj hu
      exact ⟨by decide, fun h => absurd h (by decide)⟩
  have hexponent : Decimal.readExponent? tail = some e := by
    rcases htail with ⟨rfl, rfl⟩ | rfl
    · rfl
    · exact Decimal.readExponent?_signedExponent e
  simp only [number?, hends.scan?_text_append hn, hexponent, Option.bind_eq_bind, Option.bind_some, if_pos hstrict]

theorem number?_ofNat (k : Nat) : number? (Text.ofNat k) = some (ShortDecimal.nearest ⟨k, 0⟩ false) := by
  obtain ⟨ds, hne, hds, hvalue, hzero⟩ := Digit.exists_map_unit_eq_ofNat k
  have hstrict : Numeral.Strict ⟨false, ds, none⟩ := by
    rcases hzero with rfl | hhead
    · decide
    · exact Numeral.strict_of_head hne hhead (by simp)
  have htext : Text.ofNat k = Numeral.text ⟨false, ds, none⟩ ++ [] := by
    simp [hds, Numeral.text, Numeral.signText, Numeral.fractionText]
  rw [htext, number?_text_append (.inl hne) hstrict (.inl ⟨rfl, rfl⟩)]
  simp [Numeral.fractionDigits, hvalue]

theorem number?_layout {d : ShortDecimal} (hd : 0 < d.digits) (negative : Bool) :
    number? (Decimal.sign negative ++ Decimal.layout d) = some (d.nearest negative) := by
  obtain ⟨n, tail, e, h⟩ := Decimal.exists_laidOut d
  have hwellFormed : { n with negative }.WellFormed := h.wellFormed
  have hstrict : { n with negative }.Strict := h.strict hd
  have htext : Decimal.sign negative ++ Decimal.layout d = { n with negative }.text ++ tail := by
    rw [h.text, ← List.append_assoc]
    exact congrArg (· ++ tail) (Numeral.signText_append_text h.positive negative)
  rw [htext, number?_text_append hwellFormed hstrict h.tail_cases]
  unfold ShortDecimal.nearest
  rw [← h.value, ← h.places]
  rfl

/-- The text of a finite double is a number, and read as that double, but for the sign of zero. -/
theorem number?_ofFloat {x : Float} (h : x.isFinite = true) :
    number? (Decimal.ofFloat x) = some (Script.positiveZero x) := by
  obtain ⟨negative, m, e, hx⟩ := (Double.isFinite_iff x).mp h
  have hbeq := Double.beq_zero_iff hx
  by_cases hm : m = 0
  · have htext : Decimal.ofFloat x = Text.ofNat 0 := by
      simp only [Decimal.ofFloat, hx, Decimal.ofBinary, if_pos hm]
      decide
    rw [htext, number?_ofNat, Script.positiveZero, if_pos (hbeq.mpr hm)]
    rfl
  · rw [Decimal.ofFloat, hx, Decimal.ofBinary, if_neg hm,
      number?_layout (ShortDecimal.digits_ofBinary_pos hx (Nat.pos_of_ne_zero hm)),
      ShortDecimal.nearest_ofBinary hx (Nat.pos_of_ne_zero hm), Script.positiveZero, if_neg (mt hbeq.mp hm)]

/-! ### Runs -/

namespace Reader

variable {p q s : Place} {t t' : Text}

/-- Reading the text leads from one place to another, with no lexeme open at either. -/
def Closes (p : Place) (t : Text) (q : Place) : Prop := t.foldlM step ⟨.between, p⟩ = some ⟨.between, q⟩

/-- Reading the text leads from one place to another, once a word at its end is complete. -/
def ReadsTo (p : Place) (t : Text) (q : Place) : Prop :=
  ∃ r, t.foldlM step ⟨.between, p⟩ = some r ∧ r.settle = some q

theorem Closes.readsTo (h : Closes p t q) : ReadsTo p t q := ⟨_, h, rfl⟩

theorem Closes.append (h : Closes p t q) (h' : Closes q t' s) : Closes p (t ++ t') s := by
  rw [Closes, List.foldlM_append, h]
  exact h'

theorem Closes.append_readsTo (h : Closes p t q) (h' : ReadsTo q t' s) : ReadsTo p (t ++ t') s := by
  obtain ⟨r, hr, hsettle⟩ := h'
  refine ⟨r, ?_, hsettle⟩
  rw [List.foldlM_append, h]
  exact hr

/-- A unit that does not continue a word ends it. -/
theorem step_of_settle {r : Reader} {u : CodeUnit} (h : r.settle = some q) (hu : Script.isWordUnit u = false) :
    r.step u = start q u := by
  obtain ⟨lexing, p⟩ := r
  cases lexing with
  | between =>
      cases h
      rfl
  | word w =>
      have hfeed : p.feed (.word w) = some q := h
      simp [step, hu, hfeed]
  | text s => cases h
  | escape s => cases h
  | hexEscape s digits => cases h

theorem ReadsTo.foldlM_append (h : ReadsTo p t q) (ha : Script.Apart t') :
    (t ++ t').foldlM step ⟨.between, p⟩ = t'.foldlM step ⟨.between, q⟩ := by
  obtain ⟨r, hr, hsettle⟩ := h
  obtain ⟨u, rest, rfl, hu⟩ := ha
  rw [List.foldlM_append, hr]
  show (u :: rest).foldlM step r = _
  rw [List.foldlM_cons, step_of_settle hsettle hu]
  rfl

theorem ReadsTo.append_closes (h : ReadsTo p t q) (ha : Script.Apart t') (h' : Closes q t' s) :
    Closes p (t ++ t') s := by
  rw [Closes, h.foldlM_append ha]
  exact h'

/-! ### Lexemes -/

/-- A unit that is a lexeme of its own. -/
def IsMark (u : CodeUnit) : Prop := Script.isWordUnit u = false ∧ u ≠ unit '"' ∧ isBlank u = false

instance (u : CodeUnit) : Decidable (IsMark u) := inferInstanceAs (Decidable (_ ∧ _))

theorem closes_mark {u : CodeUnit} (hu : IsMark u) (h : p.feed (.mark u) = some q) : Closes p [u] q := by
  obtain ⟨hword, hquote, hblank⟩ := hu
  simp [Closes, step, start, hword, hquote, hblank, h]

theorem closes_blanks (p : Place) {t : Text} (h : ∀ u ∈ t, isBlank u = true) : Closes p t p := by
  induction t with
  | nil => rfl
  | cons u t ih =>
      obtain ⟨hu, ht⟩ := List.forall_mem_cons.mp h
      have hstart : start p u = some ⟨.between, p⟩ := by
        have hplain : Script.isWordUnit u = false ∧ u ≠ unit '"' := by
          simp only [isBlank, Bool.or_eq_true, decide_eq_true_eq] at hu
          rcases hu with ((rfl | rfl) | rfl) | rfl <;> decide
        simp [start, hplain, hu]
      rw [Closes, List.foldlM_cons]
      show (start p u).bind _ = _
      rw [hstart]
      exact ih ht

theorem closes_newLine (p : Place) (level : Nat) : Closes p (newLine level) p := by
  apply closes_blanks
  intro u hu
  rcases List.mem_cons.mp hu with rfl | hu
  · decide
  · rw [List.eq_of_mem_replicate hu]
    decide

theorem readsTo_word {w : Text} (hw : Script.IsWord w) (h : p.feed (.word w) = some q) : ReadsTo p w q := by
  have hrun (v : Text) {w : Text} (hw : ∀ u ∈ w, Script.isWordUnit u) :
      w.foldlM step ⟨.word v, p⟩ = some ⟨.word (v ++ w), p⟩ := by
    induction w generalizing v with
    | nil => simp
    | cons u w ih =>
        obtain ⟨hu, hw⟩ := List.forall_mem_cons.mp hw
        rw [List.foldlM_cons, step, if_pos hu]
        show w.foldlM step ⟨.word (v ++ [u]), p⟩ = _
        rw [ih _ hw, List.append_assoc]
        rfl
  obtain ⟨u, w, rfl⟩ := List.exists_cons_of_ne_nil hw.1
  obtain ⟨hu, hrest⟩ := List.forall_mem_cons.mp hw.2
  refine ⟨⟨.word (u :: w), p⟩, ?_, h⟩
  rw [List.foldlM_cons, step, start, if_pos hu]
  exact hrun [u] hrest

/-! ### Texts -/

theorem foldlM_hexEscape (s : Text) (u : CodeUnit) (p : Place) :
    (Text.hexEscape u).foldlM step ⟨.text s, p⟩ = some ⟨.text (s ++ [u]), p⟩ := by
  obtain ⟨a, b, c, d, e⟩ : ∃ a b c d, Text.hex 4 u.toNat = [a, b, c, d] := ⟨_, _, _, _, rfl⟩
  have hvalue := Script.Lexing.hexNumber?_hex (Script.Lexing.fitsHex_unit u)
  rw [e] at hvalue
  rw [Text.hexEscape, e]
  simp [step, hvalue, show unit '\\' ≠ unit '"' by decide]

theorem foldlM_escaped {t w : Text} (h : Text.Escaped t w) (s : Text) (p : Place) :
    w.foldlM step ⟨.text s, p⟩ = some ⟨.text (s ++ t), p⟩ := by
  induction h generalizing s with
  | nil => simp
  | plain control quote backslash rest ih => simp [step, control, quote, backslash, ih]
  | @short u e t w escape rest ih =>
      obtain ⟨he, hescape⟩ := Script.Lexing.unescape?_of_shortEscape? escape
      have hslash : e ≠ unit '/' := by
        rintro rfl
        have hnone : Script.unescape? (unit '/') = none := by decide
        rw [hescape] at hnone
        cases hnone
      simp [step, unescape?, he, hslash, hescape, ih, show unit '\\' ≠ unit '"' by decide]
  | byNumber u rest ih =>
      rw [List.foldlM_append, foldlM_hexEscape]
      show List.foldlM step ⟨.text (s ++ [u]), p⟩ _ = _
      rw [ih, List.append_assoc]
      rfl

theorem closes_quoted {t : Text} (h : p.feed (.text t) = some q) : Closes p t.quoted q := by
  have hopen : start p (unit '"') = some ⟨.text [], p⟩ := rfl
  rw [Closes, Text.quoted, List.cons_append, List.foldlM_cons]
  show (start p (unit '"')).bind _ = _
  rw [hopen, Option.bind_some, List.foldlM_append, foldlM_escaped (Text.escaped_escape t)]
  simp [step, h]

/-! ### Brackets -/

/-- How the members of an open array or object are read: where a member may come next, given those that are
there; the place behind one more member, and the place behind the closing bracket. -/
structure Members (α : Type) where
  due : Place → List α → Prop
  behind : List α → α → Place
  closed : List α → Place
  closing : Char
  isMark_closing : IsMark (unit closing)
  comma (before : List α) (a : α) : ∃ p, (behind before a).feed (.mark (unit ',')) = some p ∧ due p (before ++ [a])
  close (before : List α) (a : α) : (behind before a).feed (.mark (unit closing)) = some (closed (before ++ [a]))

namespace Members

variable {α β : Type} (m : Members β) {text : α → Text} {result : α → β}

theorem apart_newLine_append (level : Nat) (t : Text) : Script.Apart (newLine level ++ t) :=
  ⟨unit '\n', _, rfl, by decide⟩

/-- Members on lines of their own, divided by commas, and the closing bracket. -/
theorem closes_lines (level : Nat) {as : List α} (hne : as ≠ []) {before : List β} (hp : m.due p before)
    (hread : ∀ a ∈ as, ∀ p before, m.due p before → ReadsTo p (text a) (m.behind before (result a))) :
    Closes p ((unit ',' :: newLine (level + 1)).intercalate (as.map text) ++ newLine level ++ [unit m.closing])
      (m.closed (before ++ as.map result)) := by
  induction as generalizing p before with
  | nil => exact absurd rfl hne
  | cons a as ih =>
      obtain ⟨ha, has⟩ := List.forall_mem_cons.mp hread
      have hfirst := ha p before hp
      cases as with
      | nil =>
          have hclose := (closes_newLine _ level).append (closes_mark m.isMark_closing (m.close before (result a)))
          simpa using hfirst.append_closes (apart_newLine_append level _) hclose
      | cons a' as =>
          obtain ⟨q, hcomma, hq⟩ := m.comma before (result a)
          have hnext : Closes (m.behind before (result a)) (unit ',' :: newLine (level + 1)) q :=
            (closes_mark (by decide) hcomma).append (closes_newLine q (level + 1))
          have hrest := hnext.append (ih (by simp) hq has)
          have h := hfirst.append_closes ⟨unit ',', _, rfl, by decide⟩ hrest
          simpa [List.intercalate_cons_cons] using h

theorem closes_bracket (level : Nat) {opening : Char} (hopening : IsMark (unit opening))
    (hopen : p.feed (.mark (unit opening)) = some q) (hempty : q.feed (.mark (unit m.closing)) = some (m.closed []))
    (hq : m.due q []) {as : List α}
    (hread : ∀ a ∈ as, ∀ p before, m.due p before → ReadsTo p (text a) (m.behind before (result a))) :
    Closes p (bracket level opening m.closing (as.map text)) (m.closed (as.map result)) := by
  have hfirst := closes_mark hopening hopen
  by_cases has : as = []
  · subst has
    exact hfirst.append (closes_mark m.isMark_closing hempty)
  · have hlines := m.closes_lines level has hq hread
    have h := (hfirst.append (closes_newLine q (level + 1))).append hlines
    simpa [bracket, has] using h

end Members

/-- A place where a value may begin. -/
def Begins (p : Place) (frames : List Frame) : Prop := ∀ l, l ≠ .mark (unit ']') → p.feed l = Place.begin frames l

/-- The members of an open array. -/
def arrayMembers (frames : List Frame) : Members Value where
  due p before := Begins p (.array before :: frames)
  behind before v := .behind (.array before :: frames) v
  closed items := .behind frames (.array items)
  closing := ']'
  isMark_closing := by decide
  comma before v := ⟨.value (.array (before ++ [v]) :: frames), rfl, fun _ _ => rfl⟩
  close _ _ := rfl

/-- The members of an open object. -/
def objectMembers (frames : List Frame) : Members (Text × Value) where
  due p before := ∀ k, p.feed (.text k) = some (.colon frames before k)
  behind before f := .behind (.object before f.1 :: frames) f.2
  closed fields := .behind frames (.object fields)
  closing := '\x7d'
  isMark_closing := by decide
  comma before f := ⟨.key frames (before ++ [f]), rfl, fun _ => rfl⟩
  close _ _ := rfl

end Reader

/-! ### Values are read back -/

mutual

/-- What the text of a value stands for. -/
def value : Json → Value
  | null => .null
  | number x => if x.isFinite then .number (Script.positiveZero x) else .null
  | natural n => .number (ShortDecimal.nearest ⟨n, 0⟩ false)
  | text t => .text t
  | array items => .array (itemValues items)
  | object fields => .object (fieldValues fields)

def itemValues : List Json → List Value
  | [] => []
  | v :: vs => value v :: itemValues vs

def fieldValues : List (Text × Json) → List (Text × Value)
  | [] => []
  | (key, v) :: vs => (key, value v) :: fieldValues vs

end

theorem itemValues_eq_map (items : List Json) : itemValues items = items.map value := by
  induction items with
  | nil => rfl
  | cons v vs ih => rw [itemValues, ih, List.map_cons]

theorem fieldValues_eq_map (fields : List (Text × Json)) :
    fieldValues fields = fields.map fun f => (f.1, value f.2) := by
  induction fields with
  | nil => rfl
  | cons f fs ih => rw [fieldValues, ih, List.map_cons]

theorem renderItems_eq_map (level : Nat) (items : List Json) : renderItems level items = items.map (render level) := by
  induction items with
  | nil => rfl
  | cons v vs ih => rw [renderItems, ih, List.map_cons]

theorem renderFields_eq_map (level : Nat) (fields : List (Text × Json)) :
    renderFields level fields = fields.map fun f => f.1.quoted ++ lit ": " ++ render level f.2 := by
  induction fields with
  | nil => rfl
  | cons f fs ih => rw [renderFields, ih, List.map_cons]

/-- Induction over the values inside arrays and objects. -/
theorem induct {motive : Json → Prop} (null : motive .null) (number : ∀ x, motive (.number x))
    (natural : ∀ n, motive (.natural n)) (text : ∀ t, motive (.text t))
    (array : ∀ items, (∀ v ∈ items, motive v) → motive (.array items))
    (object : ∀ fields, (∀ f ∈ fields, motive f.2) → motive (.object fields)) : ∀ j, motive j
  | .null => null
  | .number x => number x
  | .natural n => natural n
  | .text t => text t
  | .array items => array items fun v _ => induct null number natural text array object v
  | .object fields => object fields fun f _ => induct null number natural text array object f.2
decreasing_by
  · rename_i hv
    have := List.sizeOf_lt_of_mem hv
    simp only [Json.array.sizeOf_spec]
    omega
  · rename_i hf
    have := List.sizeOf_lt_of_mem hf
    simp only [Json.object.sizeOf_spec]
    cases f
    simp only [Prod.mk.sizeOf_spec] at *
    omega

theorem scalar?_numberText (x : Float) : scalar? (numberText x) = some (value (.number x)) := by
  have hfinite : x.isFinite = !(x.isNaN || x.isInf) := by
    show x.toModel.unpack.isFinite = !(x.toModel.unpack.isNaN || x.toModel.unpack.isInf)
    cases x.toModel.unpack <;> rfl
  cases h : x.isNaN || x.isInf with
  | true =>
      rw [h, Bool.not_true] at hfinite
      simp only [numberText, value, h, hfinite, if_true, Bool.false_eq_true, if_false]
      rfl
  | false =>
      rw [h, Bool.not_false] at hfinite
      simp only [numberText, value, h, hfinite, if_true, Bool.false_eq_true, if_false, scalar?, number?_ofFloat hfinite]

namespace Reader

variable {p : Place} {frames : List Frame}

theorem Begins.readsTo_scalar {w : Text} {v : Value} (h : Begins p frames) (hw : Script.IsWord w)
    (hv : scalar? w = some v) : ReadsTo p w (.behind frames v) := by
  refine readsTo_word hw ?_
  rw [h _ (by simp), Place.begin, hv]
  rfl

theorem isWord_numberText (x : Float) : Script.IsWord (numberText x) := by
  unfold numberText
  split
  · decide
  · exact Script.isWord_number x

/-- **What is rendered is read back,** wherever a value may begin. -/
theorem Begins.readsTo_render (j : Json) (level : Nat) (h : Begins p frames) :
    ReadsTo p (render level j) (.behind frames j.value) := by
  induction j using induct generalizing p frames level with
  | null =>
      rw [render]
      exact h.readsTo_scalar (by decide) rfl
  | number x => exact h.readsTo_scalar (isWord_numberText x) (scalar?_numberText x)
  | natural n =>
      rw [render, value]
      refine h.readsTo_scalar ⟨Script.ofNat_ne_nil n, Script.isWordUnit_ofNat n⟩ ?_
      rw [scalar?, number?_ofNat]
  | text t => exact (closes_quoted (h _ (by simp))).readsTo
  | array items ih =>
      rw [render, renderItems_eq_map, value, itemValues_eq_map]
      have hopen : p.feed (.mark (unit '[')) = some (.firstItem frames) := h _ (by decide)
      have hdue : (arrayMembers frames).due (.firstItem frames) [] := fun l hl => if_neg hl
      refine ((arrayMembers frames).closes_bracket level (by decide) hopen rfl hdue ?_).readsTo
      intro v hv q before hq
      exact ih v hv (level + 1) hq
  | object fields ih =>
      rw [render, renderFields_eq_map, value, fieldValues_eq_map]
      have hopen : p.feed (.mark (unit '\x7b')) = some (.firstKey frames) := h _ (by decide)
      have hdue : (objectMembers frames).due (.firstKey frames) [] := fun _ => rfl
      refine ((objectMembers frames).closes_bracket level (by decide) hopen rfl hdue ?_).readsTo
      intro f hf q before hq
      have hcolon : Closes (.colon frames before f.1) (lit ": ") (.value (.object before f.1 :: frames)) :=
        (closes_mark (by decide) rfl).append (closes_blanks _ (List.all_eq_true.mp (by decide)))
      exact ((closes_quoted (hq f.1)).append hcolon).append_readsTo (ih f hf (level + 1) fun _ _ => rfl)

/-! ### Behind the value -/

/-- A lexeme is being read where nothing may follow. -/
def Stray (r : Reader) : Prop := r.lexing ≠ .between ∧ ∃ v, r.place = .behind [] v

theorem Stray.settle {r : Reader} (h : r.Stray) : r.settle = none := by
  obtain ⟨lexing, p⟩ := r
  obtain ⟨hlexing, v, rfl⟩ := h
  cases lexing with
  | between => exact absurd rfl hlexing
  | _ => rfl

theorem Stray.step {r r' : Reader} {u : CodeUnit} (h : r.Stray) (hstep : r.step u = some r') : r'.Stray := by
  obtain ⟨lexing, p⟩ := r
  obtain ⟨hlexing, v, rfl⟩ := h
  have hfeed (l : Lexeme) : (Place.behind [] v).feed l = none := rfl
  cases lexing with
  | between => exact absurd rfl hlexing
  | word w =>
      simp only [Reader.step, hfeed, Option.bind_none, Option.ite_none_right_eq_some, Option.some.injEq] at hstep
      obtain ⟨-, rfl⟩ := hstep
      exact ⟨by simp, v, rfl⟩
  | text s =>
      simp only [Reader.step, hfeed, Option.map_none] at hstep
      split at hstep
      · cases hstep
      split at hstep
      · cases hstep
        exact ⟨by simp, v, rfl⟩
      split at hstep
      · cases hstep
      · cases hstep
        exact ⟨by simp, v, rfl⟩
  | escape s =>
      simp only [Reader.step] at hstep
      split at hstep
      · cases hstep
        exact ⟨by simp, v, rfl⟩
      · obtain ⟨u', -, rfl⟩ := Option.map_eq_some_iff.mp hstep
        exact ⟨by simp, v, rfl⟩
  | hexEscape s digits =>
      simp only [Reader.step] at hstep
      split at hstep
      · cases hstep
        exact ⟨by simp, v, rfl⟩
      · obtain ⟨n, -, rfl⟩ := Option.map_eq_some_iff.mp hstep
        exact ⟨by simp, v, rfl⟩

theorem Stray.run {r r' : Reader} {t : Text} (h : r.Stray) (hrun : t.foldlM Reader.step r = some r') : r'.Stray := by
  induction t generalizing r with
  | nil =>
      cases hrun
      exact h
  | cons u t ih =>
      rw [List.foldlM_cons] at hrun
      obtain ⟨r₁, hr₁, hrest⟩ := Option.bind_eq_some_iff.mp hrun
      exact ih (h.step hr₁) hrest

theorem stray_of_start {v : Value} {u : CodeUnit} {r : Reader} (hu : isBlank u = false)
    (h : start (.behind [] v) u = some r) : r.Stray := by
  have hfeed (l : Lexeme) : (Place.behind [] v).feed l = none := rfl
  simp only [start, hu, hfeed, Option.map_none, Bool.false_eq_true, if_false] at h
  split at h
  · cases h
    exact ⟨by simp, v, rfl⟩
  split at h
  · cases h
    exact ⟨by simp, v, rfl⟩
  · cases h

/-- Nothing but blanks may follow the value. -/
theorem settle_foldlM_behind (v : Value) (t : Text) :
    (t.foldlM Reader.step ⟨.between, .behind [] v⟩).bind Reader.settle =
      if t.all isBlank then some (.behind [] v) else none := by
  induction t with
  | nil => rfl
  | cons u t ih =>
      cases hu : isBlank u with
      | true =>
          have hblank : Reader.step ⟨.between, .behind [] v⟩ u = some ⟨.between, .behind [] v⟩ := by
            have h : Closes (.behind [] v) [u] (.behind [] v) := closes_blanks _ (by simp [hu])
            simpa [Closes] using h
          rw [List.foldlM_cons, hblank, List.all_cons, hu, Bool.true_and]
          exact ih
      | false =>
          rw [List.all_cons, hu, Bool.false_and, if_neg Bool.false_ne_true, Option.bind_eq_none_iff]
          intro r hr
          rw [List.foldlM_cons] at hr
          obtain ⟨r₁, hr₁, hrest⟩ := Option.bind_eq_some_iff.mp hr
          exact ((stray_of_start hu hr₁).run hrest).settle

end Reader

/-- **A rendered value is read back, and nothing but blanks may follow it.** -/
theorem read?_render_append (j : Json) (level : Nat) {t : Text} (ht : Script.Apart t) :
    read? (render level j ++ t) = if t.all isBlank then some j.value else none := by
  have hbegins : Reader.Begins (.value []) [] := fun _ _ => rfl
  have hread := (hbegins.readsTo_render j level).foldlM_append ht
  rw [read?, hread, Reader.settle_foldlM_behind]
  cases t.all isBlank <;> rfl

end Json
end Pictogram
