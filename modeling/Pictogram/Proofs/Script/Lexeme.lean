import Pictogram.Proofs.Text.Quoted
import Pictogram.Script.Module

/-! # Lexemes of a script

A script is read unit by unit.  Between lexemes, blanks and line comments are passed over; a word is a
run of letters, digits and the other units of names and numbers, and ends where the run ends; a literal
stands between double quotes, must end on its line, and its escapes are resolved; every other unit is a
mark of its own.

`Lexing.run` gives the lexemes of a text together with the state at its end, so reading a text in two
parts is reading the parts one after the other (`run_append`).  Whatever a literal holds, it is read as
that one literal (`run_quoted`). -/

namespace Pictogram
namespace Script

inductive Lexeme where
  | word (spelled : Text)
  | literal (content : Text)
  | mark (u : CodeUnit)
deriving DecidableEq, Repr

/-- What is being read. -/
inductive Lexing where
  | between
  | word (spelled : Text)
  | slash
  | comment
  | literal (content : Text)
  | escape (content : Text)
  | hexEscape (content digits : Text)
  | failed
deriving DecidableEq, Repr

def isWordUnit (u : CodeUnit) : Bool :=
  ImageName.isPart u || u = unit '.' || u = unit '+' || u = unit '-'

def isBlank (u : CodeUnit) : Bool := u = unit ' ' || u = unit '\t' || u = unit '\n'

/-- The number that hexadecimal digits spell. -/
def hexNumber? (digits : Text) : Option Nat := digits.foldlM (fun n u => u.hexDigit?.map (16 * n + ·)) 0

/-- The unit that a letter stands for after a backslash. -/
def unescape? (e : CodeUnit) : Option CodeUnit :=
  if e = unit '"' then some (unit '"')
  else if e = unit '\\' then some (unit '\\')
  else if e = unit 'b' then some 0x08
  else if e = unit 'f' then some 0x0C
  else if e = unit 'n' then some 0x0A
  else if e = unit 'r' then some 0x0D
  else if e = unit 't' then some 0x09
  else none

namespace Lexing

/-- A unit where no lexeme is open. -/
def start (u : CodeUnit) : List Lexeme × Lexing :=
  if isBlank u then ([], between)
  else if u = unit '/' then ([], slash)
  else if u = unit '"' then ([], literal [])
  else if isWordUnit u then ([], word [u])
  else ([.mark u], between)

/-- A unit after which a lexeme is complete. -/
def finish (l : Lexeme) (u : CodeUnit) : List Lexeme × Lexing := (l :: (start u).1, (start u).2)

/-- The lexemes that one unit completes, and what is being read after it. -/
def step : Lexing → CodeUnit → List Lexeme × Lexing
  | between, u => start u
  | word w, u => if isWordUnit u then ([], word (w ++ [u])) else finish (.word w) u
  | slash, u => if u = unit '/' then ([], comment) else finish (.mark (unit '/')) u
  | comment, u => if u = unit '\n' then ([], between) else ([], comment)
  | literal s, u =>
      if u = unit '"' then ([.literal s], between)
      else if u = unit '\\' then ([], escape s)
      else if u = unit '\n' ∨ u = unit '\r' then ([], failed)
      else ([], literal (s ++ [u]))
  | escape s, u =>
      if u = unit 'u' then ([], hexEscape s [])
      else match unescape? u with
        | some v => ([], literal (s ++ [v]))
        | none => ([], failed)
  | hexEscape s digits, u =>
      if digits.length < 3 then ([], hexEscape s (digits ++ [u]))
      else match hexNumber? (digits ++ [u]) with
        | some n => ([], literal (s ++ [UInt16.ofNat n]))
        | none => ([], failed)
  | failed, _ => ([], failed)

/-- The lexemes that a text completes, and what is being read after it. -/
def run (m : Lexing) : Text → List Lexeme × Lexing
  | [] => ([], m)
  | u :: t => ((m.step u).1 ++ (run (m.step u).2 t).1, (run (m.step u).2 t).2)

end Lexing

/-- The lexemes of a whole text. -/
def lexemes? (t : Text) : Option (List Lexeme) :=
  match Lexing.run .between t with
  | (ls, .between) => some ls
  | (ls, .comment) => some ls
  | (ls, .word w) => some (ls ++ [.word w])
  | (ls, .slash) => some (ls ++ [.mark (unit '/')])
  | _ => none

namespace Lexing

theorem run_append (m : Lexing) (t t' : Text) :
    run m (t ++ t') = ((run m t).1 ++ (run (run m t).2 t').1, (run (run m t).2 t').2) := by
  induction t generalizing m with
  | nil => rfl
  | cons u t ih => simp [run, ih]

/-- A text that completes nothing only changes what is being read. -/
theorem run_append_of_nil {m m' : Lexing} {t : Text} (h : run m t = ([], m')) (t' : Text) :
    run m (t ++ t') = run m' t' := by
  rw [run_append, h]
  rfl

/-! ### Words -/

theorem run_word {w : Text} (h : ∀ u ∈ w, isWordUnit u) (v : Text) : run (word v) w = ([], word (v ++ w)) := by
  induction w generalizing v with
  | nil => simp [run]
  | cons u w ih =>
      have hu : isWordUnit u := h u (by simp)
      rw [run, show step (word v) u = ([], word (v ++ [u])) by simp [step, hu],
        ih (fun u hu => h u (List.mem_cons_of_mem _ hu))]
      simp

/-! ### Literals -/

theorem hexDigit?_digitChar : ∀ d, d < 16 → CodeUnit.hexDigit? (unit (Nat.digitChar d)) = some d := by decide

/-- A number with at most `width` hexadecimal digits. -/
def FitsHex : (width : Nat) → Nat → Prop
  | 0, n => n = 0
  | w + 1, n => FitsHex w (n / 16)

theorem hexNumber?_hex {width n : Nat} (h : FitsHex width n) : hexNumber? (Text.hex width n) = some n := by
  induction width generalizing n with
  | zero =>
      rw [FitsHex] at h
      rw [h]
      rfl
  | succ w ih =>
      have hfront : (Text.hex w (n / 16)).foldlM (fun n u => u.hexDigit?.map (16 * n + ·)) 0 = some (n / 16) := ih h
      have hvalue : 16 * (n / 16) + n % 16 = n := by omega
      rw [hexNumber?, Text.hex, List.foldlM_append, hfront]
      simp [hexDigit?_digitChar _ (Nat.mod_lt n (by decide : 16 > 0)), hvalue]

theorem fitsHex_unit (u : CodeUnit) : FitsHex 4 u.toNat := by
  have := u.toNat_lt
  simp only [FitsHex]
  omega

theorem fitsHex_color (c : Color) : FitsHex 8 c.argb.toNat := by
  have := c.argb.toNat_lt
  simp only [FitsHex]
  omega

theorem unescape?_of_shortEscape? {u e : CodeUnit} (h : Text.shortEscape? u = some e) :
    e ≠ unit 'u' ∧ unescape? e = some u := by
  unfold Text.shortEscape? at h
  repeat' split at h
  all_goals cases h
  all_goals subst u
  all_goals decide

/-- A unit that stands for itself in a literal. -/
theorem step_literal {u : CodeUnit} (hq : u ≠ unit '"') (hb : u ≠ unit '\\') (hn : u ≠ unit '\n')
    (hr : u ≠ unit '\r') (s : Text) : step (literal s) u = ([], literal (s ++ [u])) := by
  simp [step, hq, hb, hn, hr]

theorem run_hexEscape (s : Text) (u : CodeUnit) :
    run (literal s) (Text.hexEscape u) = ([], literal (s ++ [u])) := by
  obtain ⟨a, b, c, d, e⟩ : ∃ a b c d, Text.hex 4 u.toNat = [a, b, c, d] := ⟨_, _, _, _, rfl⟩
  have hvalue := hexNumber?_hex (fitsHex_unit u)
  rw [e] at hvalue
  rw [Text.hexEscape, e]
  simp [run, step, hvalue, show unit '\\' ≠ unit '"' by decide]

theorem run_escaped {t w : Text} (h : Text.Escaped t w) (s : Text) : run (literal s) w = ([], literal (s ++ t)) := by
  induction h generalizing s with
  | nil => simp [run]
  | @plain u t w control quote backslash rest ih =>
      have hne {v : CodeUnit} (hv : v < 0x20) : u ≠ v := by
        rintro rfl
        exact control hv
      rw [run, step_literal quote backslash (hne (by decide)) (hne (by decide)), ih]
      simp
  | short escape rest ih =>
      obtain ⟨he, hescape⟩ := unescape?_of_shortEscape? escape
      simp [run, step, he, hescape, ih, show unit '\\' ≠ unit '"' by decide]
  | byNumber u rest ih =>
      rw [run_append_of_nil (run_hexEscape s u), ih]
      simp

/-- Quoted text is one literal. -/
theorem run_quoted (t : Text) : run between (Text.quoted t) = ([.literal t], between) := by
  have hopen : run between [unit '"'] = ([], literal []) := by decide
  have hclose : run (literal t) [unit '"'] = ([.literal t], between) := by simp [run, step]
  rw [Text.quoted, ← List.singleton_append, List.append_assoc, run_append_of_nil hopen,
    run_append_of_nil (run_escaped (Text.escaped_escape t) []), List.nil_append, hclose]

end Lexing
end Script
end Pictogram
