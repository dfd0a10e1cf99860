/-! # Text as UTF-16 code units

Markup may spell a lone surrogate by a numeric reference, and columns, wildcards and path commands
go by code unit, so a text is a list of 16-bit units and its surrogates need not be paired.  Lists
of units are ordered lexicographically; that is the order in which files are listed.

`Text.scalars` reads a text as code points, joining surrogate pairs; `Text.ofScalars` undoes it. -/

namespace Pictogram

/-- A UTF-16 code unit. -/
abbrev CodeUnit := UInt16

/-- A sequence of code units. -/
abbrev Text := List CodeUnit

/-- The code unit of a character of the basic plane. -/
def unit (c : Char) : CodeUnit := UInt16.ofNat c.toNat

namespace CodeUnit

def isHighSurrogate (u : CodeUnit) : Bool := 0xD800 ≤ u && u ≤ 0xDBFF

def isLowSurrogate (u : CodeUnit) : Bool := 0xDC00 ≤ u && u ≤ 0xDFFF

/-- The value of a hexadecimal digit, in either case. -/
def hexDigit? (u : CodeUnit) : Option Nat :=
  if unit '0' ≤ u ∧ u ≤ unit '9' then some (u.toNat - 48)
  else if unit 'a' ≤ u ∧ u ≤ unit 'f' then some (u.toNat - 87)
  else if unit 'A' ≤ u ∧ u ≤ unit 'F' then some (u.toNat - 55)
  else none

def isHexDigit (u : CodeUnit) : Bool := (hexDigit? u).isSome

/-- An ASCII letter or digit. -/
def isAlphanumeric (u : CodeUnit) : Bool :=
  (unit 'a' ≤ u && u ≤ unit 'z') || (unit 'A' ≤ u && u ≤ unit 'Z') || (unit '0' ≤ u && u ≤ unit '9')

end CodeUnit

namespace Text

/-- The units of a code point: one below U+10000, a surrogate pair above. -/
def ofScalar (n : Nat) : Text :=
  if n < 0x10000 then [UInt16.ofNat n]
  else [UInt16.ofNat (0xD800 + (n - 0x10000) / 0x400), UInt16.ofNat (0xDC00 + (n - 0x10000) % 0x400)]

def ofScalars (ns : List Nat) : Text := ns.flatMap ofScalar

def ofString (s : String) : Text := ofScalars (s.toList.map Char.toNat)

/-- The code points of a text; a surrogate without its partner stands for itself. -/
def scalars : Text → List Nat
  | [] => []
  | [u] => [u.toNat]
  | u :: v :: t =>
    if u.isHighSurrogate && v.isLowSurrogate then
      (0x10000 + (u.toNat - 0xD800) * 0x400 + (v.toNat - 0xDC00)) :: scalars t
    else u.toNat :: scalars (v :: t)

/-- Whether every surrogate of a text is paired. -/
def isPaired (t : Text) : Bool := t.scalars.all fun n => !(0xD800 ≤ n && n ≤ 0xDFFF)

/-- The text as a string; a lone surrogate becomes U+FFFD. -/
def toString (t : Text) : String :=
  String.ofList (t.scalars.map fun n => if 0xD800 ≤ n ∧ n ≤ 0xDFFF then Char.ofNat 0xFFFD else Char.ofNat n)

/-- A natural number in decimal. -/
def ofNat (n : Nat) : Text := (Nat.toDigits 10 n).map unit

/-- The last `width` hexadecimal digits of a number, in lower case. -/
def hex : (width : Nat) → Nat → Text
  | 0, _ => []
  | w + 1, n => hex w (n / 16) ++ [unit (Nat.digitChar (n % 16))]

/-- What follows `front` in a text that begins with it. -/
def stripFront? : (front t : Text) → Option Text
  | [], t => some t
  | _ :: _, [] => none
  | u :: front, v :: t => if u = v then stripFront? front t else none

def startsWith (t front : Text) : Bool := (stripFront? front t).isSome

theorem stripFront?_eq_some_iff {front t rest : Text} :
    stripFront? front t = some rest ↔ t = front ++ rest := by
  fun_induction stripFront? front t with
  | case1 t => simp
  | case2 => simp
  | case3 front v t ih => simp [ih]
  | case4 u front v t h => simp [Ne.symm h]

/-- The offset of the first place where `needle` stands, counted from `n`. -/
def offsetOf? (needle : Text) (n : Nat) : Text → Option Nat
  | [] => none
  | u :: t => if startsWith (u :: t) needle then some n else offsetOf? needle (n + 1) t

theorem ne_nil_of_offsetOf? {needle : Text} {n k : Nat} {t : Text} (h : offsetOf? needle n t = some k) :
    t ≠ [] := by
  cases t <;> simp_all [offsetOf?]

/-- The pieces of a text between the units that satisfy `p`; there is always at least one. -/
def splitOn (p : CodeUnit → Bool) : Text → List Text
  | [] => [[]]
  | u :: t =>
    if p u then [] :: splitOn p t
    else match splitOn p t with
      | [] => [[u]]
      | piece :: pieces => (u :: piece) :: pieces

theorem splitOn_of_none {p : CodeUnit → Bool} {t : Text} (h : ∀ u ∈ t, p u = false) : splitOn p t = [t] := by
  induction t with
  | nil => rfl
  | cons u t ih =>
      obtain ⟨hu, ht⟩ := List.forall_mem_cons.mp h
      simp [splitOn, hu, ih ht]

end Text

/-- The text of a string literal. -/
abbrev lit (s : String) : Text := Text.ofString s

end Pictogram
