import Pictogram.Text.Basic

/-! # Numerals in attribute text

A numeral is an optional minus sign, digits, and an optional point with further digits; it has at
least one digit, and a point with no digit before it needs one after it.  There are no exponents and
no plus signs.  `Numeral.scan?` takes the longest numeral off a text, and `Numeral.list` the longest
run of numerals with blanks and commas between them.

`scan?_eq_append` says that scanning splits the text, so every scan makes progress. -/

namespace Pictogram

abbrev Digit := Fin 10

namespace Digit

def unit (d : Digit) : CodeUnit := UInt16.ofNat (48 + d.val)

def ofUnit? (u : CodeUnit) : Option Digit :=
  if h : 48 ≤ u.toNat ∧ u.toNat < 58 then some ⟨u.toNat - 48, by omega⟩ else none

/-- The number that a digit sequence spells. -/
def value (ds : List Digit) : Nat := ds.foldl (fun n d => 10 * n + d.val) 0

/-- The digits that a text begins with, and the rest. -/
def scan : Text → List Digit × Text
  | [] => ([], [])
  | u :: t =>
    match ofUnit? u with
    | some d => (d :: (scan t).1, (scan t).2)
    | none => ([], u :: t)

theorem unit_of_ofUnit? {u : CodeUnit} {d : Digit} (h : ofUnit? u = some d) : d.unit = u := by
  unfold ofUnit? at h
  split at h
  · next hu =>
    obtain rfl := Option.some.inj h
    simp only [unit]
    rw [show 48 + (u.toNat - 48) = u.toNat by omega]
    exact UInt16.ofNat_toNat
  · simp at h

theorem scan_eq_append : ∀ t : Text, t = (scan t).1.map unit ++ (scan t).2
  | [] => rfl
  | u :: t => by
      unfold scan
      split
      · next d h =>
        simp only [List.map_cons, List.cons_append, unit_of_ofUnit? h]
        rw [← scan_eq_append t]
      · rfl

end Digit

/-- A numeral by its parts; `fraction` is `none` when it has no point. -/
structure Numeral where
  negative : Bool
  whole : List Digit
  fraction : Option (List Digit)
deriving DecidableEq, Repr

namespace Numeral

def fractionDigits (n : Numeral) : List Digit := n.fraction.getD []

/-- Whether there is a digit at all. -/
def WellFormed (n : Numeral) : Prop := n.whole ≠ [] ∨ n.fractionDigits ≠ []

instance (n : Numeral) : Decidable n.WellFormed := inferInstanceAs (Decidable (_ ∨ _))

def signText (negative : Bool) : Text := if negative then [unit '-'] else []

def fractionText : Option (List Digit) → Text
  | none => []
  | some ds => unit '.' :: ds.map Digit.unit

def text (n : Numeral) : Text :=
  signText n.negative ++ n.whole.map Digit.unit ++ fractionText n.fraction

/-- The double nearest to the numeral; `-0` keeps its sign. -/
def value (n : Numeral) : Float :=
  let size := Float.ofScientific (Digit.value (n.whole ++ n.fractionDigits)) true n.fractionDigits.length
  if n.negative then -size else size

/-! ### Scanning -/

def scanSign : Text → Bool × Text
  | [] => (false, [])
  | u :: t => if u = unit '-' then (true, t) else (false, u :: t)

/-- A point and the digits after it; the point counts only next to a digit. -/
def scanFraction (afterDigit : Bool) : Text → Option (List Digit) × Text
  | [] => (none, [])
  | u :: t =>
    if u = unit '.' ∧ (afterDigit ∨ (Digit.scan t).1 ≠ []) then
      (some (Digit.scan t).1, (Digit.scan t).2)
    else (none, u :: t)

/-- The longest numeral at the front of a text, and the rest. -/
def scan? (t : Text) : Option (Numeral × Text) :=
  let (negative, t) := scanSign t
  let (whole, t) := Digit.scan t
  let (fraction, t) := scanFraction (!whole.isEmpty) t
  let n : Numeral := { negative, whole, fraction }
  if n.WellFormed then some (n, t) else none

/-- The numeral at an offset, which may lie outside the text. -/
def scanAt? (t : Text) (offset : Int) : Option (Numeral × Text) :=
  if offset < 0 then none else scan? (t.drop offset.toNat)

/-- What stands at an offset: the length and the value of the numeral there.  Both are zero if there is none. -/
structure Finding where
  length : Nat
  value : Float
  ok : Bool
deriving DecidableEq, Repr

def findAt (t : Text) (offset : Int) : Finding :=
  match scanAt? t offset with
  | some (n, _) => ⟨n.text.length, n.value, true⟩
  | none => ⟨0, 0, false⟩

theorem scanSign_eq_append (t : Text) : t = signText (scanSign t).1 ++ (scanSign t).2 := by
  cases t with
  | nil => rfl
  | cons u t => by_cases h : u = unit '-' <;> simp [scanSign, signText, h]

theorem scanFraction_eq_append (b : Bool) (t : Text) :
    t = fractionText (scanFraction b t).1 ++ (scanFraction b t).2 := by
  cases t with
  | nil => rfl
  | cons u t =>
    by_cases h : u = unit '.' ∧ (b ∨ (Digit.scan t).1 ≠ [])
    · rw [scanFraction, if_pos h, h.1]
      exact congrArg _ (Digit.scan_eq_append t)
    · rw [scanFraction, if_neg h]
      rfl

theorem scan?_eq_append {t : Text} {n : Numeral} {r : Text} (h : scan? t = some (n, r)) :
    t = n.text ++ r ∧ n.WellFormed := by
  have sign := scanSign_eq_append t
  have whole := Digit.scan_eq_append (scanSign t).2
  have fraction := scanFraction_eq_append (!(Digit.scan (scanSign t).2).1.isEmpty)
    (Digit.scan (scanSign t).2).2
  simp only [scan?] at h
  split at h
  · next wf =>
    obtain ⟨rfl, rfl⟩ := Prod.mk.inj (Option.some.inj h)
    refine ⟨?_, wf⟩
    conv => lhs; rw [sign, whole, fraction]
    simp only [text, List.append_assoc]
  · simp at h

theorem text_ne_nil {n : Numeral} (h : n.WellFormed) : n.text ≠ [] := by
  obtain ⟨negative, whole, fraction⟩ := n
  rcases h with h | h
  · simp [text, h]
  · cases fraction with
    | none => simp [fractionDigits] at h
    | some ds => simp [text, fractionText]

theorem length_lt_of_scan? {t : Text} {n : Numeral} {r : Text} (h : scan? t = some (n, r)) :
    r.length < t.length := by
  obtain ⟨rfl, wf⟩ := scan?_eq_append h
  have := List.length_pos_iff.mpr (text_ne_nil wf)
  simp only [List.length_append]
  omega

/-! ### Lists -/

/-- The units that may stand between numerals. -/
def isSeparator (u : CodeUnit) : Bool :=
  u = unit ' ' || u = unit ',' || u = unit '\t' || u = unit '\n' || u = unit '\r'

def skipSeparators (t : Text) : Text := t.dropWhile isSeparator

/-- The offset of the first unit at or after `offset` that is no separator. -/
def skipSeparatorsAt (t : Text) (offset : Int) : Int :=
  if offset < 0 then offset
  else offset + ((t.drop offset.toNat).takeWhile isSeparator).length

theorem length_skipSeparators_le (t : Text) : (skipSeparators t).length ≤ t.length :=
  (List.dropWhile_sublist _).length_le

/-- The numerals that a text begins with, separators skipped, and the rest from the first unit that
belongs to none. -/
def list (t : Text) : List Numeral × Text :=
  match h : scan? (skipSeparators t) with
  | none => ([], skipSeparators t)
  | some (n, rest) =>
    have : rest.length < t.length := Nat.lt_of_lt_of_le (length_lt_of_scan? h) (length_skipSeparators_le t)
    let (ns, rest) := list rest
    (n :: ns, rest)
termination_by t.length

theorem length_list_le (t : Text) : (list t).2.length ≤ t.length := by
  fun_induction list t with
  | case1 t h => exact length_skipSeparators_le t
  | case2 t n rest h hlt ns rest' e ih =>
    simp only [e] at ih ⊢
    omega

/-- The values of the numerals that a text begins with; what follows them is ignored. -/
def values (t : Text) : List Float := (list t).1.map value

end Numeral
end Pictogram
