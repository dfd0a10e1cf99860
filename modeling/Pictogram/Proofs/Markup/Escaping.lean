import Mathlib.Data.List.Forall2
import Pictogram.Markup.Reference

/-! # Escaping

An escaped text is spelled unit by unit: literally, unless the unit is an ampersand, or by a reference.
References are named or numeric; a numeric one may have leading zeros and hexadecimal digits of either
case, and refers to anything but an ampersand.  Decoding an escaped text gives the text back
(`decode_of_escapes`), so it does not matter in which way each code point is written
(`decode_flatten_of_writes`).

`Escapes kinds s t` allows references of the given kinds only.  Each pass removes one kind and keeps
the others (`pass_of_escapes`), since a reference is spelled without a further ampersand. -/

namespace Pictogram
namespace Reference

/-- The kinds of references, in the order of the passes. -/
inductive Kind where
  | lt
  | gt
  | quot
  | apos
  | decimal
  | hexadecimal
  | amp
deriving DecidableEq, Repr

/-- The digits of a base. -/
def isDigit (base : Nat) (u : CodeUnit) : Bool := (u.hexDigit?.map fun d => decide (d < base)).getD false

/-- The number that digits of a base spell. -/
def digitsValue (base : Nat) (digits : Text) : Nat :=
  digits.foldl (fun n u => base * n + u.hexDigit?.getD 0) 0

/-- A code point that a numeric reference may spell: any but that of the ampersand. -/
def IsCharacter (code : Nat) : Prop := code ≤ mostCodePoint ∧ code ≠ 38

instance (code : Nat) : Decidable (IsCharacter code) := inferInstanceAs (Decidable (_ ∧ _))

namespace Kind

/-- The kinds that are resolved before the ampersand. -/
def early : List Kind := [lt, gt, quot, apos, decimal, hexadecimal]

def all : List Kind := early ++ [amp]

/-- The pass that resolves a kind. -/
def rule : Kind → Rule
  | lt => named "lt" (unit '<')
  | gt => named "gt" (unit '>')
  | quot => named "quot" (unit '"')
  | apos => named "apos" (unit '\'')
  | decimal => numeric (lit "&#") 10
  | hexadecimal => numeric (lit "&#x") 16
  | amp => named "amp" (unit '&')

/-- What stands between the ampersand and the semicolon of a reference. -/
inductive Forms : Kind → Text → Prop
  | lt : Forms lt (lit "lt")
  | gt : Forms gt (lit "gt")
  | quot : Forms quot (lit "quot")
  | apos : Forms apos (lit "apos")
  | amp : Forms amp (lit "amp")
  | decimal {digits : Text} : digits ≠ [] → (∀ u ∈ digits, isDigit 10 u) → Forms decimal (unit '#' :: digits)
  | hexadecimal {digits : Text} : digits ≠ [] → (∀ u ∈ digits, isDigit 16 u) →
      Forms hexadecimal (unit '#' :: unit 'x' :: digits)

/-- What a reference of a kind stands for. -/
def meaning : Kind → Text → Except Fault Text
  | lt, _ => .ok [unit '<']
  | gt, _ => .ok [unit '>']
  | quot, _ => .ok [unit '"']
  | apos, _ => .ok [unit '\'']
  | amp, _ => .ok [unit '&']
  | decimal, body => character (digitsValue 10 (body.drop 1)) (unit '&' :: (body ++ [unit ';']))
  | hexadecimal, body => character (digitsValue 16 (body.drop 2)) (unit '&' :: (body ++ [unit ';']))

/-- The references that an escaped text has, and what they refer to. -/
inductive Spells : Kind → Text → Text → Prop
  | lt : Spells lt (lit "lt") [unit '<']
  | gt : Spells gt (lit "gt") [unit '>']
  | quot : Spells quot (lit "quot") [unit '"']
  | apos : Spells apos (lit "apos") [unit '\'']
  | amp : Spells amp (lit "amp") [unit '&']
  | decimal {digits : Text} : digits ≠ [] → (∀ u ∈ digits, isDigit 10 u) →
      IsCharacter (digitsValue 10 digits) →
      Spells decimal (unit '#' :: digits) (Text.ofScalar (digitsValue 10 digits))
  | hexadecimal {digits : Text} : digits ≠ [] → (∀ u ∈ digits, isDigit 16 u) →
      IsCharacter (digitsValue 16 digits) →
      Spells hexadecimal (unit '#' :: unit 'x' :: digits) (Text.ofScalar (digitsValue 16 digits))

end Kind

theorem passes_eq_map_rule : passes = Kind.all.map Kind.rule := rfl

/-- `t` spells `s` with references of the given kinds. -/
inductive Escapes (kinds : List Kind) : Text → Text → Prop
  | nil : Escapes kinds [] []
  | plain {u : CodeUnit} {s t : Text} : u ≠ unit '&' → Escapes kinds s t → Escapes kinds (u :: s) (u :: t)
  | reference {k : Kind} {body meaning s t : Text} : k ∈ kinds → k.Spells body meaning → Escapes kinds s t →
      Escapes kinds (meaning ++ s) (unit '&' :: (body ++ unit ';' :: t))

/-! ### What the rules recognize -/

theorem not_isDigit_semicolon (base : Nat) : isDigit base (unit ';') = false := by
  simp [isDigit, show CodeUnit.hexDigit? (unit ';') = none by decide]

theorem takeWhile_isDigit {base : Nat} {digits : Text} (h : ∀ u ∈ digits, isDigit base u) (t : Text) :
    (digits ++ unit ';' :: t).takeWhile (isDigit base) = digits := by
  rw [List.takeWhile_append_of_pos h, List.takeWhile_cons_of_neg (by simp [not_isDigit_semicolon]),
    List.append_nil]

/-- A numeric rule recognizes the digits of its base after its opening. -/
theorem numeric_apply (opening : Text) {digits : Text} {base : Nat} (hne : digits ≠ [])
    (h : ∀ u ∈ digits, isDigit base u) (t : Text) :
    numeric opening base (opening ++ (digits ++ unit ';' :: t)) =
      some (opening.length + digits.length + 1,
        character (digitsValue base digits) (opening ++ (digits ++ [unit ';']))) := by
  have hs : Text.stripFront? opening (opening ++ (digits ++ unit ';' :: t)) = some (digits ++ unit ';' :: t) :=
    Text.stripFront?_eq_some_iff.mpr rfl
  have ht := takeWhile_isDigit h t
  have htake : (opening ++ (digits ++ unit ';' :: t)).take (opening.length + digits.length + 1) =
      opening ++ (digits ++ [unit ';']) := by
    have hlength : opening.length + digits.length + 1 = (opening ++ (digits ++ [unit ';'])).length := by
      simp [Nat.add_assoc]
    rw [hlength, show opening ++ (digits ++ unit ';' :: t) = opening ++ (digits ++ [unit ';']) ++ t by simp,
      List.take_left]
  unfold isDigit at ht
  unfold digitsValue
  simp only [numeric, hs, ht, htake]
  rw [if_pos ⟨hne, by simp⟩]

theorem stripFront?_of_ne {u v : CodeUnit} (h : u ≠ v) (front t : Text) :
    Text.stripFront? (u :: front) (v :: t) = none := by
  simp [Text.stripFront?, h]

theorem rule_of_ne (k : Kind) {u : CodeUnit} (h : u ≠ unit '&') (t : Text) : k.rule (u :: t) = none := by
  have hnamed (name : String) (v : CodeUnit) : named name v (u :: t) = none := by
    simp [named, Text.startsWith, stripFront?_of_ne (Ne.symm h)]
  have hnumeric (front : Text) (base : Nat) : numeric (unit '&' :: front) base (u :: t) = none := by
    simp [numeric, stripFront?_of_ne (Ne.symm h)]
  cases k with
  | decimal => exact hnumeric _ 10
  | hexadecimal => exact hnumeric _ 16
  | _ => exact hnamed _ _

/-- A rule recognizes the references of its kind and no others. -/
theorem rule_of_forms {k k' : Kind} {body : Text} (h : k'.Forms body) (t : Text) :
    k.rule (unit '&' :: (body ++ unit ';' :: t)) =
      if k' = k then some (body.length + 2, k'.meaning body) else none := by
  cases h with
  | lt => cases k <;> rfl
  | gt => cases k <;> rfl
  | quot => cases k <;> rfl
  | apos => cases k <;> rfl
  | amp => cases k <;> rfl
  | @decimal digits hne hd =>
      cases k with
      | decimal =>
          rw [if_pos rfl, List.length_cons, show digits.length + 1 + 2 = 2 + digits.length + 1 by omega]
          exact numeric_apply (lit "&#") hne hd t
      | hexadecimal =>
          obtain ⟨d, ds, rfl⟩ := List.exists_cons_of_ne_nil hne
          have hx : unit 'x' ≠ d := by
            intro e
            have hdigit := hd d (by simp)
            rw [← e] at hdigit
            exact absurd hdigit (by decide)
          have hs : Text.stripFront? (lit "&#x") (unit '&' :: unit '#' :: d :: (ds ++ unit ';' :: t)) = none :=
            stripFront?_of_ne hx [] _
          simp only [Kind.rule, numeric, List.cons_append, hs]
          rfl
      | _ => rfl
  | @hexadecimal digits hne hd =>
      cases k with
      | hexadecimal =>
          rw [if_pos rfl, List.length_cons, List.length_cons,
            show digits.length + 1 + 1 + 2 = 3 + digits.length + 1 by omega]
          exact numeric_apply (lit "&#x") hne hd t
      | _ => rfl

theorem Kind.Spells.forms {k : Kind} {body meaning : Text} (h : k.Spells body meaning) : k.Forms body := by
  cases h <;> constructor <;> assumption

theorem Kind.Spells.meaning_eq {k : Kind} {body meaning : Text} (h : k.Spells body meaning) :
    k.meaning body = .ok meaning := by
  cases h with
  | decimal _ _ hc => exact if_pos hc.1
  | hexadecimal _ _ hc => exact if_pos hc.1
  | _ => rfl

/-! ### One pass -/

theorem pass_plain (k : Kind) {u : CodeUnit} (h : u ≠ unit '&') (t : Text) :
    pass k.rule 0 (u :: t) = (pass k.rule 0 t).map (u :: ·) := by
  rw [pass, rule_of_ne k h]

theorem pass_plain_append (k : Kind) {a : Text} (h : unit '&' ∉ a) (t : Text) :
    pass k.rule 0 (a ++ t) = (pass k.rule 0 t).map (a ++ ·) := by
  induction a with
  | nil => cases h : pass k.rule 0 t <;> simp [h, Except.map]
  | cons u a ih =>
      obtain ⟨hu, ha⟩ := not_or.mp (fun e => h (List.mem_cons.mpr e))
      rw [List.cons_append, pass_plain k (Ne.symm hu), ih ha]
      cases pass k.rule 0 t <;> rfl

theorem pass_skip (k : Kind) (a t : Text) : pass k.rule a.length (a ++ t) = pass k.rule 0 t := by
  induction a with
  | nil => rfl
  | cons u a ih => exact ih

/-- The units of which references consist between the ampersand and the semicolon. -/
def isReferenceUnit (u : CodeUnit) : Bool := u.hexDigit?.isSome || (lit "#xltgquoamps").contains u

theorem isReferenceUnit_of_isDigit {base : Nat} {u : CodeUnit} (h : isDigit base u) : isReferenceUnit u := by
  unfold isDigit at h
  unfold isReferenceUnit
  cases e : u.hexDigit? with
  | none => simp [e] at h
  | some d => rfl

theorem Kind.Forms.units {k : Kind} {body : Text} (h : k.Forms body) : ∀ u ∈ body, isReferenceUnit u := by
  cases h with
  | decimal _ hd =>
      rintro u (_ | ⟨_, hu⟩)
      · decide
      · exact isReferenceUnit_of_isDigit (hd u hu)
  | hexadecimal _ hd =>
      rintro u (_ | ⟨_, _ | ⟨_, hu⟩⟩)
      · decide
      · decide
      · exact isReferenceUnit_of_isDigit (hd u hu)
  | _ => exact List.all_eq_true.mp (by decide)

theorem not_mem_of_forms {k : Kind} {body : Text} (h : k.Forms body) {u : CodeUnit}
    (hu : isReferenceUnit u = false) : u ∉ body := by
  intro hmem
  rw [h.units u hmem] at hu
  cases hu

/-- Behind its ampersand a reference has none. -/
theorem ampersand_not_mem_of_forms {k : Kind} {body : Text} (h : k.Forms body) :
    unit '&' ∉ body ++ [unit ';'] := by
  simp only [List.mem_append, List.mem_singleton, not_or]
  exact ⟨not_mem_of_forms h (by decide), by decide⟩

/-- A pass replaces the references of its kind. -/
theorem pass_reference_self {k : Kind} {body meaning : Text} (h : k.Forms body)
    (hm : k.meaning body = .ok meaning) (t : Text) :
    pass k.rule 0 (unit '&' :: (body ++ unit ';' :: t)) = (pass k.rule 0 t).map (meaning ++ ·) := by
  have hskip : pass k.rule (body.length + 1) (body ++ unit ';' :: t) = pass k.rule 0 t := by
    have := pass_skip k (body ++ [unit ';']) t
    rwa [List.append_assoc, List.length_append] at this
  rw [pass, rule_of_forms h, if_pos rfl, hm, ← hskip]
  rfl

/-- A pass copies the references of other kinds. -/
theorem pass_reference_other {k k' : Kind} {body : Text} (hk : k' ≠ k) (h : k'.Forms body) (t : Text) :
    pass k.rule 0 (unit '&' :: (body ++ unit ';' :: t)) =
      (pass k.rule 0 t).map fun t' => unit '&' :: (body ++ unit ';' :: t') := by
  have hcopy : pass k.rule 0 (body ++ unit ';' :: t) = (pass k.rule 0 t).map (body ++ [unit ';'] ++ ·) := by
    rw [← pass_plain_append k (ampersand_not_mem_of_forms h), List.append_assoc]
    rfl
  rw [pass, rule_of_forms h, if_neg hk, hcopy]
  cases pass k.rule 0 t <;> simp [Except.map]

/-! ### Escaped texts -/

theorem not_mem_ofScalar {code : Nat} (h : IsCharacter code) : unit '&' ∉ Text.ofScalar code := by
  obtain ⟨hmost, hamp⟩ := h
  have hm : code ≤ 1114111 := hmost
  have h38 : (unit '&').toNat = 38 := by decide
  unfold Text.ofScalar
  split
  · intro hmem
    have e := congrArg UInt16.toNat (List.mem_singleton.mp hmem)
    rw [h38, UInt16.toNat_ofNat'] at e
    omega
  · intro hmem
    rcases List.mem_cons.mp hmem with e | hmem
    · have e := congrArg UInt16.toNat e
      rw [h38, UInt16.toNat_ofNat'] at e
      omega
    · have e := congrArg UInt16.toNat (List.mem_singleton.mp hmem)
      rw [h38, UInt16.toNat_ofNat'] at e
      omega

theorem not_mem_meaning {k : Kind} {body meaning : Text} (hk : k ≠ .amp) (h : k.Spells body meaning) :
    unit '&' ∉ meaning := by
  cases h with
  | decimal _ _ hc => exact not_mem_ofScalar hc
  | hexadecimal _ _ hc => exact not_mem_ofScalar hc
  | amp => exact absurd rfl hk
  | _ => decide

theorem Escapes.plain_append {kinds : List Kind} {a s t : Text} (ha : unit '&' ∉ a) (h : Escapes kinds s t) :
    Escapes kinds (a ++ s) (a ++ t) := by
  induction a with
  | nil => exact h
  | cons u a ih =>
      obtain ⟨hu, ha⟩ := not_or.mp (fun e => ha (List.mem_cons.mpr e))
      exact .plain (Ne.symm hu) (ih ha)

/-- A pass before the last leaves a text that is escaped without its kind. -/
theorem pass_of_escapes {k : Kind} {kinds : List Kind} {s t : Text} (hk : k ≠ .amp)
    (h : Escapes (k :: kinds) s t) : ∃ t', pass k.rule 0 t = .ok t' ∧ Escapes kinds s t' := by
  induction h with
  | nil => exact ⟨[], rfl, .nil⟩
  | plain hu _ ih =>
      obtain ⟨t', hp, he⟩ := ih
      exact ⟨_, by rw [pass_plain k hu, hp]; rfl, .plain hu he⟩
  | @reference k' body meaning s t hk' hs _ ih =>
      obtain ⟨t', hp, he⟩ := ih
      by_cases e : k' = k
      · subst e
        exact ⟨_, by rw [pass_reference_self hs.forms hs.meaning_eq, hp]; rfl, .plain_append (not_mem_meaning hk hs) he⟩
      · refine ⟨_, by rw [pass_reference_other e hs.forms, hp]; rfl, .reference ?_ hs he⟩
        rcases List.mem_cons.mp hk' with e' | hk'
        · exact absurd e' e
        · exact hk'

/-- The last pass gives the text itself. -/
theorem pass_amp_of_escapes {s t : Text} (h : Escapes [.amp] s t) : pass Kind.amp.rule 0 t = .ok s := by
  induction h with
  | nil => rfl
  | plain hu _ ih => rw [pass_plain .amp hu, ih]; rfl
  | reference hk hs _ ih =>
      obtain rfl := List.mem_singleton.mp hk
      rw [pass_reference_self hs.forms hs.meaning_eq, ih]
      rfl

theorem foldlM_pass_of_escapes {early : List Kind} {s t : Text} (hk : Kind.amp ∉ early)
    (h : Escapes (early ++ [Kind.amp]) s t) :
    ((early ++ [Kind.amp]).map Kind.rule).foldlM (fun t rule => pass rule 0 t) t = .ok s := by
  induction early generalizing t with
  | nil =>
      simp only [List.nil_append, List.map_cons, List.map_nil, List.foldlM_cons, List.foldlM_nil,
        pass_amp_of_escapes h]
      rfl
  | cons k early ih =>
      obtain ⟨hamp, hearly⟩ := not_or.mp (fun e => hk (List.mem_cons.mpr e))
      obtain ⟨t', hp, he⟩ := pass_of_escapes (Ne.symm hamp) h
      simp only [List.cons_append, List.map_cons, List.foldlM_cons, hp]
      exact ih hearly he

/-- Decoding undoes escaping. -/
theorem decode_of_escapes {s t : Text} (h : Escapes Kind.all s t) : decode t = .ok s := by
  unfold decode
  rw [passes_eq_map_rule]
  exact foldlM_pass_of_escapes (by decide) h

/-! ### Code points -/

/-- The ways to write a code point: as it is, unless it is an ampersand, or by a reference to it. -/
inductive Writes (code : Nat) : Text → Prop
  | literal : IsCharacter code → Writes code (Text.ofScalar code)
  | reference {k : Kind} {body : Text} : k.Spells body (Text.ofScalar code) →
      Writes code (unit '&' :: (body ++ [unit ';']))

theorem Kind.mem_all (k : Kind) : k ∈ all := by
  cases k <;> decide

theorem Writes.escapes_append {code : Nat} {part s t : Text} (hpart : Writes code part) (h : Escapes Kind.all s t) :
    Escapes Kind.all (Text.ofScalar code ++ s) (part ++ t) := by
  cases hpart with
  | literal hcode => exact .plain_append (not_mem_ofScalar hcode) h
  | @reference k body hspells =>
      rw [List.cons_append, List.append_assoc]
      exact .reference k.mem_all hspells h

/-- **Every way of escaping is undone.**  Write each code point of a text in any way: the ampersand as `&amp;`, any
other as it is, by its name if it has one, or by its number, in decimal or in hexadecimal digits of either case, with
any number of zeros in front.  Decoding gives the text of the code points. -/
theorem decode_flatten_of_writes {codes : List Nat} {parts : List Text} (h : List.Forall₂ Writes codes parts) :
    decode parts.flatten = .ok (Text.ofScalars codes) := by
  have hescapes : Escapes Kind.all (Text.ofScalars codes) parts.flatten := by
    induction h with
    | nil => exact .nil
    | cons hpart _ ih => exact hpart.escapes_append ih
  exact decode_of_escapes hescapes

/-- A text that itself looks like a reference, and a code point beyond the basic plane. -/
theorem decode_flatten_lookalike :
    let codes := [38, 108, 116, 59, 0x1F60A]
    let parts := [lit "&amp;", lit "l", lit "&#0116;", lit ";", lit "&#x01f60A;"]
    List.Forall₂ Writes codes parts ∧ Text.ofScalars codes = lit "&lt;😊" ∧
      decode parts.flatten = .ok (lit "&lt;😊") := by
  intro codes parts
  have hamp : Writes 38 (unit '&' :: (lit "amp" ++ [unit ';'])) := .reference .amp
  have ht : Writes (digitsValue 10 (lit "0116")) (unit '&' :: (unit '#' :: lit "0116" ++ [unit ';'])) :=
    .reference (.decimal (by decide) (List.all_eq_true.mp (by decide)) (by decide))
  have hface : Writes (digitsValue 16 (lit "01f60A"))
      (unit '&' :: (unit '#' :: unit 'x' :: lit "01f60A" ++ [unit ';'])) :=
    .reference (.hexadecimal (by decide) (List.all_eq_true.mp (by decide)) (by decide))
  have hwrites : List.Forall₂ Writes codes parts :=
    .cons hamp (.cons (.literal (by decide)) (.cons ht (.cons (.literal (by decide)) (.cons hface .nil))))
  have hcodes : Text.ofScalars codes = lit "&lt;😊" := by decide +kernel
  exact ⟨hwrites, hcodes, hcodes ▸ decode_flatten_of_writes hwrites⟩

end Reference
end Pictogram
