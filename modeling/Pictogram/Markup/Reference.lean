import Pictogram.Fault

/-! # Character references

The references of a text are replaced in seven passes over the whole text, each from left to right:
the named references for `<`, `>`, `"` and `'`, then decimal references, then hexadecimal ones, and
the ampersand last.  A pass also sees what the passes before it have put in.  A reference beyond
U+10FFFF is a fault; one to a surrogate gives that surrogate. -/

namespace Pictogram
namespace Reference

/-- What a pass recognizes at the front of a text: the length of a reference and what it stands for. -/
abbrev Rule := Text → Option (Nat × Except Fault Text)

def mostCodePoint : Nat := 0x10FFFF

/-- The text of a code point, or the complaint about the reference that asks for it. -/
def character (code : Nat) (reference : Text) : Except Fault Text :=
  if code ≤ mostCodePoint then .ok (Text.ofScalar code) else .error (.invalidReference reference)

/-- A reference by name. -/
def named (name : String) (u : CodeUnit) : Rule := fun t =>
  let reference := unit '&' :: lit name ++ [unit ';']
  if t.startsWith reference then some (reference.length, .ok [u]) else none

/-- A reference by number: an opening, at least one digit of the base, and a semicolon. -/
def numeric (opening : Text) (base : Nat) : Rule := fun t =>
  match Text.stripFront? opening t with
  | none => none
  | some body =>
    let isDigit (u : CodeUnit) : Bool := (u.hexDigit?.map fun d => decide (d < base)).getD false
    let digits := body.takeWhile isDigit
    let code := digits.foldl (fun n u => base * n + u.hexDigit?.getD 0) 0
    let length := opening.length + digits.length + 1
    if digits ≠ [] ∧ (body.drop digits.length).head? = some (unit ';') then
      some (length, character code (t.take length))
    else none

/-- The passes, in order. -/
def passes : List Rule :=
  [named "lt" (unit '<'), named "gt" (unit '>'), named "quot" (unit '"'), named "apos" (unit '\''),
    numeric (lit "&#") 10, numeric (lit "&#x") 16, named "amp" (unit '&')]

/-- One pass over a text, past `skip` units that belong to a reference already replaced. -/
def pass (rule : Rule) : (skip : Nat) → Text → Except Fault Text
  | _, [] => .ok []
  | skip + 1, _ :: t => pass rule skip t
  | 0, u :: t =>
    match rule (u :: t) with
    | none => (pass rule 0 t).map (u :: ·)
    | some (_, .error f) => .error f
    | some (length, .ok replacement) => (pass rule (length - 1) t).map (replacement ++ ·)

/-- The text with its references replaced. -/
def decode (t : Text) : Except Fault Text := passes.foldlM (fun t rule => pass rule 0 t) t

end Reference
end Pictogram
