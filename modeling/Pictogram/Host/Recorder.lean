import Pictogram.Host.Basic

/-! # Recording hosts

A recorder keeps the calls made on it, in order, and fails on chosen ones: those of a given name that
have a given number of calls of that name before them.  A call that fails is recorded too. -/

namespace Pictogram

/-- The failure of the `nth` call of a name, counted from zero. -/
structure Refusal where
  name : Text
  nth : Nat
deriving DecidableEq, Repr

def Refusal.message (r : Refusal) : Text :=
  lit "host failed on " ++ r.name ++ lit " " ++ Text.ofNat r.nth

namespace Recorder

variable {κ : Type}

/-- Records calls, named by `name`, and fails on those that `refused` holds. -/
def host (name : κ → Text) (refused : List Refusal) : Host κ (Array κ) Refusal := fun c calls =>
  let refusal : Refusal := ⟨name c, calls.countP fun d => name d = name c⟩
  if refusal ∈ refused then .error refusal (calls.push c) else .ok () (calls.push c)

end Recorder

def Call.name : Call → Text
  | pushTransform _ => lit "pushTransform"
  | popTransform => lit "popTransform"
  | beginPath => lit "beginPath"
  | moveTo _ => lit "moveTo"
  | lineTo _ => lit "lineTo"
  | cubicTo .. => lit "cubicTo"
  | closePath => lit "closePath"
  | fill _ => lit "fill"
  | stroke .. => lit "stroke"

end Pictogram
