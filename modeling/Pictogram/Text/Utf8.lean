import Pictogram.Text.Basic

/-! # Text in UTF-8

`Text.decodeUtf8` reads bytes as text.  One byte order mark at the front is dropped, and each
longest stretch of bytes that begins a well-formed sequence without completing it becomes one
U+FFFD, as does each byte that begins none.  `Text.encodeUtf8` writes text as bytes, with U+FFFD in
place of a lone surrogate. -/

namespace Pictogram

/-- File contents. -/
abbrev Bytes := List UInt8

namespace Utf8

/-- What a lead byte announces: how many bytes follow, the range of the first of them, and the bits
of the code point that the lead byte holds. -/
structure Lead where
  following : Nat
  low : UInt8
  high : UInt8
  bits : Nat

def lead? (b : UInt8) : Option Lead :=
  if b < 0x80 then some ⟨0, 0x80, 0xBF, b.toNat⟩
  else if 0xC2 ≤ b ∧ b ≤ 0xDF then some ⟨1, 0x80, 0xBF, b.toNat - 0xC0⟩
  else if b = 0xE0 then some ⟨2, 0xA0, 0xBF, 0⟩
  else if b = 0xED then some ⟨2, 0x80, 0x9F, 0xD⟩
  else if 0xE1 ≤ b ∧ b ≤ 0xEF then some ⟨2, 0x80, 0xBF, b.toNat - 0xE0⟩
  else if b = 0xF0 then some ⟨3, 0x90, 0xBF, 0⟩
  else if 0xF1 ≤ b ∧ b ≤ 0xF3 then some ⟨3, 0x80, 0xBF, b.toNat - 0xF0⟩
  else if b = 0xF4 then some ⟨3, 0x80, 0x8F, 4⟩
  else none

/-- The code point of what cannot be read. -/
def replacement : Nat := 0xFFFD

/-- Reads the bytes that a lead byte announces: the code point and how many of them were used. -/
def complete : (following : Nat) → (low high : UInt8) → (bits used : Nat) → Bytes → Nat × Nat
  | 0, _, _, bits, used, _ => (bits, used)
  | _ + 1, _, _, _, used, [] => (replacement, used)
  | n + 1, low, high, bits, used, b :: bs =>
    if low ≤ b ∧ b ≤ high then complete n 0x80 0xBF (bits * 64 + (b.toNat - 0x80)) (used + 1) bs
    else (replacement, used)

/-- The code points of a byte sequence, past `skip` bytes that are already read. -/
def scalarsFrom : (skip : Nat) → Bytes → List Nat
  | _, [] => []
  | skip + 1, _ :: bs => scalarsFrom skip bs
  | 0, b :: bs =>
    match lead? b with
    | none => replacement :: scalarsFrom 0 bs
    | some l =>
      let (n, used) := complete l.following l.low l.high l.bits 0 bs
      n :: scalarsFrom used bs

/-- The bytes of a code point. -/
def ofScalar (n : Nat) : Bytes :=
  if n < 0x80 then [UInt8.ofNat n]
  else if n < 0x800 then [UInt8.ofNat (0xC0 + n / 64), UInt8.ofNat (0x80 + n % 64)]
  else if n < 0x10000 then
    [UInt8.ofNat (0xE0 + n / 4096), UInt8.ofNat (0x80 + n / 64 % 64), UInt8.ofNat (0x80 + n % 64)]
  else
    [UInt8.ofNat (0xF0 + n / 262144), UInt8.ofNat (0x80 + n / 4096 % 64),
      UInt8.ofNat (0x80 + n / 64 % 64), UInt8.ofNat (0x80 + n % 64)]

end Utf8

namespace Text

def decodeUtf8 (bytes : Bytes) : Text :=
  match bytes with
  | 0xEF :: 0xBB :: 0xBF :: rest => ofScalars (Utf8.scalarsFrom 0 rest)
  | _ => ofScalars (Utf8.scalarsFrom 0 bytes)

def encodeUtf8 (t : Text) : Bytes :=
  t.scalars.flatMap fun n => Utf8.ofScalar (if 0xD800 ≤ n ∧ n ≤ 0xDFFF then Utf8.replacement else n)

end Text
end Pictogram
