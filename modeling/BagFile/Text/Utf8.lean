/-
  Text and its UTF-8 bytes.

  * `Text.encode` and `Text.decode?` go between a string and its encoding; the latter
    refuses bytes that encode nothing;
  * `Text.decodeLossy` reads any bytes: every maximal invalid stretch becomes one
    replacement character.
-/
import BagFile.Dense

namespace BagFile.Text

/-- The UTF-8 encoding of a string. -/
def encode (s : String) : Dense := s.toUTF8

/-- The string that the bytes encode, if they are valid UTF-8. -/
def decode? (d : Dense) : Option String := String.fromUTF8? d

/-! ## Reading damaged text

A scan over the bytes that remembers the character begun but not yet complete.  A byte that
cannot continue it ends an invalid stretch, and is then looked at afresh. -/

/-- A character begun: `left` more bytes are due, the next of them between `low` and `high`,
    and `bits` are the bits collected so far. -/
structure Begun where
  left : Nat
  low : UInt8
  high : UInt8
  bits : Nat

/-- What a byte means at the start of a character. -/
inductive Lead where
  | whole (c : Char)
  | begins (b : Begun)
  | invalid

/-- The reading of a first byte.  The bounds on the second byte keep out overlong forms,
    surrogates and code points above U+10FFFF. -/
def Lead.of (b : UInt8) : Lead :=
  if b < 0x80 then .whole (Char.ofNat b.toNat)
  else if b < 0xC2 then .invalid
  else if b < 0xE0 then .begins ⟨1, 0x80, 0xBF, b.toNat % 32⟩
  else if b < 0xF0 then
    .begins ⟨2, if b = 0xE0 then 0xA0 else 0x80, if b = 0xED then 0x9F else 0xBF, b.toNat % 16⟩
  else if b < 0xF5 then
    .begins ⟨3, if b = 0xF0 then 0x90 else 0x80, if b = 0xF4 then 0x8F else 0xBF, b.toNat % 8⟩
  else .invalid

/-- The character that stands for bytes that are not UTF-8. -/
def replacement : Char := '\uFFFD'

/-- A text that has been read so far, and the character in progress behind it. -/
abbrev Scan := String × Option Begun

/-- Takes in a byte where no character is in progress. -/
def Scan.lead (out : String) (b : UInt8) : Scan :=
  match Lead.of b with
  | .whole c => (out.push c, none)
  | .begins c => (out, some c)
  | .invalid => (out.push replacement, none)

/-- Takes in a byte. -/
def Scan.step : Scan → UInt8 → Scan
  | (out, none), b => lead out b
  | (out, some c), b =>
    if c.low ≤ b ∧ b ≤ c.high then
      let bits := c.bits * 64 + b.toNat % 64
      if c.left ≤ 1 then (out.push (Char.ofNat bits), none)
      else (out, some ⟨c.left - 1, 0x80, 0xBF, bits⟩)
    else lead (out.push replacement) b

/-- The text; a character in progress is not complete. -/
def Scan.finish : Scan → String
  | (out, none) => out
  | (out, some _) => out.push replacement

/-- The text of any bytes, one replacement character for each maximal invalid stretch. -/
def decodeLossy (d : Dense) : String :=
  match decode? d with
  | some s => s
  | none => Scan.finish (d.foldl Scan.step ("", none))

end BagFile.Text
