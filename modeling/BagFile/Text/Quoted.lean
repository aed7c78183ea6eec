/-
  Text in double quotes, with what cannot be seen written as an escape.

  * `Text.quote s` is `s` between double quotes: tab, carriage return, line feed, NUL, the
    double quote and the backslash have short escapes, other characters that cannot be seen
    are written by code point, all else stands as it is.
-/
import BagFile.Text.Visible

namespace BagFile.Text

/-- The lower-case hexadecimal digits of a number, without leading zeros. -/
def hex (n : Nat) : List Char := Nat.toDigits 16 n

/-- The written form of one character of a quoted text. -/
def escape (c : Char) : List Char :=
  if c = '\t' then ['\\', 't']
  else if c = '\r' then ['\\', 'r']
  else if c = '\n' then ['\\', 'n']
  else if c = '"' then ['\\', '"']
  else if c = '\\' then ['\\', '\\']
  else if c = '\x00' then ['\\', '0']
  else if isVisible c then [c]
  else ['\\', 'u', '\x7b'] ++ hex c.toNat ++ ['\x7d']

/-- A text in double quotes, escaped. -/
def quote (s : String) : String :=
  (s.foldl (fun out c => (escape c).foldl String.push out) "\"").push '"'

end BagFile.Text
