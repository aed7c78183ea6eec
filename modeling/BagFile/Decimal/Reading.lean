/-
  Reading a decimal number from text.

  * `Decimal.Number` is what a text can stand for: a decimal fraction with an exponent, an
    infinity, or not a number;
  * `Number.ofText?` reads the grammar
      `[sign] (inf | infinity | nan | digits [. digits] [exp] | . digits [exp])`,
    words in any case, `exp` an `e` with an optional sign and at least one digit;
  * `Number.toFloat` is the nearest double.
-/

namespace BagFile.Decimal

/-- A number read from text. -/
inductive Number where
  /-- `± digits * 10 ^ exponent` -/
  | finite (negative : Bool) (digits : Nat) (exponent : Int)
  | infinite (negative : Bool)
  | nan
  deriving DecidableEq

namespace Number

/-! ## The grammar -/

/-- An optional sign; whether it is a minus, and what follows it. -/
def sign : List Char → Bool × List Char
  | '-' :: cs => (true, cs)
  | '+' :: cs => (false, cs)
  | cs => (false, cs)

/-- The number that decimal digits stand for. -/
def ofDigits (cs : List Char) : Nat := cs.foldl (fun n c => n * 10 + (c.toNat - '0'.toNat)) 0

/-- The exponent at the end of a number; a number without one has exponent zero. -/
def exponent? : List Char → Option Int
  | [] => some 0
  | c :: cs =>
    if c = 'e' ∨ c = 'E' then
      let (negative, ds) := sign cs
      if ds ≠ [] ∧ ds.all Char.isDigit then
        some (if negative then -(ofDigits ds : Int) else ofDigits ds)
      else none
    else none

/-- The part after the whole digits, if it starts with a point: its digits, and what follows. -/
def fraction : List Char → List Char × List Char
  | '.' :: cs => (cs.takeWhile Char.isDigit, cs.dropWhile Char.isDigit)
  | cs => ([], cs)

/-- An unsigned number made of digits. -/
def digits? (negative : Bool) (cs : List Char) : Option Number :=
  let whole := cs.takeWhile Char.isDigit
  let (part, rest) := fraction (cs.dropWhile Char.isDigit)
  if whole = [] ∧ part = [] then none
  else (exponent? rest).map fun e => .finite negative (ofDigits (whole ++ part)) (e - part.length)

/-- The number that a text stands for, if it is one. -/
def ofText? (s : String) : Option Number :=
  let (negative, cs) := sign s.toList
  let word := cs.map Char.toLower
  if word = "inf".toList ∨ word = "infinity".toList then some (.infinite negative)
  else if word = "nan".toList then some .nan
  else digits? negative cs

/-! ## The nearest double -/

/-- The double nearest to a number.  Exponents far outside the range of doubles are settled
    by the number's size alone. -/
def toFloat : Number → Float
  | .nan => 0.0 / 0.0
  | .infinite negative => if negative then -1.0 / 0.0 else 1.0 / 0.0
  | .finite negative digits exponent =>
    let size := ((Nat.toDigits 10 digits).length : Int) + exponent
    let magnitude : Float :=
      if digits = 0 ∨ size < -400 then 0.0
      else if 400 < size then 1.0 / 0.0
      else Float.ofScientific digits (exponent < 0) exponent.natAbs
    if negative then -magnitude else magnitude

end Number

end BagFile.Decimal
