/-
  Numbers written in decimal with a fixed layout.

  * `Decimal.padded w n` is `n` with zeros in front up to `w` digits;
  * `Decimal.roundDiv` divides and rounds to the nearest integer, a half to the even one;
  * `Binary.fixed k x` writes the exact value of a floating-point number with `k` decimals.
-/
import BagFile.Bytes

namespace BagFile

namespace Decimal

/-- The decimal digits of `n`, with zeros in front up to `w` of them. -/
def padded (w n : Nat) : String :=
  let digits := Nat.toDigits 10 n
  String.ofList (List.replicate (w - digits.length) '0' ++ digits)

/-- `num / den` rounded to the nearest integer; a half goes to the even neighbour. -/
def roundDiv (num den : Nat) : Nat :=
  let q := num / den
  let twice := 2 * (num % den)
  if twice < den then q
  else if den < twice then q + 1
  else q + q % 2

/-- The rounded quotient is within half a unit of the quotient. -/
theorem roundDiv_near (num den : Nat) (h : 0 < den) :
    2 * num ≤ (2 * roundDiv num den + 1) * den ∧ 2 * roundDiv num den * den ≤ 2 * num + den := by
  have e := Nat.div_add_mod num den
  have lt := Nat.mod_lt num h
  unfold roundDiv
  generalize num / den = q at *
  generalize num % den = r at *
  subst e
  dsimp only
  have hq : den * q = q * den := Nat.mul_comm den q
  split
  · constructor <;> simp only [Nat.add_mul, Nat.mul_assoc] <;> omega
  · split
    · constructor <;> simp only [Nat.add_mul, Nat.mul_add, Nat.mul_assoc, Nat.one_mul] <;> omega
    · have hd : den = 2 * r := by omega
      rcases Nat.mod_two_eq_zero_or_one q with h2 | h2 <;> rw [h2] <;>
        constructor <;> simp only [Nat.add_mul, Nat.mul_add, Nat.mul_assoc, Nat.one_mul,
          Nat.add_zero] <;> omega

end Decimal

/-! ## Floating-point values -/

/-- A binary floating-point value: `mantissa * 2 ^ exponent`, negated if `negative`. -/
structure Binary where
  negative : Bool
  mantissa : Nat
  exponent : Int
  deriving DecidableEq

namespace Binary

/-- The value that the bits of a finite double stand for. -/
def ofBits (bits : UInt64) : Binary :=
  let n := bits.toNat
  let e := n / 2 ^ 52 % 2 ^ 11
  let fraction := n % 2 ^ 52
  { negative := n / 2 ^ 63 = 1
    mantissa := if e = 0 then fraction else fraction + 2 ^ 52
    exponent := Int.ofNat (if e = 0 then 1 else e) - 1075 }

/-- The value with `k` decimals: its exact decimal expansion, rounded half to even.  The sign
    is kept even where all digits are zero. -/
def fixed (k : Nat) (x : Binary) : String :=
  let units :=
    if 0 ≤ x.exponent then x.mantissa * 2 ^ x.exponent.toNat * 10 ^ k
    else Decimal.roundDiv (x.mantissa * 10 ^ k) (2 ^ (-x.exponent).toNat)
  (if x.negative then "-" else "") ++ toString (units / 10 ^ k) ++ "." ++
    Decimal.padded k (units % 10 ^ k)

end Binary

end BagFile
