/-
  Bit strings, most significant bit first.

  * `Bits.ofNat w n` are the `w` low bits of `n`, and `Bits.toNat` is the number of some bits;
  * `Packed` are bits packed into bytes, to which more can be added;
  * `BitReader` is a reading of bits from a position on that may fail: `BitReader.bit`,
    `BitReader.number`.
-/
import BagFile.Dense

namespace BagFile

namespace Bits

/-- The `w` low bits of `n`, most significant first. -/
def ofNat : Nat → Nat → List Bool
  | 0, _ => []
  | w + 1, n => n.testBit w :: ofNat w n

/-- The number whose bits these are. -/
def toNat (bits : List Bool) : Nat := bits.foldl (fun n b => 2 * n + b.toNat) 0

end Bits

/-! ## Packed bits -/

/-- Bits packed into bytes: whole bytes, and fewer than eight bits as a number. -/
structure Packed where
  whole : Dense
  rest : Nat
  /-- how many bits there are in `rest` -/
  count : Nat

namespace Packed

/-- No bits. -/
def empty : Packed := ⟨.empty, 0, 0⟩

/-- The bits with one more behind them. -/
def push (p : Packed) (b : Bool) : Packed :=
  let rest := 2 * p.rest + b.toNat
  if p.count = 7 then ⟨p.whole.push (UInt8.ofNat rest), 0, 0⟩ else ⟨p.whole, rest, p.count + 1⟩

/-- The bits with others behind them. -/
def append (p : Packed) (bits : List Bool) : Packed := bits.foldl push p

/-- The bytes, the last one filled up with zeros. -/
def toDense (p : Packed) : Dense :=
  if p.count = 0 then p.whole else p.whole.push (UInt8.ofNat (p.rest * 2 ^ (8 - p.count)))

end Packed

/-! ## Reading bits -/

/-- A reading of the bits of some bytes, from a position on: a value and the position behind
    it, or failure. -/
abbrev BitReader := ReaderT Dense (StateT Nat Option)

namespace BitReader

/-- Reads a bit. -/
def bit : BitReader Bool := fun d pos =>
  if h : pos / 8 < d.size then some (d[pos / 8].toNat.testBit (7 - pos % 8), pos + 1) else none

/-- Reads `w` bits behind those of `n`, as a number. -/
def numberFrom : Nat → Nat → BitReader Nat
  | n, 0 => pure n
  | n, w + 1 => do numberFrom (2 * n + (← bit).toNat) w

/-- Reads a number of `w` bits. -/
def number (w : Nat) : BitReader Nat := numberFrom 0 w

/-- Reads `count` times and gives the values in order; `done` holds those read before, in
    reverse. -/
def repeatFrom {α : Type} (read : BitReader α) (done : List α) : Nat → BitReader (List α)
  | 0 => pure done.reverse
  | count + 1 => do repeatFrom read ((← read) :: done) count

/-- Reads `count` times and gives the values in order. -/
def repeated {α : Type} (count : Nat) (read : BitReader α) : BitReader (List α) :=
  repeatFrom read [] count

/-- Goes on only if a condition holds. -/
def guard (p : Bool) : BitReader Unit := if p then pure () else failure

end BitReader

end BagFile
