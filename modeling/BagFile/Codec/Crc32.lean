/-
  The cyclic redundancy check of 32 bits, most significant bit first, with the polynomial
  0x04C11DB7, all ones at the start, and complemented at the end.

  A byte is taken in through a table of what its eight bits do to the register.
-/
import BagFile.Dense

namespace BagFile.Crc32

/-- Shifts the register by one bit. -/
def shift (r : UInt32) : UInt32 :=
  if r &&& 0x80000000 = 0 then r <<< 1 else (r <<< 1) ^^^ 0x04C11DB7

/-- A register with one byte at its upper end, after eight shifts. -/
def shiftByte (b : UInt8) : UInt32 :=
  (List.range 8).foldl (fun r _ => shift r) (b.toUInt32 <<< 24)

/-- The results of `shiftByte`, by byte. -/
def table : Array UInt32 := (Array.range 256).map fun b => shiftByte (UInt8.ofNat b)

/-- Takes a byte into the register. -/
def step (r : UInt32) (b : UInt8) : UInt32 :=
  (r <<< 8) ^^^ table.getD ((r >>> 24).toUInt8 ^^^ b).toNat 0

/-- The checksum of some bytes. -/
def ofDense (d : Dense) : UInt32 := ~~~ d.foldl step 0xFFFFFFFF

end BagFile.Crc32
