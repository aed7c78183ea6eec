/-
  The hash xxHash of 32 bits, with seed zero.

  Sixteen bytes at a time go into four lanes; the lanes are joined, the remaining bytes are
  taken in by words and then singly, and the result is mixed.
-/
import BagFile.Dense

namespace BagFile.XxHash

def prime1 : UInt32 := 0x9E3779B1
def prime2 : UInt32 := 0x85EBCA77
def prime3 : UInt32 := 0xC2B2AE3D
def prime4 : UInt32 := 0x27D4EB2F
def prime5 : UInt32 := 0x165667B1

/-- Rotates a word to the left. -/
def rotate (x : UInt32) (n : UInt32) : UInt32 := (x <<< n) ||| (x >>> (32 - n))

/-- The word of the four bytes from a position on. -/
def wordAt (d : Dense) (pos : Nat) : UInt32 :=
  (d.byteAt pos).toUInt32 ||| ((d.byteAt (pos + 1)).toUInt32 <<< 8) |||
    ((d.byteAt (pos + 2)).toUInt32 <<< 16) ||| ((d.byteAt (pos + 3)).toUInt32 <<< 24)

/-- Takes a word into a lane. -/
def round (lane w : UInt32) : UInt32 := rotate (lane + w * prime2) 13 * prime1

/-- The four lanes. -/
structure Lanes where
  a : UInt32
  b : UInt32
  c : UInt32
  d : UInt32

/-- The lanes before any input. -/
def Lanes.start : Lanes := ⟨prime1 + prime2, prime2, 0, 0 - prime1⟩

/-- Takes in sixteen bytes from a position on, so many times. -/
def Lanes.run (s : Lanes) (d : Dense) (pos : Nat) : Nat → Lanes
  | 0 => s
  | n + 1 =>
    Lanes.run ⟨round s.a (wordAt d pos), round s.b (wordAt d (pos + 4)),
      round s.c (wordAt d (pos + 8)), round s.d (wordAt d (pos + 12))⟩ d (pos + 16) n

/-- Joins the lanes. -/
def Lanes.join (s : Lanes) : UInt32 :=
  rotate s.a 1 + rotate s.b 7 + rotate s.c 12 + rotate s.d 18

/-- Takes in the bytes from a position on, by words while there are four. -/
def tail (h : UInt32) (d : Dense) (pos : Nat) : UInt32 :=
  if pos + 4 ≤ d.size then
    tail (rotate (h + wordAt d pos * prime3) 17 * prime4) d (pos + 4)
  else if pos < d.size then
    tail (rotate (h + (d.byteAt pos).toUInt32 * prime5) 11 * prime1) d (pos + 1)
  else h
termination_by d.size - pos

/-- The final mixing. -/
def mix (h : UInt32) : UInt32 :=
  let h := (h ^^^ (h >>> 15)) * prime2
  let h := (h ^^^ (h >>> 13)) * prime3
  h ^^^ (h >>> 16)

/-- The hash of some bytes. -/
def ofDense (d : Dense) : UInt32 :=
  let stripes := d.size / 16
  let h := if stripes = 0 then prime5 else (Lanes.start.run d 0 stripes).join
  mix (tail (h + UInt32.ofNat d.size) d (16 * stripes))

end BagFile.XxHash
