/-
  The outer run-length code of bzip2: four equal bytes are followed by a byte that says how
  many more of them there are.

  * `RunLength.encode` writes runs, at most 255 bytes at a time;
  * `RunLength.decode` refuses a text that ends where a count is due.
-/
import BagFile.Dense

namespace BagFile.Bzip2.RunLength

/-- The written form of `n` bytes `b`. -/
def encodeRun (b : UInt8) (n : Nat) : Bytes :=
  if n < 4 then List.replicate n b
  else
    let m := min n 255
    List.replicate 4 b ++ [UInt8.ofNat (m - 4)] ++ encodeRun b (n - m)
termination_by n

/-- How many bytes from a position on are equal to `b`. -/
def runAt (d : Dense) (b : UInt8) (pos : Nat) : Nat :=
  if h : pos < d.size then if d[pos] = b then runAt d b (pos + 1) + 1 else 0 else 0
termination_by d.size - pos

/-- The written form of the bytes from a position on, run by run. -/
def encodeFrom (d : Dense) (pos : Nat) : Bytes :=
  if h : pos < d.size then
    let n := runAt d d[pos] (pos + 1) + 1
    encodeRun d[pos] n ++ encodeFrom d (pos + n)
  else []
termination_by d.size - pos

/-- The written form of some bytes, run by run. -/
def encode (d : Dense) : Bytes := encodeFrom d 0

/-- Reads on from a position, behind `out`.  The byte read last was `b`, and the last `run`
    bytes that can start or continue a run were equal to it. -/
def decodeFrom (d out : Dense) (b : UInt8) (run pos : Nat) : Option Dense :=
  if h : pos < d.size then
    let c := d[pos]
    if run = 4 then decodeFrom d (out ++ .replicate c.toNat b) b 0 (pos + 1)
    else decodeFrom d (out.push c) c (if c = b then run + 1 else 1) (pos + 1)
  else if run = 4 then none
  else some out
termination_by d.size - pos

/-- The bytes of a written form. -/
def decode (d : Dense) : Option Dense := decodeFrom d .empty 0 0 0

end BagFile.Bzip2.RunLength
