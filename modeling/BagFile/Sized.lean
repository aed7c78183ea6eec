/-
  Length-prefixed blocks: four bytes of length, then that many bytes.

  * `Sized.encode` puts the length in front;
  * `Sized.decode` reads a block at the start of some bytes and says how many of them it took.
-/
import BagFile.Word

namespace BagFile.Sized

/-- A block: the length of `d`, then `d`. -/
def encode (d : Dense) : Dense := Word.encode (UInt32.ofNat d.size) ++ d

/-- The contents of the block at the start of `d`, and the bytes it takes with its length. -/
def decode (d : Dense) : Except Error (Dense × Nat) := do
  let len : UInt32 ← Word.decode d
  let size := 4 + len.toNat
  if d.size < size then .error (.truncated size d.size)
  else .ok (d.extract 4 size, size)

end BagFile.Sized
