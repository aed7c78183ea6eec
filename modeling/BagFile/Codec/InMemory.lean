/-
  Formats whose bytes are all kept in memory.

  * `Format.inMemory` has one from a function for each direction: a writer collects what it
    takes, and a reader has read everything before it gives the first byte;
  * the formats that the program runs with are those of `Bzip2` and `Lz4`.
-/
import BagFile.Codec.Bzip2
import BagFile.Codec.Format
import BagFile.Codec.Lz4
import BagFile.Codec

namespace BagFile.Codec

/-- The format of two functions.  A reader has what is to be read, or nothing, and knows how
    much of it was given. -/
def Format.inMemory (compress : Dense → Dense) (decompress : Dense → Option Dense) : Format where
  Writer := Dense
  Reader := Option Dense × Nat
  writer := .empty
  write taken d := some (d.size, taken ++ d)
  finish taken := some (compress taken)
  reader stored := (decompress stored, 0)
  read
    | (none, _), _ => none
    | (some d, pos), n => some (d.extract pos (pos + n), (some d, pos + n))
  rest
    | (none, _) => 0
    | (some d, pos) => d.size - pos
  write_takes w d h := ⟨d.size - 1, w ++ d, by rw [Nat.sub_add_cancel h]⟩
  finish_gives w := ⟨compress w, rfl⟩
  rest_lt := by
    rintro ⟨_ | d, pos⟩ n piece r' h hpos
    · cases h
    · cases h
      rw [ByteArray.size_extract] at hpos
      show d.size - (pos + n) < d.size - pos
      omega

instance : Formats where
  bzip2 := .inMemory Bzip2.compress Bzip2.decompress
  lz4 := .inMemory Lz4.compress Lz4.decompress

end BagFile.Codec
