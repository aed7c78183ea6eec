/-
  The codecs for chunk contents.

  * `Codec.ofCompression` finds the codec of a compression;
  * `Formats` are the compressed formats that a library offers, and all that is said of bags
    holds whatever they are;
  * `Codec.store` fails where a writer of the format does; as a writer into memory does not,
    there is a stored form of all bytes, `Codec.compress` (`Codec.store_eq`);
  * the size that a reader expects is only advice about memory.
-/
import BagFile.Codec.Format
import BagFile.Compression

namespace BagFile

/-- A way to store bytes. -/
inductive Codec where
  | plain
  | bzip2
  | lz4
  deriving DecidableEq

namespace Codec

/-- The codec of a compression, if it is understood. -/
def ofCompression : Compression → Except Error Codec
  | .none => .ok plain
  | .bz2 => .ok bzip2
  | .lz4 => .ok lz4
  | .other name => .error (.unsupportedCompression name)

/-- What was read, or an error that names the codec. -/
def refuse (name : String) : Option Dense → Except Error Dense
  | some d => .ok d
  | none => .error (.decompression name)

/-- What was written, or an error. -/
def written : Option Dense → Except Error Dense
  | some stored => .ok stored
  | none => .error .io

/-- The formats of a library. -/
class Formats where
  bzip2 : Format
  lz4 : Format

variable [Formats]

/-- Stores some bytes. -/
def store : Codec → Dense → Except Error Dense
  | plain, d => .ok d
  | bzip2, d => written (Formats.bzip2.pack d)
  | lz4, d => written (Formats.lz4.pack d)

/-- The bytes of a stored form; room for `hint` of them is set aside. -/
def decompress (c : Codec) (stored : Dense) (hint : Nat) : Except Error Dense :=
  match c with
  | plain => .ok stored
  | bzip2 => refuse "bz2" (Formats.bzip2.unpack stored hint)
  | lz4 => refuse "lz4" (Formats.lz4.unpack stored hint)

/-- The stored form of some bytes. -/
def compress (c : Codec) (d : Dense) : Dense := (c.store d).toOption.getD .empty

theorem store_eq (c : Codec) (d : Dense) : c.store d = .ok (c.compress d) := by
  have hwritten : ∀ f : Format, ∃ stored, written (f.pack d) = .ok stored := by
    intro f
    obtain ⟨stored, h⟩ := f.exists_pack d
    exact ⟨stored, by rw [h]; rfl⟩
  have hstore : ∃ stored, c.store d = .ok stored := by
    cases c with
    | plain => exact ⟨d, rfl⟩
    | bzip2 => exact hwritten Formats.bzip2
    | lz4 => exact hwritten Formats.lz4
  obtain ⟨stored, h⟩ := hstore
  rw [compress, h]
  rfl

end Codec

end BagFile
