/-
  Every codec gives back what it stored.

  * `Codec.supported_round_trip`: each compression that is understood has a codec, which stores
    all bytes and gives them back, whatever size a reader expects, if the formats of the library
    are faithful; `Codec.lossless` says the same as the recordings ask for it;
  * `Formats.faithful_bzip2` and `Formats.faithful_lz4`: those that the program runs with are.
-/
import BagFile.Proofs.Codec.Bzip2
import BagFile.Proofs.Codec.Faithful
import BagFile.Proofs.Codec.Lz4
import BagFile.Proofs.Locating

namespace BagFile.Codec

/-! ## The formats that the program runs with -/

theorem Formats.faithful_bzip2 : Formats.bzip2.Faithful :=
  Format.faithful_inMemory Bzip2.decompress_compress

theorem Formats.faithful_lz4 : Formats.lz4.Faithful :=
  Format.faithful_inMemory Lz4.decompress_compress

/-! ## Codecs -/

/-- A faithful format gives back what it stored, whatever it is called. -/
theorem refuse_unpack {f : Format} (hf : f.Faithful) (name : String) {d stored : Dense}
    (h : written (f.pack d) = .ok stored) (hint : Nat) :
    refuse name (f.unpack stored hint) = .ok d := by
  obtain ⟨stored', hpack⟩ := f.exists_pack d
  obtain rfl : stored' = stored := by
    rw [hpack] at h
    exact Except.ok.inj h
  rw [hf.unpack_eq hpack]
  rfl

section
variable [Formats]

theorem decompress_of_store (hbzip2 : Formats.bzip2.Faithful) (hlz4 : Formats.lz4.Faithful)
    {c : Codec} {d stored : Dense} (h : c.store d = .ok stored) (hint : Nat) :
    c.decompress stored hint = .ok d := by
  cases c with
  | plain => exact h.symm
  | bzip2 => exact refuse_unpack hbzip2 "bz2" h hint
  | lz4 => exact refuse_unpack hlz4 "lz4" h hint

/-- What is asked of a codec where messages are to be read back. -/
theorem lossless (hbzip2 : Formats.bzip2.Faithful) (hlz4 : Formats.lz4.Faithful) (c : Codec) :
    c.Lossless :=
  fun d hint _ => decompress_of_store hbzip2 hlz4 (c.store_eq d) hint

/-- The size that a reader expects is only advice. -/
theorem decompress_hint (hbzip2 : Formats.bzip2.Faithful) (hlz4 : Formats.lz4.Faithful)
    (c : Codec) (stored : Dense) (hint hint' : Nat) :
    c.decompress stored hint = c.decompress stored hint' := by
  cases c with
  | plain => rfl
  | bzip2 => exact congrArg (refuse "bz2") (hbzip2.unpack_hint stored hint hint')
  | lz4 => exact congrArg (refuse "lz4") (hlz4.unpack_hint stored hint hint')

end

/-- No bytes in the format of bzip2: the signature with the greatest block size, and the end mark
    with the checksum of nothing. -/
def emptyStream : Dense :=
  .ofBytes [0x42, 0x5A, 0x68, 0x39, 0x17, 0x72, 0x45, 0x38, 0x50, 0x90, 0, 0, 0, 0]

end BagFile.Codec
