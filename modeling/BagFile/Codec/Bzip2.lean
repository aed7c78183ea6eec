/-
  The bzip2 file format.

  * `Bzip2.decompress` reads one stream and ignores what follows it; the checksums of the
    blocks and of the stream must be right;
  * `Bzip2.compress` writes the text in short pieces, a block for each.
-/
import BagFile.Codec.Bzip2.Block

namespace BagFile.Bzip2

/-! ## The frame of a stream -/

/-- The mark in front of a block. -/
def blockMark : Nat := 0x314159265359

/-- The mark at the end of a stream, in front of its checksum. -/
def endMark : Nat := 0x177245385090

/-- The bytes in front of the digit for the block size. -/
def signature : Dense := .ofBytes [0x42, 0x5A, 0x68]

/-- The checksum of a stream after one more block. -/
def combine (stream block : UInt32) : UInt32 := ((stream <<< 1) ||| (stream >>> 31)) ^^^ block

/-- A limit on the bytes of a block, for each unit of the block size. -/
def sizeUnit : Nat := 100000

/-! ## Reading -/

/-- Reads at most so many blocks and the end mark, and gives their texts behind `out`;
    `checksum` is that of the blocks before. -/
def readBlocks (limit : Nat) (out : Dense) (checksum : UInt32) : Nat → BitReader Dense
  | 0 => failure
  | blocks + 1 => do
    let mark ← BitReader.number 48
    if mark = blockMark then
      let (blockChecksum, text) ← Block.read limit
      readBlocks limit (out ++ text) (combine checksum blockChecksum) blocks
    else if mark = endMark then
      let stored ← BitReader.number 32
      BitReader.guard (UInt32.ofNat stored = checksum)
      return out
    else failure

/-- The text of the stream at the start of `d`.  It cannot have more blocks than bits. -/
def decompress (d : Dense) : Option Dense :=
  let digit := d.byteAt 3
  if d.slice 0 3 = signature ∧ 0x31 ≤ digit ∧ digit ≤ 0x39 then
    let limit := sizeUnit * (digit.toNat - 0x30)
    (readBlocks limit .empty 0 (8 * d.size) d).run' 32
  else none

/-! ## Writing -/

/-- How much of a text goes into one block, if its runs make it much shorter. -/
def pieceSize : Nat := 512

/-- How much is sorted at a time otherwise. -/
def sortSize : Nat := 128

/-- A text in pieces, none of which has a long form to be sorted. -/
def piecesOf (d : Dense) : List Dense :=
  (d.pieces pieceSize).flatMap fun piece =>
    if (RunLength.encode piece).length ≤ sortSize then [piece] else piece.pieces sortSize

/-- The stream of a text. -/
def compress (d : Dense) : Dense :=
  let texts := piecesOf d
  let checksum := texts.foldl (fun c text => combine c (Crc32.ofDense text)) 0
  let blocks := texts.foldl (fun p text =>
    (p.append (Bits.ofNat 48 blockMark)).append (Block.encode text)) Packed.empty
  let packed := (blocks.append (Bits.ofNat 48 endMark)).append (Bits.ofNat 32 checksum.toNat)
  signature.push 0x39 ++ packed.toDense

end BagFile.Bzip2
