/-
  The LZ4 frame format.

  * `Lz4.decompress` reads one frame and ignores what follows it.  A frame may stop short
    between blocks; one that stops elsewhere, or whose checksums or sizes are wrong, is
    refused;
  * `Lz4.compress` writes a frame of independent blocks, each stored as it is where that is
    shorter.
-/
import BagFile.Codec.Lz4.Block
import BagFile.Codec.XxHash

namespace BagFile.Lz4

/-! ## The frame header -/

/-- The bytes at the start of a frame. -/
def magic : Dense := .ofBytes [0x04, 0x22, 0x4D, 0x18]

/-- What the header of a frame says about its blocks. -/
structure Descriptor where
  /-- blocks do not refer to earlier ones -/
  independent : Bool
  blockChecksums : Bool
  contentChecksum : Bool
  contentSize : Option Nat
  /-- the most bytes of a block -/
  blockMax : Nat
  deriving DecidableEq

namespace Descriptor

/-- The checksum of the bytes of a header. -/
def checksum (d : Dense) : UInt8 := (XxHash.ofDense d >>> 8).toUInt8

/-- Reads a header from a position on, and gives the position behind it.  Its version, its
    reserved bits, its block size and its checksum must be right, and it must name no
    dictionary. -/
def read (frame : Dense) (pos : Nat) : Option (Descriptor × Nat) :=
  let flags := frame.byteAt pos
  let sizes := frame.byteAt (pos + 1)
  let code := sizes.toNat / 16
  let sized := flags &&& 0x08 ≠ 0
  let stop := pos + 2 + if sized then 8 else 0
  if stop < frame.size ∧ flags &&& 0xC0 = 0x40 ∧ flags &&& 0x03 = 0 ∧ sizes &&& 0x8F = 0 ∧
      4 ≤ code ∧ frame.byteAt stop = checksum (frame.extract pos stop) then
    some ({
      independent := flags &&& 0x20 ≠ 0
      blockChecksums := flags &&& 0x10 ≠ 0
      contentChecksum := flags &&& 0x04 ≠ 0
      contentSize := if sized then some (frame.natAt (pos + 2) 8) else none
      blockMax := 2 ^ (2 * code + 8) }, stop + 1)
  else none

end Descriptor

/-! ## Reading -/

/-- Reads a checksum from a position on, which must be that of `d`, if there is one; gives the
    position behind it. -/
def readChecksum (present : Bool) (d frame : Dense) (pos : Nat) : Option Nat :=
  if present then
    if pos + 4 ≤ frame.size ∧ frame.natAt pos 4 = (XxHash.ofDense d).toNat then some (pos + 4)
    else none
  else some pos

/-- Where the reader of linked blocks is in its buffer.  There is room for two blocks and the
    reach of a match; where one more block might not fit, the reader starts over at the front
    and keeps the bytes in reach where they are. -/
structure Window where
  /-- the bytes read since it last started over -/
  filled : Nat
  /-- the bytes in front of those that it kept then, or none if it never did -/
  room : Nat
  deriving DecidableEq

namespace Window

/-- The bytes that are kept. -/
def reach : Nat := 65536

/-- The window of an empty buffer. -/
def empty : Window := ⟨0, 0⟩

/-- Starts over if a block of the greatest length might not fit. -/
def turn (w : Window) (blockMax : Nat) : Window :=
  if blockMax + reach < w.filled then ⟨0, w.filled - reach⟩ else w

/-- The most bytes of the next block.  As long as bytes from before the last start are in
    reach, it may take all the room in front of them, which is more than `blockMax`. -/
def limit (w : Window) (blockMax : Nat) : Nat :=
  if 0 < w.room ∧ w.filled < reach then w.room else blockMax

/-- The window behind so many more bytes. -/
def add (w : Window) (count : Nat) : Window := { w with filled := w.filled + count }

end Window

/-- Reads at most so many blocks behind `out`, up to the end mark, an empty block, or the end
    of what can be read of a block's length. -/
def readBlocks (d : Descriptor) (frame : Dense) (w : Window) (out : Dense) (pos : Nat) :
    Nat → Option Dense
  | 0 => none
  | count + 1 =>
    if frame.size < pos + 4 then some out
    else
      let field := frame.natAt pos 4
      let size := field % 2 ^ 31
      let start := pos + 4
      if field = 0 then
        if d.contentSize.any (· ≠ out.size) then none
        else (readChecksum d.contentChecksum out frame start).map fun _ => out
      else if d.blockMax < size ∨ frame.size < start + size then none
      else do
        let block := frame.slice start size
        let pos ← readChecksum d.blockChecksums block frame (start + size)
        let before := out.size
        let w := w.turn d.blockMax
        let (floor, limit) :=
          if d.independent then (before, d.blockMax) else (0, w.limit d.blockMax)
        let out ←
          if 2 ^ 31 ≤ field then some (out ++ block)
          else Block.decode floor (before + limit) out block
        if out.size = before then some out
        else readBlocks d frame (w.add (out.size - before)) out pos count

/-- The text of the frame at the start of `d`.  No frame is an empty text, and so is one that
    ends with its four magic bytes. -/
def decompress (d : Dense) : Option Dense :=
  if d.size < 4 then if d.size = 0 then some .empty else none
  else if d.size = 4 then some .empty
  else if d.slice 0 4 = magic then do
    let (descriptor, pos) ← Descriptor.read d 4
    readBlocks descriptor d Window.empty .empty pos (d.size + 1)
  else none

/-! ## Writing -/

/-- The header of the frames written here: independent blocks of at most 64 KiB, and neither
    checksums nor a size. -/
def header : Dense := .ofBytes [0x60, 0x40]

/-- The most bytes of a block of the frames written here. -/
def pieceSize : Nat := 65536

/-- A piece with its length in front, stored as it is unless it gets shorter. -/
def encodePiece (piece : Dense) : Dense :=
  let packed := (Block.split piece).encode
  if packed.size < piece.size then .ofNat 4 packed.size ++ packed
  else .ofNat 4 (2 ^ 31 + piece.size) ++ piece

/-- The frame of a text. -/
def compress (d : Dense) : Dense :=
  .join (magic :: header.push (Descriptor.checksum header) ::
    (d.pieces pieceSize).map encodePiece ++ [.zeros 4])

end BagFile.Lz4
