/-
  A bzip2 stream gives back the text that was compressed.

  * `Bzip2.bytes_piecesOf`: the pieces that go into blocks are the text, and `Bzip2.IsPiece` says
    that none of them is empty or too long;
  * `Bzip2.reads_blocks` goes along the blocks, with the checksum of those before, up to the mark
    at the end;
  * `Bzip2.decompress_stream` reads a whole stream, and `Bzip2.decompress_compress` is the round
    trip.
-/
import BagFile.Codec.Bzip2
import BagFile.Proofs.Codec.Block

namespace BagFile

namespace Bzip2

open BitReader

/-! ## Pieces -/

/-- A text that goes into one block. -/
structure IsPiece (text : Dense) : Prop where
  size_pos : 0 < text.size
  length_le : (RunLength.encode text).length ≤ 900000

theorem isPiece_of_mem {n : Nat} (hn : 0 < n) (hle : n ≤ pieceSize) {d piece : Dense}
    (h : piece ∈ d.pieces n) : IsPiece piece := by
  obtain ⟨hpos, hsize⟩ := Dense.size_of_mem_pieces hn h
  refine ⟨hpos, (RunLength.length_encode piece).trans ?_⟩
  have hmax : pieceSize = 512 := rfl
  omega

theorem isPiece_of_mem_piecesOf {d text : Dense} (h : text ∈ piecesOf d) : IsPiece text := by
  obtain ⟨piece, hpiece, htext⟩ := List.mem_flatMap.1 h
  split at htext
  · rw [List.mem_singleton.1 htext]
    exact isPiece_of_mem (by decide) (Nat.le_refl _) hpiece
  · exact isPiece_of_mem (by decide) (by decide) htext

/-- The pieces are the text. -/
theorem bytes_piecesOf (d : Dense) : (piecesOf d).flatMap Dense.bytes = d.bytes := by
  have hpieces : ∀ piece : Dense, (if (RunLength.encode piece).length ≤ sortSize then [piece]
      else piece.pieces sortSize).flatMap Dense.bytes = piece.bytes := by
    intro piece
    split
    · rw [List.flatMap_singleton]
    · exact Dense.flatMap_pieces (by decide) piece
  rw [piecesOf, List.flatMap_assoc]
  simp only [hpieces]
  exact Dense.flatMap_pieces (by decide) d

/-! ## Blocks -/

/-- The bits of a block with the mark in front. -/
def blockBits (text : Dense) : List Bool := Bits.ofNat 48 blockMark ++ Block.encode text

/-- The bits behind the blocks. -/
def endBits (checksum : UInt32) : List Bool := Bits.ofNat 48 endMark ++ Bits.ofNat 32 checksum.toNat

/-- The checksum behind some texts. -/
def checksumOf (texts : List Dense) (checksum : UInt32) : UInt32 :=
  texts.foldl (fun c text => combine c (Crc32.ofDense text)) checksum

/-- **The blocks of a stream** are read up to its end. -/
theorem reads_blocks {texts : List Dense} (h : ∀ text ∈ texts, IsPiece text) (out : Dense)
    (checksum : UInt32) {blocks : Nat} (hblocks : texts.length < blocks) :
    Reads (readBlocks (sizeUnit * 9) out checksum blocks)
      (texts.flatMap blockBits ++ endBits (checksumOf texts checksum))
      (texts.foldl (· ++ ·) out) := by
  obtain ⟨blocks, rfl⟩ := Nat.exists_eq_add_one.2 (Nat.lt_of_le_of_lt (Nat.zero_le _) hblocks)
  induction texts generalizing out checksum blocks with
  | nil =>
    rw [List.flatMap_nil, List.nil_append, endBits, readBlocks]
    refine (reads_number (by decide)).bind ?_
    rw [if_neg (by decide), if_pos rfl]
    refine ((reads_number (UInt32.toNat_lt _)).bind ?_).cast (List.append_nil _)
    exact Reads.guard_bind (decide_eq_true UInt32.ofNat_toNat) (Reads.pure out)
  | cons text texts ih =>
    obtain ⟨htext, htexts⟩ := List.forall_mem_cons.1 h
    rw [List.length_cons] at hblocks
    obtain ⟨blocks, rfl⟩ := Nat.exists_eq_add_one.2 (show 0 < blocks by omega)
    have hrest := ih htexts (out ++ text) (combine checksum (Crc32.ofDense text)) blocks (by omega)
    have hblock := Block.reads_encode htext.size_pos htext.length_le (Nat.le_refl _)
    rw [List.flatMap_cons, blockBits, List.append_assoc, List.append_assoc, readBlocks]
    refine (reads_number (by decide)).bind ?_
    rw [if_pos rfl]
    exact hblock.bind hrest

/-- There are fewer blocks than bits. -/
theorem length_lt_bits (texts : List Dense) (checksum : UInt32) :
    texts.length < (texts.flatMap blockBits ++ endBits checksum).length := by
  have hblock : ∀ text : Dense, 0 < (blockBits text).length := by
    intro text
    rw [blockBits, List.length_append, Bits.length_ofNat]
    exact Nat.add_pos_left (by decide) _
  have hblocks := length_le_flatMap hblock texts
  rw [List.length_append, endBits, List.length_append, Bits.length_ofNat]
  omega

/-! ## Streams -/

/-- **A stream** is read as the texts of its blocks, in whatever pieces they are and whatever
    follows. -/
theorem decompress_stream {texts : List Dense} (h : ∀ text ∈ texts, IsPiece text)
    {d packed : Dense} (hd : d = signature.push 0x39 ++ packed)
    (hfront : texts.flatMap blockBits ++ endBits (checksumOf texts 0) <+: packed.bits) :
    decompress d = some (.join texts) := by
  have hbytes : d.bytes = [0x42, 0x5A, 0x68, 0x39] ++ packed.bytes := by
    rw [hd, Dense.bytes_append]
    rfl
  have hbits : d.bits.drop 32 = packed.bits := by
    rw [Dense.bits, hbytes, List.flatMap_append]
    rfl
  have hsignature : d.slice 0 3 = signature := by
    apply Dense.ext_bytes
    rw [Dense.bytes_slice, hbytes]
    rfl
  have hdigit : d.byteAt 3 = 0x39 := by
    apply Dense.byteAt_eq
    rw [hbytes]
    rfl
  have hcount : texts.length < 8 * d.size := by
    have hlt := length_lt_bits texts (checksumOf texts 0)
    have hle := hfront.length_le
    rw [← hbits, List.length_drop, Dense.length_bits] at hle
    omega
  have hread := reads_blocks h .empty 0 hcount d 32 (by rwa [hbits])
  have hlimit : sizeUnit * ((0x39 : UInt8).toNat - 0x30) = sizeUnit * 9 := rfl
  unfold decompress
  rw [hdigit, if_pos ⟨hsignature, by decide, by decide⟩, hlimit, StateT.run', hread]
  rfl

/-- The bits of the blocks, packed behind those before. -/
theorem bits_blocks (texts : List Dense) {p q : Packed} (h : p.Valid)
    (hq : texts.foldl (fun p text =>
      (p.append (Bits.ofNat 48 blockMark)).append (Block.encode text)) p = q) :
    q.Valid ∧ q.bits = p.bits ++ texts.flatMap blockBits := by
  induction texts generalizing p with
  | nil => exact hq ▸ ⟨h, (List.append_nil _).symm⟩
  | cons text texts ih =>
    rw [List.foldl_cons] at hq
    obtain ⟨hmark, hmarkBits⟩ := h.append (Bits.ofNat 48 blockMark)
    obtain ⟨hblock, hblockBits⟩ := hmark.append (Block.encode text)
    obtain ⟨hrest, hrestBits⟩ := ih hblock hq
    refine ⟨hrest, hrestBits.trans ?_⟩
    rw [hblockBits, hmarkBits, List.flatMap_cons, blockBits]
    simp only [List.append_assoc]

/-- **Compressing** a text and decompressing gives it back. -/
theorem decompress_compress (d : Dense) : decompress (compress d) = some d := by
  obtain ⟨hblocks, hblocksBits⟩ := bits_blocks (piecesOf d) Packed.valid_empty rfl
  obtain ⟨hmark, hmarkBits⟩ := hblocks.append (Bits.ofNat 48 endMark)
  obtain ⟨hpacked, hpackedBits⟩ :=
    hmark.append (Bits.ofNat 32 (checksumOf (piecesOf d) 0).toNat)
  have hfront := hpacked.toDense
  rw [hpackedBits, hmarkBits, hblocksBits, List.append_assoc] at hfront
  have hstream := decompress_stream (fun text => isPiece_of_mem_piecesOf) rfl hfront
  rw [Dense.join_eq (bytes_piecesOf d)] at hstream
  exact hstream

end Bzip2

end BagFile
