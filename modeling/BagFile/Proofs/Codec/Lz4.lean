/-
  An LZ4 frame gives back the text that was compressed.

  * `Lz4.exists_isWritten`: a piece is a length and a block, and the block is read as the piece,
    whether it was stored as it is or not;
  * `Lz4.readBlocks_eq` goes along the pieces up to the mark at the end;
  * `Lz4.decompress_compress` is the round trip of a whole frame.
-/
import BagFile.Codec.Lz4
import BagFile.Proofs.Codec.Sequences

namespace BagFile.Lz4

/-- What the header says of the frames written here. -/
def written : Descriptor where
  independent := true
  blockChecksums := false
  contentChecksum := false
  contentSize := none
  blockMax := pieceSize

/-! ## Pieces -/

/-- A piece is written as a length field and a block. -/
structure IsWritten (piece : Dense) (field : Nat) (block : Dense) : Prop where
  encode : encodePiece piece = .ofNat 4 field ++ block
  field_lt : field < 256 ^ 4
  field_ne : field ≠ 0
  size : field % 2 ^ 31 = block.size
  size_le : block.size ≤ pieceSize
  read : 2 ^ 31 ≤ field ∧ block = piece ∨ field < 2 ^ 31 ∧ ∀ out : Dense,
    Block.decode out.size (out.size + pieceSize) out block = some (out ++ piece)

theorem exists_isWritten {piece : Dense} (hsize : piece.size ≤ pieceSize) :
    ∃ field block, IsWritten piece field block := by
  have hmax : pieceSize = 65536 := rfl
  by_cases hpacked : (Block.split piece).encode.size < piece.size
  · have hpos := (Block.split piece).length_lt_size
    refine ⟨(Block.split piece).encode.size, (Block.split piece).encode, ?_, by omega, by omega,
      by omega, by omega, Or.inr ⟨by omega, ?_⟩⟩
    · rw [encodePiece, if_pos hpacked]
    · intro out
      exact Block.decode_encode (Block.split_isOf piece) (by omega)
  · refine ⟨2 ^ 31 + piece.size, piece, ?_, by omega, by omega, by omega, hsize,
      Or.inl ⟨Nat.le_add_right _ _, rfl⟩⟩
    rw [encodePiece, if_neg hpacked]

theorem length_encodePiece_pos (piece : Dense) : 0 < (encodePiece piece).bytes.length := by
  have hfield : ∀ (n : Nat) (block : Dense), 0 < (Dense.bytes (.ofNat 4 n ++ block)).length := by
    intro n block
    rw [Dense.bytes_append, List.length_append, Dense.bytes_ofNat, Bytes.length_ofNat]
    exact Nat.add_pos_left (by decide) _
  rw [encodePiece]
  split
  · exact hfield _ _
  · exact hfield _ _

/-! ## Blocks -/

section Blocks

variable {frame : Dense} {pos : Nat}

/-- The mark at the end. -/
theorem readBlocks_end (h : frame.bytes.drop pos = Bytes.zeros 4) (w : Window) (out : Dense)
    (count : Nat) : readBlocks written frame w out pos (count + 1) = some out := by
  have hsize := Dense.size_of_drop_eq h (List.cons_ne_nil _ _)
  rw [Bytes.zeros, List.length_replicate] at hsize
  have hfield : frame.natAt pos 4 = 0 :=
    Dense.natAt_of_drop_eq (h.trans (List.append_nil _).symm) (by decide)
  rw [readBlocks, if_neg (by omega)]
  dsimp only
  rw [if_pos hfield]
  rfl

/-- One piece. -/
theorem readBlocks_piece {piece : Dense} {rest : Bytes} (out : Dense) (hpos : 0 < piece.size)
    (hsize : piece.size ≤ pieceSize)
    (h : frame.bytes.drop pos = (encodePiece piece).bytes ++ rest) (w : Window) (count : Nat) :
    ∃ w', readBlocks written frame w out pos (count + 1) =
      readBlocks written frame w' (out ++ piece) (pos + (encodePiece piece).size) count := by
  obtain ⟨field, block, hwritten⟩ := exists_isWritten hsize
  have hbytes : (encodePiece piece).bytes = Bytes.ofNat 4 field ++ block.bytes := by
    rw [hwritten.encode, Dense.bytes_append, Dense.bytes_ofNat]
  have hlength : (encodePiece piece).size = 4 + block.size := by
    rw [← Dense.length_bytes, hbytes, List.length_append, Bytes.length_ofNat, Dense.length_bytes]
  rw [hbytes, List.append_assoc] at h
  have hfield := Dense.natAt_of_drop_eq h hwritten.field_lt
  have hblock := Dense.slice_of_drop_eq (drop_add_of_drop_eq h)
  rw [Bytes.length_ofNat] at hblock
  have hframe := Dense.size_of_drop_eq h (List.cons_ne_nil _ _)
  simp only [List.length_append, Bytes.length_ofNat, Dense.length_bytes] at hframe
  have hgrown : (out ++ piece).size - out.size = piece.size := by
    rw [ByteArray.size_append, Nat.add_sub_cancel_left]
  have hle : ¬ (written.blockMax < block.size ∨ frame.size < pos + 4 + block.size) := by
    have hle := hwritten.size_le
    show ¬ (pieceSize < block.size ∨ _)
    omega
  have hchecksum : readChecksum written.blockChecksums block frame (pos + 4 + block.size) =
      some (pos + (encodePiece piece).size) := by
    rw [hlength, ← Nat.add_assoc]
    rfl
  refine ⟨(w.turn pieceSize).add piece.size, ?_⟩
  rw [readBlocks, if_neg (by omega), hfield]
  dsimp only
  rw [if_neg hwritten.field_ne, hwritten.size, if_neg hle, hblock, hchecksum, Option.bind_eq_bind,
    Option.bind_some]
  obtain ⟨hstored, rfl⟩ | ⟨hpacked, hread⟩ := hwritten.read
  · rw [if_pos hstored, Option.bind_eq_bind, Option.bind_some, if_neg (by omega), hgrown]
    rfl
  · have hindependent : written.independent = true := rfl
    have hread : Block.decode out.size (out.size + written.blockMax) out block =
        some (out ++ piece) := hread out
    rw [if_neg (Nat.not_le_of_lt hpacked), if_pos hindependent, hread, Option.bind_eq_bind,
      Option.bind_some, if_neg (by omega), hgrown]
    rfl

end Blocks

theorem readBlocks_eq {frame : Dense} {pieces : List Dense}
    (hpieces : ∀ piece ∈ pieces, 0 < piece.size ∧ piece.size ≤ pieceSize) (out : Dense) {pos : Nat}
    (hframe : frame.bytes.drop pos =
      (pieces.map encodePiece).flatMap Dense.bytes ++ Bytes.zeros 4)
    (w : Window) {count : Nat} (hcount : pieces.length < count) :
    readBlocks written frame w out pos count = some (pieces.foldl (· ++ ·) out) := by
  induction pieces generalizing out pos w count with
  | nil =>
    obtain ⟨count, rfl⟩ := Nat.exists_eq_add_one.2 hcount
    exact readBlocks_end hframe w out count
  | cons piece pieces ih =>
    obtain ⟨count, rfl⟩ := Nat.exists_eq_add_one.2 (Nat.zero_lt_of_lt hcount)
    obtain ⟨⟨hpos, hsize⟩, hpieces⟩ := List.forall_mem_cons.1 hpieces
    rw [List.map_cons, List.flatMap_cons, List.append_assoc] at hframe
    obtain ⟨w', hstep⟩ := readBlocks_piece out hpos hsize hframe w count
    have hrest := drop_add_of_drop_eq hframe
    rw [Dense.length_bytes] at hrest
    rw [hstep]
    exact ih hpieces _ hrest w' (Nat.lt_of_succ_lt_succ hcount)

/-! ## Frames -/

/-- The bytes of a frame. -/
theorem bytes_compress (d : Dense) : (compress d).bytes = magic.bytes ++
    (header.bytes ++ ([Descriptor.checksum header] ++
      (((d.pieces pieceSize).map encodePiece).flatMap Dense.bytes ++ Bytes.zeros 4))) := by
  rw [compress, Dense.bytes_join, List.flatMap_append, List.flatMap_cons, List.flatMap_cons,
    List.flatMap_singleton, Dense.bytes_push, Dense.bytes_zeros]
  simp only [List.append_assoc]

theorem size_magic : magic.size = 4 := Dense.size_ofBytes _

theorem size_header : header.size = 2 := Dense.size_ofBytes _

/-- The header is read. -/
theorem read_header {frame : Dense} {rest : Bytes} (h : frame.bytes.drop 4 =
    header.bytes ++ ([Descriptor.checksum header] ++ rest)) :
    Descriptor.read frame 4 = some (written, 7) := by
  have hextract := Dense.slice_of_drop_eq h
  rw [size_header] at hextract
  have hbytes : header.bytes = [0x60, 0x40] := Dense.bytes_ofBytes _
  rw [hbytes] at h
  have hsize := Dense.size_of_drop_eq h (List.cons_ne_nil _ _)
  simp only [List.length_append, List.length_cons, List.length_nil] at hsize
  have hat : ∀ {i : Nat} {b : UInt8}, (frame.bytes.drop 4)[i]? = some b →
      frame.byteAt (4 + i) = b := by
    intro i b hi
    rw [List.getElem?_drop] at hi
    exact Dense.byteAt_eq hi
  rw [h] at hat
  have hflags : frame.byteAt 4 = 0x60 := hat (i := 0) rfl
  have hsizes : frame.byteAt (4 + 1) = 0x40 := hat (i := 1) rfl
  have hchecksum : frame.byteAt 6 = Descriptor.checksum header := hat (i := 2) rfl
  have hsized : ¬ (0x60 : UInt8) &&& 0x08 ≠ 0 := by decide
  unfold Descriptor.read
  rw [hflags, hsizes]
  dsimp only
  rw [if_neg hsized, if_neg hsized, if_pos]
  · rfl
  · refine ⟨by omega, by decide, by decide, by decide, by decide, ?_⟩
    exact hchecksum.trans (congrArg Descriptor.checksum hextract.symm)

/-- **An LZ4 frame** gives back the text. -/
theorem decompress_compress (d : Dense) : decompress (compress d) = some d := by
  have hbytes := List.drop_zero.trans (bytes_compress d)
  have hmagic := Dense.slice_of_drop_eq hbytes
  have hheader := drop_add_of_drop_eq hbytes
  rw [size_magic] at hmagic
  rw [Dense.length_bytes, size_magic] at hheader
  have hblocks := drop_add_of_drop_eq (drop_add_of_drop_eq hheader)
  rw [Dense.length_bytes, size_header] at hblocks
  have hsize := Dense.size_of_drop_eq hheader (List.cons_ne_nil _ _)
  rw [List.flatMap_map] at hsize
  simp only [List.length_append, Dense.length_bytes, size_header] at hsize
  have hcount : (d.pieces pieceSize).length < (compress d).size + 1 := by
    have hpieces := length_le_flatMap length_encodePiece_pos (d.pieces pieceSize)
    omega
  have hread := readBlocks_eq (fun piece => Dense.size_of_mem_pieces (by decide)) .empty hblocks
    .empty hcount
  have htext : (d.pieces pieceSize).foldl (· ++ ·) .empty = d :=
    Dense.join_eq (Dense.flatMap_pieces (by decide) d)
  rw [htext] at hread
  unfold decompress
  rw [if_neg (by omega), if_neg (by omega), if_pos hmagic, read_header hheader,
    Option.bind_eq_bind, Option.bind_some]
  exact hread

end BagFile.Lz4
