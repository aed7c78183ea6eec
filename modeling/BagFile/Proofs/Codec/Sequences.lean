/-
  A block of LZ4 is read back as the text it stands for.

  * `Lz4.Block.readLength_eq` reads a length from its half of a token and the bytes behind it;
  * `Lz4.Block.bytes_encode`: a written block is a row of sequences and literals at the end, and
    `Lz4.Block.readsLiterals_of_drop_eq` reads such literals;
  * `Lz4.Block.decode_encode` is the round trip of a block, behind what has been read before.
-/
import BagFile.Proofs.Codec.Matches

namespace BagFile.Lz4.Block

/-! ## Lengths -/

section Lengths

variable {d : Dense} {pos : Nat} {rest : Bytes}

theorem readExtra_eq {k r : Nat} (hr : r < 255) (n : Nat)
    (h : d.bytes.drop pos = List.replicate k 255 ++ UInt8.ofNat r :: rest) :
    readExtra d n pos = some (n + 255 * k + r, pos + k + 1) := by
  induction k generalizing n pos with
  | zero =>
    obtain ⟨hpos, hbyte, -⟩ := Dense.of_drop_eq_cons h
    have hval : (UInt8.ofNat r).toNat = r := UInt8.toNat_ofNat_of_lt' (Nat.lt_succ_of_lt hr)
    have hne : UInt8.ofNat r ≠ 255 := by
      intro heq
      rw [heq] at hval
      exact absurd hval (Nat.ne_of_gt hr)
    rw [readExtra, dif_pos hpos, hbyte, if_neg hne, hval]
    rfl
  | succ k ih =>
    obtain ⟨hpos, hbyte, hrest⟩ := Dense.of_drop_eq_cons h
    rw [readExtra, dif_pos hpos, hbyte, if_pos rfl, ih _ hrest]
    congr 2 <;> omega

/-- A length is read from its half of a token and the bytes for the rest of it. -/
theorem readLength_eq {n : Nat} (h : d.bytes.drop pos = (encodeLength n).2.bytes ++ rest) :
    readLength d (encodeLength n).1 pos = some (n, pos + (encodeLength n).2.size) := by
  rw [encodeLength] at h ⊢
  by_cases hn : n < 15
  · rw [if_pos hn] at h ⊢
    rw [readLength, if_pos hn]
    rfl
  · rw [if_neg hn] at h ⊢
    dsimp only at h ⊢
    have hbytes : (encodeExtra (n - 15)).bytes =
        List.replicate ((n - 15) / 255) 255 ++ [UInt8.ofNat ((n - 15) % 255)] := by
      rw [encodeExtra, Dense.bytes_push, Dense.bytes_replicate]
    have hsize : (encodeExtra (n - 15)).size = (n - 15) / 255 + 1 := by
      rw [← Dense.length_bytes, hbytes]
      simp
    rw [hbytes, List.append_assoc] at h
    rw [readLength, if_neg (by decide), readExtra_eq (Nat.mod_lt _ (by decide)) 15 h, hsize]
    congr 2
    omega

theorem encodeLength_lt (n : Nat) : (encodeLength n).1 < 16 := by
  rw [encodeLength]
  split
  · next h => exact Nat.lt_succ_of_lt h
  · exact Nat.lt_succ_self 15

end Lengths

/-! ## Literals -/

/-- Some literals with a token, whose low half is `low`, and their length in front. -/
def literalBytes (low : Nat) (literals : Dense) : Bytes :=
  Bytes.ofNat 1 (16 * (encodeLength literals.size).1 + low) ++
    ((encodeLength literals.size).2.bytes ++ literals.bytes)

theorem length_literalBytes_pos (low : Nat) (literals : Dense) :
    0 < (literalBytes low literals).length := List.length_pos_of_ne_nil (List.cons_ne_nil _ _)

/-- The bytes of a sequence. -/
def sequenceBytes (s : Sequence) : Bytes :=
  literalBytes (encodeLength (s.length - minMatch)).1 s.literals ++
    (Bytes.ofNat 2 s.offset ++ (encodeLength (s.length - minMatch)).2.bytes)

theorem bytes_encodeSequence (s : Sequence) : (encodeSequence s).bytes = sequenceBytes s := by
  rw [encodeSequence, Dense.bytes_join, sequenceBytes, literalBytes]
  simp [Dense.bytes_ofNat]

/-- A written block is a row of sequences, and literals at the end. -/
theorem bytes_encode (b : Block) :
    b.encode.bytes = b.sequences.flatMap sequenceBytes ++ literalBytes 0 b.last := by
  have hsequences : (b.sequences.map encodeSequence).flatMap Dense.bytes =
      b.sequences.flatMap sequenceBytes := by
    simp only [List.flatMap_map, bytes_encodeSequence]
  rw [encode, Dense.bytes_join, List.flatMap_append, hsequences, literalBytes]
  simp [Dense.bytes_ofNat]

/-- The literals from a position on are read, and stand at `start`; the low half of the token is
    that of a match. -/
structure ReadsLiterals (block : Dense) (pos low : Nat) (literals : Dense) (start : Nat) :
    Prop where
  pos_lt : pos < block.size
  low_eq : block[pos].toNat % 16 = low
  length : readLength block (block[pos].toNat / 16) (pos + 1) = some (literals.size, start)
  slice : block.slice start literals.size = literals

/-- Literals are read where they were written. -/
theorem readsLiterals_of_drop_eq {block literals : Dense} {pos low : Nat} {rest : Bytes}
    (hlow : low < 16) (h : block.bytes.drop pos = literalBytes low literals ++ rest) :
    ∃ start, ReadsLiterals block pos low literals start ∧
      start + literals.size = pos + (literalBytes low literals).length := by
  have hhigh := encodeLength_lt literals.size
  have hlength : (literalBytes low literals).length =
      1 + (encodeLength literals.size).2.size + literals.size := by
    simp [literalBytes, Dense.length_bytes, Nat.add_assoc]
  rw [literalBytes, List.append_assoc, List.append_assoc] at h
  obtain ⟨hpos, hbyte, hrest⟩ := Dense.of_drop_eq_cons h
  change _ = (encodeLength literals.size).2.bytes ++ (literals.bytes ++ rest) at hrest
  have hsmall : 16 * (encodeLength literals.size).1 + low < 256 := by omega
  have htoken : block[pos].toNat = 16 * (encodeLength literals.size).1 + low := by
    rw [hbyte, Nat.mod_eq_of_lt hsmall]
    exact UInt8.toNat_ofNat_of_lt' hsmall
  have hhalf : block[pos].toNat / 16 = (encodeLength literals.size).1 := by omega
  have hliterals := drop_add_of_drop_eq hrest
  rw [Dense.length_bytes] at hliterals
  refine ⟨pos + 1 + (encodeLength literals.size).2.size, ⟨hpos, by omega, ?_, ?_⟩, by omega⟩
  · rw [hhalf, readLength_eq hrest]
  · exact Dense.slice_of_drop_eq hliterals

/-! ## Blocks -/

section Steps

variable {floor limit : Nat} {block out literals : Dense} {pos low start : Nat}

/-- The literals at the end of a block. -/
theorem decodeFrom_last (h : ReadsLiterals block pos low literals start)
    (hlimit : out.size + literals.size ≤ limit) (hend : block.size = start + literals.size)
    (count : Nat) :
    decodeFrom floor limit block out pos (count + 1) = some (out ++ literals) := by
  rw [decodeFrom, dif_pos h.pos_lt]
  simp only [h.length, Option.bind_eq_bind, Option.bind_some, h.slice]
  rw [if_neg (by rw [ByteArray.size_append]; omega), if_pos hend]

/-- One sequence of a block. -/
theorem decodeFrom_sequence {offset m : Nat} {rest : Bytes}
    (h : ReadsLiterals block pos (encodeLength m).1 literals start)
    (hblock : block.bytes.drop (start + literals.size) =
      Bytes.ofNat 2 offset ++ ((encodeLength m).2.bytes ++ rest))
    (hpos : 0 < offset) (hmax : offset ≤ maxOffset)
    (hfloor : floor + offset ≤ out.size + literals.size)
    (hlimit : out.size + literals.size + (m + minMatch) ≤ limit) (count : Nat) :
    decodeFrom floor limit block out pos (count + 1) =
      decodeFrom floor limit block (copyBack offset (out ++ literals) (m + minMatch))
        (start + literals.size + 2 + (encodeLength m).2.size) count := by
  have hsize := Dense.size_of_drop_eq hblock (by simp [Bytes.ofNat])
  simp only [List.length_append, Bytes.length_ofNat] at hsize
  have hoffset : block.natAt (start + literals.size) 2 = offset :=
    Dense.natAt_of_drop_eq hblock (Nat.lt_succ_of_le hmax)
  have hmatch := readLength_eq (drop_add_of_drop_eq hblock)
  rw [Bytes.length_ofNat] at hmatch
  have hsum : (out ++ literals).size = out.size + literals.size := ByteArray.size_append
  rw [decodeFrom, dif_pos h.pos_lt]
  simp only [h.length, Option.bind_eq_bind, Option.bind_some, h.slice]
  rw [if_neg (by omega), if_neg (by omega), if_neg (by omega)]
  simp only [hoffset, h.low_eq, hmatch, Option.bind_some]
  rw [if_neg (by omega)]

end Steps

/-- **The sequences of a block** are read as the text they stand for, behind what has been read
    before. -/
theorem decodeFrom_eq {text before block out : Dense} {limit : Nat} {ss : List Sequence}
    {start stop : Nat} (hspans : Spans text ss start stop) (hout : HasRead before text start out)
    (hlimit : before.size + text.size ≤ limit) {pos : Nat}
    (hblock : block.bytes.drop pos =
      ss.flatMap sequenceBytes ++ literalBytes 0 (text.extract stop text.size))
    {count : Nat} (hcount : ss.length < count) :
    decodeFrom before.size limit block out pos count = some (before ++ text) := by
  induction hspans generalizing out pos count with
  | nil start =>
    obtain ⟨count, rfl⟩ := Nat.exists_eq_add_one.2 hcount
    have hle := hout.le
    have hsize := hout.size_eq
    have hlast : (text.extract start text.size).size = text.size - start := by
      rw [ByteArray.size_extract, Nat.min_self]
    rw [List.flatMap_nil, List.nil_append] at hblock
    have hend := Dense.size_of_drop_eq hblock (List.cons_ne_nil _ _)
    rw [← List.append_nil (literalBytes _ _)] at hblock
    obtain ⟨first, hread, hfirst⟩ := readsLiterals_of_drop_eq (by decide) hblock
    rw [decodeFrom_last hread (by omega) (by omega), (hout.append hle (Nat.le_refl _)).all]
  | @cons s ss start here stop head tail ih =>
    obtain ⟨count, rfl⟩ := Nat.exists_eq_add_one.2 (Nat.zero_lt_of_lt hcount)
    have hsize := hout.size_eq
    have hliterals := head.size_literals
    obtain ⟨m, hm⟩ := Nat.exists_eq_add_of_le' head.length_ge
    rw [List.flatMap_cons, sequenceBytes, hm, Nat.add_sub_cancel, List.append_assoc,
      List.append_assoc, List.append_assoc] at hblock
    obtain ⟨first, hread, hfirst⟩ := readsLiterals_of_drop_eq (encodeLength_lt m) hblock
    have hbehind := drop_add_of_drop_eq hblock
    rw [← hfirst] at hbehind
    have hrest := drop_add_of_drop_eq (drop_add_of_drop_eq hbehind)
    rw [Bytes.length_ofNat, Dense.length_bytes] at hrest
    have hmin : minMatch = 4 := rfl
    have hstop := head.stop_le
    obtain ⟨hreach, -⟩ := head.agrees 0 (by omega)
    have hstep := decodeFrom_sequence hread hbehind head.offset_pos head.offset_le
      (show before.size + s.offset ≤ out.size + s.literals.size by omega)
      (show out.size + s.literals.size + (m + minMatch) ≤ limit by omega) count
    have hcopied := (hout.append head.start_le (by omega)).copyBack head
    rw [← head.literals] at hcopied
    rw [hstep, ← hm]
    exact ih hcopied hrest (Nat.lt_of_succ_lt_succ hcount)

/-- A block has fewer sequences than bytes. -/
theorem length_lt_size (b : Block) : b.sequences.length < b.encode.size := by
  have hsequence : ∀ s, 0 < (sequenceBytes s).length := by
    intro s
    rw [sequenceBytes, List.length_append]
    exact Nat.add_pos_left (length_literalBytes_pos _ _) _
  rw [← Dense.length_bytes, bytes_encode, List.length_append]
  exact Nat.lt_of_le_of_lt (length_le_flatMap hsequence _)
    (Nat.lt_add_of_pos_right (length_literalBytes_pos _ _))

/-- **A block** that stands for a text is read as the text, behind what has been read before. -/
theorem decode_encode {b : Block} {text before : Dense} {limit : Nat} (h : b.IsOf text)
    (hlimit : before.size + text.size ≤ limit) :
    decode before.size limit before b.encode = some (before ++ text) := by
  obtain ⟨stop, hspans, hlast⟩ := h
  refine decodeFrom_eq hspans (.zero before text) hlimit ?_ b.length_lt_size
  rw [List.drop_zero, bytes_encode, hlast]

end BagFile.Lz4.Block
