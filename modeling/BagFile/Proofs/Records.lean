/-
  What a recorder's steps put on its tape.

  * `Fields.writes`, `Header.writes`, `Connection.writes`: a block through a reserved length is
    the block of `Fields.bytes`;
  * `Recorder.run_writeHeader`: the header record takes its fixed length wherever the tape
    stands, and is never too long for it;
  * `Recorder.writes_message`, `Recorder.run_writeChunk`, `Recorder.run_writeTables`: messages,
    chunks and tables come out as the blocks of an `Image`, or a length was too large.
-/
import BagFile.Recorder
import BagFile.Proofs.Image

namespace BagFile

open Tape

/-! ## Blocks -/

namespace Fields

theorem writes_entry (p : Nat) (e : String × Dense) :
    Writes p (writeEntry e) True ⟨⟩ [entryBytes e] := by
  have h := ((writes_word p (UInt32.ofNat (entryLength e))).bind (k := fun _ => _)
    ((writes_write _ (Text.encode e.1)).bind (k := fun _ => _)
      ((writes_word _ separator).bind (k := fun _ => _) (writes_write _ e.2)))).join
  refine (h.congr (by simp)).cast ?_
  rw [← bytes_encodeEntry, encodeEntry, Dense.bytes_append, Dense.bytes_push, Dense.bytes_append]
  simp only [List.singleton_append, List.flatten_cons, List.flatten_nil, List.append_assoc,
    List.append_nil]
  rfl

/-- **A block through a reserved length is the block with its length in front.** -/
theorem writes (p : Nat) (f : Fields) :
    Writes p f.write (f.bodyLength < 2 ^ 32) (UInt32.ofNat f.bodyLength) [f.bytes] := by
  have h := Writes.around_bind (k := fun _ length => pure length)
    (Writes.forM_join writes_entry f.entries (p + 4)) (Writes.pure _)
  have hbody : [f.entries.flatMap entryBytes].flatten = f.body := List.flatten_singleton
  rw [hbody, length_body] at h
  simp only [bind_pure] at h
  exact h.congr (by simp)

end Fields

namespace Header

variable {α : Type} [Header α]

theorem writes (p : Nat) (h : α) :
    Writes p (write h) (Fits h) (UInt32.ofNat (toFields h).bodyLength) [bytes h] :=
  Fields.writes p (toFields h)

end Header

theorem Connection.writes (p : Nat) (c : Connection) :
    Writes p c.write c.Fits ⟨⟩ c.blocks := by
  have h := (Header.writes p c.header).bind (k := fun _ => _)
    ((Fields.writes _ c.dataFields).map fun _ => PUnit.unit)
  exact h

/-! ## Tables -/

namespace Recorder

open StoredChunk

/-- Rows that are written part by part make the table. -/
theorem writes_table {α : Type} {parts : α → List Dense} {row : α → Bytes}
    (hrow : ∀ x, (parts x).flatMap Dense.bytes = row x) (p : Nat) (xs : List α) :
    Writes p (writeTable (xs.flatMap parts)) (Table.Fits row xs) ⟨⟩ [Table.bytes row xs] := by
  have h := Writes.around_bind (k := fun _ _ => pure PUnit.unit)
    (Writes.forM_join writes_write (xs.flatMap parts) (p + 4)) (Writes.pure PUnit.unit)
  have hrows : (xs.flatMap parts).flatMap Dense.bytes = xs.flatMap row := by
    rw [List.flatMap_assoc]
    exact List.flatMap_congr fun x _ => hrow x
  rw [List.flatten_singleton, hrows] at h
  exact h.congr (by simp [Table.Fits])

theorem writes_indexRecord (p : Nat) (x : UInt32 × List (Time × UInt32)) :
    Writes p (writeIndexRecord x) (Table.Fits Table.indexRow x.2) ⟨⟩
      (indexBlocks x) := by
  have h := (Header.writes p (indexHeader x)).bind (k := fun _ => _)
    (writes_table Table.bytes_indexParts _ x.2)
  have hfits : Header.Fits (indexHeader x) := by
    rw [Header.Fits, IndexHeader.bodyLength_toFields]
    decide
  exact h.congr (and_iff_right hfits)

/-- What the tables need to know about a chunk at a position. -/
def closedAt (x : Nat × StoredChunk) : ClosedChunk :=
  ⟨x.1, x.2.startTime, x.2.endTime, x.2.counts⟩

theorem writes_summary (p : Nat) (x : Nat × StoredChunk) :
    Writes p (writeSummary (closedAt x)) (Table.Fits Table.countRow x.2.counts) ⟨⟩
      (summaryBlocks x) := by
  have h := (Header.writes p (infoHeader x)).bind (k := fun _ => _)
    (writes_table Table.bytes_countParts _ x.2.counts)
  have hfits : Header.Fits (infoHeader x) := by
    rw [Header.Fits, ChunkInfoHeader.bodyLength_toFields]
    decide
  exact h.congr (and_iff_right hfits)

/-! ## Messages -/

theorem writes_record (p size : Nat) (m : RawMessage) :
    Writes p (do
      let offset := size + (← Tape.position)
      if 2 ^ 32 ≤ offset then throw (.writer .offsetTooLarge)
      let _ ← Header.write ({ conn := m.conn, time := m.time } : MessageHeader)
      let slot ← Slot.reserve
      Tape.write m.data
      let _ ← slot.commit
      return UInt32.ofNat offset) (size + p < 2 ^ 32 ∧ m.data.size < 2 ^ 32)
      (UInt32.ofNat (size + p)) [Header.bytes m.header, Bytes.sized m.data.bytes] := by
  have hfits : Header.Fits m.header := by
    rw [Header.Fits, MessageHeader.bodyLength_toFields]
    decide
  have hlimit : Error.IsLimit (.writer .offsetTooLarge) := trivial
  have hdata (p : Nat) := Writes.around_bind (k := fun _ _ => pure (UInt32.ofNat (size + p)))
    (writes_write (p + [Header.bytes m.header].flatten.length + 4) m.data) (Writes.pure _)
  refine ((writes_position p).bind (k := fun pos => _)
    (Q := ¬2 ^ 32 ≤ size + p ∧ m.data.size < 2 ^ 32) ?_).congr (by simp)
  refine Writes.refuse hlimit (((Header.writes _ m.header).bind (k := fun _ => _)
    (Q := m.data.size < 2 ^ 32) ?_).congr (by simp [hfits]))
  simp only [List.flatten_singleton, Dense.length_bytes] at hdata
  exact (hdata p).congr (by simp)

/-- **What a message adds to a chunk**: the record of its connection if that is due, then its
    own, whose offset is given. -/
theorem writes_message (p size : Nat) (n : Note) :
    Writes p (writeMessage size n.preface n.message.conn n.message.time n.message.data)
      (n.Fits (size + p)) (UInt32.ofNat (size + p + n.lead)) n.blocks := by
  obtain ⟨preface, m⟩ := n
  cases preface with
  | none =>
    unfold writeMessage
    refine (writes_record p size m).congr ⟨fun h => ⟨?_, h.1, h.2⟩, fun h => ⟨h.offset, h.data⟩⟩
    simp
  | some c =>
    have hfront : (⟨some c, m⟩ : Note).front = c.blocks := by simp [Note.front]
    have hoffset : size + p + (⟨some c, m⟩ : Note).lead = size + (p + c.blocks.flatten.length) := by
      rw [Note.lead, hfront, Nat.add_assoc]
    rw [hoffset, Note.blocks, hfront]
    unfold writeMessage
    refine ((Connection.writes p c).bind (k := fun _ => _) (writes_record _ size m)).congr
      ⟨fun h => ⟨?_, ?_, h.2.2⟩, fun h => ⟨h.preface c rfl, ?_, h.data⟩⟩
    · simpa using h.1
    · rw [hoffset]
      exact h.2.1
    · rw [← hoffset]
      exact h.offset

/-! ## The header of the file -/

theorem writes_padding (p n : Nat) :
    Writes p (do
      let slot ← Slot.reserve
      Tape.write (.replicate n Layout.padding)
      let _ ← slot.commit) (n < 2 ^ 32) ⟨⟩ [Bytes.sized (List.replicate n Layout.padding)] := by
  have h := Writes.around_bind (k := fun _ _ => pure PUnit.unit)
    (writes_write (p + 4) (.replicate n Layout.padding)) (Writes.pure PUnit.unit)
  rw [List.flatten_singleton, Dense.bytes_replicate, List.length_replicate] at h
  exact h.congr (by simp)

/-- Behind the header there is always room for the length of the padding. -/
theorem writes_headerBlocks (h : FileHeader) :
    Writes Layout.headerPos (do
      let _ ← Header.write h
      let used := (← Tape.position) - Layout.headerPos
      if Layout.headerLength < used + 4 then throw (.writer (.headerTooLong used))
      let slot ← Slot.reserve
      Tape.write (.replicate (Layout.headerLength - (used + 4)) Layout.padding)
      let _ ← slot.commit) True ⟨⟩ (Image.headerBlocks h) := by
  have hl := FileHeader.length_bytes h
  have hused : Layout.headerPos + [Header.bytes h].flatten.length - Layout.headerPos = 73 := by
    rw [List.flatten_singleton, hl, Nat.add_sub_cancel_left]
  have hfits : Header.Fits h := by
    rw [Header.Fits, FileHeader.bodyLength_toFields]
    decide
  have hroom : ¬Layout.headerLength < 73 + 4 := by decide
  have hpad : Layout.headerLength - (73 + 4) < 2 ^ 32 := by decide
  rw [Image.headerBlocks, hl]
  refine ((Header.writes _ h).bind (k := fun _ => _) ((writes_position _).bind (k := fun q => _)
    (Q := True) ?_)).congr (by simp [hfits])
  simp only [hused]
  rw [if_neg hroom]
  exact (writes_padding _ _).congr (iff_true_intro hpad)

/-- **The header record fits its fixed length**: it can always be written, wherever the tape
    stands, and takes the same place each time. -/
theorem run_writeHeader (h : FileHeader) {t : Tape} (ht : Layout.headerPos ≤ t.size) :
    ∃ t', (writeHeader h).run t = .ok ⟨⟩ t' ∧
      { t with pos := Layout.headerPos }.Puts (Image.headerBlocks h) t' := by
  rw [writeHeader, run_seek_bind]
  rcases writes_headerBlocks h { t with pos := Layout.headerPos } rfl ht with ⟨-, h⟩ | ⟨h, -⟩
  · exact h
  · exact absurd trivial h

/-! ## Chunks -/

/-- What is stored of a chunk. -/
def stored [Codec.Formats] (chunk : OpenChunk) : StoredChunk :=
  let times := chunk.rows.map fun row => row.2.1
  { compression := chunk.compression
    size := chunk.size
    stored := chunk.codec.compress chunk.contents
    startTime := (Index.earliest? times).getD Time.zero
    endTime := (Index.latest? times).getD Time.zero
    index := indexOf chunk.rows }

/-- The header of a chunk whose size is not known yet. -/
def openHeader (compression : Compression) : Bytes := Header.bytes (⟨compression, 0⟩ : ChunkHeader)

theorem length_openHeader (h : ChunkHeader) :
    (openHeader h.compression).length = (Header.bytes h).length := by
  rw [openHeader, Header.length_bytes, Header.length_bytes, ChunkHeader.bodyLength_toFields,
    ChunkHeader.bodyLength_toFields]

/-- **A header put in place of the one that was reserved moves nothing**: what follows goes on
    at the end of the tape. -/
theorem run_patchHeader {t : Tape} {A B : List Bytes} {h : ChunkHeader}
    (ht : t.Holds (A ++ [openHeader h.compression] ++ B)) (hfits : Header.Fits h)
    (k : Tape.Op Unit) :
    ∃ t', t'.Holds (A ++ [Header.bytes h] ++ B) ∧ t'.pos = t'.size ∧
      (do
        Tape.seek A.flatten.length
        let _ ← Header.write h
        if (← Tape.position) ≠ (A ++ [openHeader h.compression]).flatten.length then
          throw (.writer (.headerMoved A.flatten.length))
        Tape.seek t.size
        k : Tape.Op Unit).run t = k.run t' := by
  have hl := length_openHeader h
  have hle : A.flatten.length ≤ t.size := by
    rw [ht.size_eq, List.flatten_append, List.flatten_append, List.length_append,
      List.length_append]
    omega
  rcases Header.writes A.flatten.length h { t with pos := A.flatten.length } rfl hle with
    ⟨-, t', hrun, hputs⟩ | ⟨hn, -⟩
  · have hmoved : t'.pos = (A ++ [openHeader h.compression]).flatten.length := by
      rw [hputs.pos_eq, List.flatten_append, List.length_append, List.flatten_singleton,
        List.flatten_singleton, hl]
    have hholds := ht.patch (by simp [hl]) hputs
    have hsize : t.size = t'.size := by
      rw [ht.size_eq, hholds.size_eq]
      simp [hl]
    -- the header ends where it ended before, so the check passes
    refine ⟨{ t' with pos := t.size }, ⟨hholds.bytes_eq, hholds.within⟩, hsize, ?_⟩
    rw [run_seek_bind, EStateM.run_bind, hrun]
    simp only [run_position_bind]
    rw [if_neg (fun hn => hn hmoved)]
    rfl
  · exact absurd hfits hn

/-- **Closing a chunk** leaves its blocks on the tape, its index behind it, or a length was too
    large. -/
theorem run_writeChunk [Codec.Formats] {t : Tape} {A : List Bytes} {chunk : OpenChunk}
    (ht : t.Holds (A ++ [openHeader chunk.compression])) (hend : t.pos = t.size)
    (hpos : chunk.recordPos = A.flatten.length) (hheader : Header.Fits (stored chunk).header) :
    ((stored chunk).Fits ∧ ∃ t', (writeChunk chunk).run t = .ok ⟨⟩ t' ∧
        t'.Holds (A ++ (stored chunk).blocks) ∧ t'.pos = t'.size) ∨
      (¬(stored chunk).Fits ∧ ∃ e t', (writeChunk chunk).run t = .error e t' ∧ e.IsLimit) := by
  have hle : t.pos ≤ t.size := Nat.le_of_eq hend
  simp only [writeChunk, ofExcept_store, pure_bind]
  by_cases hsize : 2 ^ 32 ≤ chunk.size
  · rw [if_pos hsize]
    exact .inr ⟨fun hf => absurd hf.size (Nat.not_lt_of_le hsize), _, t, rfl, trivial⟩
  · rw [if_neg hsize, Slot.around_bind, EStateM.run_bind]
    rcases Writes.around (writes_write (t.pos + 4) (chunk.codec.compress chunk.contents)) t rfl hle
      with ⟨⟨-, hstored⟩, t₁, hrun, hputs⟩ | ⟨hf, e, t₁, hrun, he⟩
    · rw [List.flatten_singleton] at hputs hstored
      obtain ⟨hholds, hend₁⟩ := ht.extend hend hputs
      obtain ⟨t₂, hholds₂, hend₂, hrun₂⟩ := run_patchHeader (h := (stored chunk).header) hholds hheader
        ((indexOf chunk.rows).forM writeIndexRecord)
      have hslot : t.pos = (A ++ [openHeader (stored chunk).header.compression]).flatten.length := by
        rw [hend, ht.size_eq]
        rfl
      simp only [hrun, run_position_bind, hslot, hpos, hend₁]
      refine (Or.imp ?_ ?_) (Writes.forM writes_indexRecord (indexOf chunk.rows) t₂.pos t₂ rfl
        (Nat.le_of_eq hend₂))
      · rintro ⟨hindex, t₃, hrun₃, hputs₃⟩
        obtain ⟨hholds₃, hend₃⟩ := hholds₂.extend hend₂ hputs₃
        refine ⟨⟨hheader, Nat.lt_of_not_le hsize, ?_, hindex⟩, t₃, hrun₂.trans hrun₃, ?_, hend₃⟩
        · rwa [Dense.length_bytes] at hstored
        · refine cast (congrArg t₃.Holds ?_) hholds₃
          simp [blocks, stored]
      · rintro ⟨hindex, e, t₃, hrun₃, he⟩
        exact ⟨fun hf => hindex hf.index, e, t₃, hrun₂.trans hrun₃, he⟩
    · rw [hrun]
      refine .inr ⟨fun hf' => hf ⟨trivial, ?_⟩, e, t₁, rfl, he⟩
      rw [List.flatten_singleton, Dense.length_bytes]
      exact hf'.stored

/-! ## The end of a bag -/

theorem writes_tables (p : Nat) (x : Image) :
    Writes p (do
      x.connections.forM Connection.write
      ((Image.placed Layout.dataStart x.chunks).map closedAt).forM writeSummary)
      x.TablesFit ⟨⟩ x.tableBlocks := by
  have hforM : ((Image.placed Layout.dataStart x.chunks).map closedAt).forM writeSummary =
      (Image.placed Layout.dataStart x.chunks).forM (writeSummary ∘ closedAt) := List.forM_map
  rw [hforM]
  refine ((Writes.forM Connection.writes x.connections p).bind (k := fun _ => _)
    (Writes.forM writes_summary _ _)).congr ?_
  have hcounts : (∀ y ∈ Image.placed Layout.dataStart x.chunks,
      Table.Fits Table.countRow y.2.counts) ↔
        ∀ c ∈ x.chunks, Table.Fits Table.countRow c.counts := by
    conv_rhs => rw [← Image.map_snd_placed Layout.dataStart x.chunks]
    exact (List.forall_mem_map (P := fun c : StoredChunk =>
      Table.Fits Table.countRow c.counts)).symm
  rw [hcounts]
  exact ⟨fun h => ⟨h.1, h.2⟩, fun h => ⟨h.1, h.2⟩⟩

/-- **The tables behind the chunks, and the header with their position**: with them the tape
    holds the whole bag, or a table was too long. -/
theorem run_writeTables {t : Tape} {x : Image} {h : FileHeader}
    (ht : t.Holds (Image.preamble h ++ Image.chunkBlocks x.chunks)) :
    (x.TablesFit ∧ ∃ t', (writeTables x.connections
        ((Image.placed Layout.dataStart x.chunks).map closedAt)).run t = .ok x.header t' ∧
        t'.Holds x.blocks) ∨
      (¬x.TablesFit ∧ ∃ e t', (writeTables x.connections
        ((Image.placed Layout.dataStart x.chunks).map closedAt)).run t = .error e t' ∧
        e.IsLimit) := by
  have hsize : t.size = x.indexPos := by
    rw [ht.size_eq, List.flatten_append, List.length_append, Image.length_preamble]
    rfl
  have hheader : ({
      indexPos := UInt64.ofNat t.size
      connCount := UInt32.ofNat x.connections.length
      chunkCount := UInt32.ofNat ((Image.placed Layout.dataStart x.chunks).map closedAt).length }
        : FileHeader) = x.header := by
    rw [hsize, List.length_map, Image.length_placed]
    rfl
  unfold writeTables
  rw [run_toEnd_bind]
  simp only [hheader]
  rw [← bind_assoc, EStateM.run_bind]
  rcases writes_tables t.size x { t with pos := t.size } rfl (Nat.le_refl _) with
    ⟨hfits, t₁, hrun, hputs⟩ | ⟨hfits, e, t₁, hrun, he⟩
  · rw [hrun]
    obtain ⟨hholds, -⟩ := Holds.extend (t := { t with pos := t.size }) ⟨ht.bytes_eq, ht.within⟩
      rfl hputs
    have hplace : Layout.headerPos = [Layout.versionLine.bytes].flatten.length := by
      rw [List.flatten_singleton, Dense.length_bytes]
      decide
    have hle : Layout.headerPos ≤ t₁.size := by
      rw [hholds.size_eq, List.flatten_append, List.flatten_append, List.length_append,
        List.length_append, Image.length_preamble, Layout.dataStart]
      omega
    -- the header is put over the one that kept its place
    obtain ⟨t₂, hrun₂, hputs₂⟩ := run_writeHeader x.header hle
    refine .inl ⟨hfits, t₂, ?_, ?_⟩
    · simp only [EStateM.run_bind, hrun₂]
      rfl
    · rw [hplace] at hputs₂
      have hpatched := Holds.patch (B := Image.chunkBlocks x.chunks ++ x.tableBlocks)
        (cast (congrArg t₁.Holds (by simp [Image.preamble])) hholds)
        (Image.map_length_headerBlocks h x.header) hputs₂
      exact cast (congrArg t₂.Holds (by simp [Image.blocks, Image.preamble])) hpatched
  · rw [hrun]
    exact .inr ⟨hfits, e, t₁, rfl, he⟩

end Recorder

end BagFile
