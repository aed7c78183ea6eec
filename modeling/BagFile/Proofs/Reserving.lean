/-
  The place of the header is kept until the bag is finalized.

  * `Recorder.reservedFront` is what a file starts with until then, the header that says nothing
    yet; nothing but the header itself is written there (`Recorder.spares_writeTables`);
  * `Recorder.Reserved` is the invariant of a recording that is not finalized: its file starts
    with the header that says nothing yet, and its open chunk stands behind that header;
  * `Recorder.lasts_reserved`: it lasts through every call, whether that succeeds or fails;
    `Recorder.spares_finalize` is the step that may end the recording, and did not;
  * `Bag.load_reserved`: a file that starts like this is not opened.
-/
import BagFile.Proofs.Lasting
import BagFile.Proofs.Loading
import BagFile.Proofs.Shielding

namespace BagFile

open Tape

namespace Recorder

variable {α : Type} {n : Nat} {P : Tape → Prop}

/-- Of all that ends a bag only the last step, the header, is written in front; and that does not
    fail. -/
theorem spares_writeTables (hP : Shields n P) (hfront : Layout.headerPos ≤ n)
    (connections : List Connection) (chunks : List ClosedChunk) :
    Spares (Behind n P) (writeTables connections chunks) := by
  refine Spares.bind (upholds_toEnd hP) fun pos _ => ?_
  refine Spares.bind (Upholds.forM (Connection.upholds_write hP) connections) fun _ _ => ?_
  refine Spares.bind (Upholds.forM (upholds_writeSummary hP) chunks) fun _ _ => ?_
  intro t e t' hrun h
  obtain ⟨t₁, hheader, -⟩ := run_writeHeader _ (Nat.le_trans hfront (hP.le_size t h.kept))
  rw [EStateM.run_bind, hheader] at hrun
  cases hrun

/-! ## Recorders -/

/-- What a file starts with until the bag is finalized. -/
def reservedFront : Bytes := (Image.preamble FileHeader.placeholder).flatten

theorem length_reservedFront : reservedFront.length = Layout.dataStart := Image.length_preamble _

/-- A tape stands behind the place of the header, which is kept. -/
def Untouched : Tape → Prop := Behind reservedFront.length (Starts reservedFront)

theorem shields_reservedFront : Shields reservedFront.length (Starts reservedFront) :=
  shields_starts reservedFront

/-- A recording that is not finalized: everything that it may still write is behind the header. -/
structure Reserved (r : Recorder) : Prop where
  tape : Untouched r.tape
  unfinished : r.phase ≠ .finalized
  chunk : ∀ c ∈ r.phase.chunk?, reservedFront.length ≤ c.recordPos

variable {Q : α → Prop}

theorem Reserved.withTape {r : Recorder} {t : Tape} (h : r.Reserved)
    (ht : Untouched t) : Reserved { r with tape := t } :=
  ⟨ht, h.unfinished, h.chunk⟩

theorem spares_onTape {op : Tape.Op α} (h : Spares Untouched op) :
    Spares Reserved (onTape op) := by
  intro r e r' hrun hr
  rw [run_onTape] at hrun
  split at hrun
  · cases hrun
  · next e₁ t hop =>
    cases hrun
    exact hr.withTape (h _ _ _ hop hr.tape)

theorem upholds_onTape {op : Tape.Op α} (h : Upholds Untouched Q op) :
    Upholds Reserved Q (onTape op) := by
  refine ⟨fun r a r' hrun hr => ?_, spares_onTape h.spares⟩
  rw [run_onTape] at hrun
  split at hrun
  · next a₁ t hop =>
    cases hrun
    obtain ⟨ha, ht⟩ := h.gives _ _ _ hop hr.tape
    exact ⟨ha, hr.withTape ht⟩
  · cases hrun

theorem upholds_reserveChunk (z : Compression) (codec : Codec) :
    Upholds Reserved (fun _ => True) (reserveChunk z codec) := by
  refine (upholds_onTape (upholds_toEnd shields_reservedFront)).bind fun pos hpos => ?_
  refine (upholds_onTape (Header.upholds_write shields_reservedFront _)).bind fun _ _ => ?_
  refine Upholds.onModify fun r hr => ⟨hr.tape, ?_, ?_⟩
  · rintro ⟨⟩
  · rintro c ⟨⟩
    exact hpos

/-- A message is collected in memory, and its chunk stays where it is. -/
theorem upholds_appendTo {chunk : OpenChunk} (hchunk : reservedFront.length ≤ chunk.recordPos)
    (c : Connection) (conn : UInt32) (time : Time) (data : Dense) :
    Upholds Reserved (fun _ => True) (appendTo chunk c conn time data) := by
  refine Upholds.onGet.bind fun r hr => ?_
  simp only
  split
  · exact Upholds.throw _
  · refine Upholds.onSet ⟨hr.tape, ?_, ?_⟩
    · rintro ⟨⟩
    · rintro d ⟨⟩
      exact hchunk

theorem upholds_closeChunk [Codec.Formats] {chunk : OpenChunk}
    (hchunk : reservedFront.length ≤ chunk.recordPos) :
    Upholds Reserved (fun _ => True) (closeChunk chunk) := by
  refine (upholds_onTape (upholds_writeChunk shields_reservedFront hchunk)).bind fun _ _ => ?_
  refine Upholds.onModify fun r hr => ⟨hr.tape, ?_, ?_⟩
  · rintro ⟨⟩
  · rintro c ⟨⟩

/-- **The place of the header is kept** by every call, whether it succeeds, is refused or
    fails. -/
theorem lasts_reserved [Codec.Formats] : Lasts Reserved where
  failed r h := by
    refine ⟨h.tape, ?_, ?_⟩
    · rintro ⟨⟩
    · rintro c ⟨⟩
  connections r cs h := ⟨h.tape, h.unfinished, h.chunk⟩
  reserveChunk := upholds_reserveChunk
  appendTo r chunk h hchunk := upholds_appendTo (h.chunk chunk hchunk)
  closeChunk r chunk h hchunk := upholds_closeChunk (h.chunk chunk hchunk)

/-! ## The end of a bag -/

/-- **A bag that could not be finalized** has the place of its header kept as well. -/
theorem spares_finalize [Codec.Formats] : Spares Reserved finalize := by
  have htables : Spares Reserved (guarded (do
      let r ← get
      let header ← onTape (writeTables r.connections r.chunks)
      modify fun r => { r with phase := .finalized }
      return header : Op FileHeader)) := by
    refine lasts_reserved.spares_guarded (Spares.bind Upholds.onGet fun r _ => ?_)
    refine Spares.bind_total ?_ fun header r => ⟨header, _, rfl⟩
    refine spares_onTape (spares_writeTables shields_reservedFront ?_ _ _)
    rw [length_reservedFront]
    exact Nat.le_add_right _ _
  refine Spares.bind checks_checkWritable.upholds fun _ _ => ?_
  refine Spares.bind Upholds.onGet fun r _ => ?_
  split
  · exact Spares.bind lasts_reserved.endChunk fun _ _ => htables
  · exact htables

/-- Giving a recording up writes behind the header, if anything. -/
theorem Reserved.release {r : Recorder} (h : r.Reserved) : Untouched r.release := by
  unfold Recorder.release
  split
  · split
    · next slot t hrun => exact ((Slot.upholds_reserve shields_reservedFront).gives _ _ _ hrun h.tape).2
    · next e t hrun => exact (Slot.upholds_reserve shields_reservedFront).spares _ _ _ hrun h.tape
  · exact h.tape

/-- A recording starts with nothing but the place of its header. -/
theorem bytes_of_create [Codec.Formats] {settings : Settings} {r : Recorder}
    (h : create settings = .ok r) : r.tape.bytes = reservedFront := by
  have hfront : (Account.start settings).blocks.flatten = reservedFront := by
    simp [Account.blocks, Account.front, Account.start, Image.chunkBlocks, reservedFront]
  rw [(follows_of_create h).holds.bytes_eq, hfront]

/-- A recording starts with the place of its header kept. -/
theorem reserved_of_create [Codec.Formats] {settings : Settings} {r : Recorder}
    (h : create settings = .ok r) : r.Reserved := by
  have hf := follows_of_create h
  have hbytes := bytes_of_create h
  refine ⟨⟨hbytes ▸ List.prefix_refl _, ?_⟩, hf.unfinished, ?_⟩
  · rw [hf.atEnd, ← Tape.length_bytes, hbytes]
  · rw [hf.idle rfl]
    rintro c ⟨⟩

end Recorder

/-! ## Opening the file -/

/-- **A header that keeps its place is not taken for that of a bag**, whatever follows it. -/
theorem Bag.load_reserved {contents : Contents} (h : Recorder.reservedFront <+: contents.bytes)
    (path : String) (settings : Settings) :
    load path settings contents = .error (.unindexed 0) := by
  have hover : (Stream.ofFile contents).Over contents := ⟨rfl, rfl⟩
  have hp : (Image.preamble FileHeader.placeholder).flatten <+:
      Source.rest (Stream.ofFile contents) := by
    show _ <+: contents.bytes.drop 0
    rw [List.drop_zero]
    exact h
  have hbehind : ∀ s, (readBehind path settings FileHeader.placeholder).run s =
      .error (.unindexed 0) s := by
    intro s
    rw [readBehind, if_pos (by decide)]
    rfl
  unfold load
  rw [read_eq, EStateM.run_bind, reads_front FileHeader.placeholder hover rfl hp]
  simp only [hbehind]

end BagFile
