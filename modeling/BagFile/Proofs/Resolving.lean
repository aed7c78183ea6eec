/-
  An entry whose chunk is in the table is never at an unknown chunk.

  * `Error.Elsewhere`: an error that is not about a chunk missing from the table.  Whatever
    reads blocks, headers or the contents of chunks has such errors only;
  * `Fetcher.resolve_elsewhere`: so the message of an entry cannot fail for want of a chunk that
    is there, whatever the source is and whatever the fetcher remembers.
-/
import BagFile.Proofs.Fetching
import BagFile.Proofs.Spelling

namespace BagFile

/-- The errors that are not about a chunk missing from the table. -/
def Error.Elsewhere : Error → Prop
  | .unknownChunk _ => False
  | _ => True

/-! ## Blocks and headers -/

namespace Word

variable {α : Type} [Word α]

theorem decodeAt_elsewhere (d : Dense) (pos : Nat) :
    ErrsIn Error.Elsewhere (decodeAt d pos : Except Error α) :=
  ErrsIn.check (by trivial) (ErrsIn.ok _)

theorem decode_elsewhere (d : Dense) : ErrsIn Error.Elsewhere (decode d : Except Error α) :=
  decodeAt_elsewhere d 0

end Word

theorem Time.decode_elsewhere (d : Dense) : ErrsIn Error.Elsewhere (Time.decode d) := by
  refine (Word.decode_elsewhere d).bind fun secs => ?_
  exact (Word.decodeAt_elsewhere d 4).bind fun nsecs => ErrsIn.ok _

namespace Fields

theorem require_elsewhere (f : Fields) (name : String) :
    ErrsIn Error.Elsewhere (f.require name) := by
  unfold require
  split
  · exact ErrsIn.ok _
  · exact ErrsIn.error trivial

theorem requireWord_elsewhere {α : Type} [Word α] (f : Fields) (name : String) :
    ErrsIn Error.Elsewhere (f.requireWord name : Except Error α) :=
  (f.require_elsewhere name).bind fun v => Word.decode_elsewhere v

theorem requireTime_elsewhere (f : Fields) (name : String) :
    ErrsIn Error.Elsewhere (f.requireTime name) :=
  (f.require_elsewhere name).bind fun v => Time.decode_elsewhere v

theorem kind_elsewhere (f : Fields) : ErrsIn Error.Elsewhere f.kind := by
  refine (f.require_elsewhere kindName).bind fun v => ?_
  split
  · split
    · exact ErrsIn.ok _
    · exact ErrsIn.error trivial
  · exact ErrsIn.error trivial

theorem decode_elsewhere (body : Dense) : ErrsIn Error.Elsewhere (decode body) := by
  intro e he
  obtain ⟨fault, rfl⟩ := decode_malformed body e he
  trivial

end Fields

theorem MessageHeader.ofFields_elsewhere (f : Fields) :
    ErrsIn Error.Elsewhere (Header.ofFields f : Except Error MessageHeader) := by
  refine ErrsIn.bind ?_ fun _ => ?_
  · refine ErrsIn.bind ?_ fun _ => ?_
    · refine f.kind_elsewhere.bind fun actual => ?_
      exact ErrsIn.check (by trivial) (ErrsIn.ok _)
    · split
      · exact ErrsIn.error trivial
      · exact ErrsIn.ok _
  · refine (f.requireWord_elsewhere "conn").bind fun conn => ?_
    exact (f.requireTime_elsewhere "time").bind fun time => ErrsIn.ok _

/-! ## Streams -/

namespace Stream

theorem seek_elsewhere (pos : Nat) : FailsWith Error.Elsewhere (seek pos) := by
  intro s e s' h
  rw [EStateM.run, seek] at h
  split at h
  · cases h
    trivial
  · cases h

theorem readWord_elsewhere {α : Type} [Word α] : FailsWith Error.Elsewhere (readWord : Op α) := by
  intro s e s' h
  rw [EStateM.run, readWord] at h
  split at h
  · cases h
  · cases h
    trivial

theorem readBody_elsewhere (n : Nat) : FailsWith Error.Elsewhere (readBody n) := by
  intro s e s' h
  rw [EStateM.run, readBody] at h
  split at h
  · cases h
    trivial
  · cases h

theorem readSized_elsewhere : FailsWith Error.Elsewhere readSized :=
  readWord_elsewhere.bind fun _ => readBody_elsewhere _

end Stream

/-! ## Messages in chunks -/

namespace Cursor

theorem seek_elsewhere (pos : Nat) : FailsWith Error.Elsewhere (seek pos) := by
  intro c e c' h
  rw [EStateM.run, seek] at h
  split at h
  · cases h
    trivial
  · cases h

theorem skip_elsewhere (n : Nat) : FailsWith Error.Elsewhere (skip n) := by
  intro c e c' h
  rw [EStateM.run, skip] at h
  split at h
  · cases h
    trivial
  · cases h

theorem take_elsewhere (n : Nat) : FailsWith Error.Elsewhere (take n) := by
  refine FailsWith.onGet.bind fun c => ?_
  exact (skip_elsewhere n).bind fun _ => FailsWith.pure _

theorem readWord_elsewhere {α : Type} [Word α] : FailsWith Error.Elsewhere (readWord : Op α) :=
  (take_elsewhere _).bind fun d => FailsWith.ofExcept (Word.decode_elsewhere d)

theorem readSized_elsewhere : FailsWith Error.Elsewhere readSized :=
  readWord_elsewhere.bind fun _ => take_elsewhere _

theorem skipSized_elsewhere : FailsWith Error.Elsewhere skipSized :=
  readWord_elsewhere.bind fun _ => skip_elsewhere _

end Cursor

namespace RawMessage

theorem atCursor_elsewhere (records : Nat) : FailsWith Error.Elsewhere (atCursor records) := by
  induction records with
  | zero => exact FailsWith.throw (by trivial)
  | succ records ih =>
    have hblock : FailsWith Error.Elsewhere Fields.readCursor :=
      Cursor.readSized_elsewhere.bind fun body => FailsWith.ofExcept (Fields.decode_elsewhere body)
    refine hblock.bind fun block => ?_
    refine (FailsWith.ofExcept block.kind_elsewhere).bind fun kind => ?_
    split
    · exact Cursor.skipSized_elsewhere.bind fun _ => ih
    · refine (FailsWith.ofExcept (MessageHeader.ofFields_elsewhere block)).bind fun header => ?_
      exact Cursor.readSized_elsewhere.bind fun data => FailsWith.pure _
    · exact FailsWith.throw (by trivial)

theorem ofChunk_elsewhere (contents : Dense) (offset : Nat) :
    ErrsIn Error.Elsewhere (ofChunk contents offset) := by
  have hop : FailsWith Error.Elsewhere (do
      Cursor.seek offset
      atCursor (contents.size / 8 + 1) : Cursor.Op RawMessage) :=
    (Cursor.seek_elsewhere offset).bind fun _ => atCursor_elsewhere _
  unfold ofChunk
  simp only
  split
  · exact ErrsIn.ok _
  · next e c hrun => exact ErrsIn.error (hop _ _ _ hrun)

end RawMessage

/-! ## Contents of chunks -/

namespace Fetcher

theorem ofCompression_elsewhere (z : Compression) :
    ErrsIn Error.Elsewhere (Codec.ofCompression z) := by
  cases z with
  | other name => exact ErrsIn.error trivial
  | _ => exact ErrsIn.ok _

variable [Codec.Formats]

theorem decompress_elsewhere (codec : Codec) (stored : Dense) (hint : Nat) :
    ErrsIn Error.Elsewhere (codec.decompress stored hint) := by
  have hrefuse : ∀ name d, ErrsIn Error.Elsewhere (Codec.refuse name d) := by
    intro name d
    cases d with
    | none => exact ErrsIn.error trivial
    | some d => exact ErrsIn.ok d
  cases codec with
  | plain => exact ErrsIn.ok stored
  | bzip2 => exact hrefuse _ _
  | lz4 => exact hrefuse _ _

theorem load_elsewhere (source : Stream) (chunk : Chunk) :
    ErrsIn Error.Elsewhere (load source chunk) := by
  have hread : FailsWith Error.Elsewhere (do
      Stream.seek chunk.dataPos.toNat
      Stream.readSized : Stream.Op Dense) :=
    (Stream.seek_elsewhere _).bind fun _ => Stream.readSized_elsewhere
  refine (ofCompression_elsewhere chunk.compression).bind fun codec => ?_
  simp only
  split
  · next stored s hrun =>
    refine (decompress_elsewhere codec stored _).bind fun data => ?_
    exact ErrsIn.check (by trivial) (ErrsIn.ok _)
  · next e s hrun =>
    exact ErrsIn.error (hread _ _ _ hrun)

/-- **An entry whose chunk is in the table** is resolved or fails for another reason. -/
theorem resolve_elsewhere {chunks : List Chunk} (h : Chunk.Ordered chunks) {e : Entry}
    (he : ∃ c ∈ chunks, c.recordPos = e.chunkPos) (source : Stream) :
    FailsWith Error.Elsewhere (resolve source chunks e) := by
  obtain ⟨c, hc, hpos⟩ := he
  have hfind : ∃ d, Chunk.find chunks e.chunkPos = .ok d := by
    rw [Chunk.find_eq h]
    rcases hd : chunks.reverse.find? (·.recordPos = e.chunkPos) with - | d
    · have hnone := List.find?_eq_none.1 hd c (List.mem_reverse.2 hc)
      exact absurd (decide_eq_true hpos) hnone
    · exact ⟨d, by simp only [hd]⟩
  have hchunk : FailsWith Error.Elsewhere (chunkAt source chunks e.chunkPos) := by
    obtain ⟨d, hd⟩ := hfind
    refine FailsWith.onGet.bind fun f => ?_
    split
    · exact FailsWith.pure _
    · split
      · exact FailsWith.pure _
      · rw [hd]
        refine (FailsWith.ofExcept (ErrsIn.ok d)).bind fun chunk => ?_
        refine (FailsWith.ofExcept (load_elsewhere source chunk)).bind fun contents => ?_
        exact (FailsWith.onModify _).bind fun _ => FailsWith.pure _
  refine hchunk.bind fun chunk => ?_
  have hmessage : ErrsIn Error.Elsewhere (chunk.lookUp e.offset.toNat).1 := by
    rw [chunk.lookUp_fst]
    exact RawMessage.ofChunk_elsewhere _ _
  exact (FailsWith.onModify _).bind fun _ => FailsWith.ofExcept hmessage

end Fetcher

end BagFile
