/-
  Records are read as they were written.

  * `Connection.reads`: a connection record, with or without its optional fields;
  * `Table.rows_eq`: the rows of a table, each read at its position, as in the index of a chunk
    (`Table.indexRows_eq`) and in its summary (`Table.countRows_eq`);
  * `RawMessage.ofChunk_eq`: the message whose record stands at an offset in the contents of a
    chunk.
-/
import BagFile.Proofs.FieldReading

namespace BagFile

/-! ## Connections -/

namespace Connection

theorem named_dataFields (c : Connection) :
    Fields.Named (c.dataFields.entries.map Prod.fst) := by
  obtain ⟨id, topic, original, type, md5, definition, callerId, latching⟩ := c
  rcases callerId with - | v <;> rcases latching with - | w
  · show Fields.Named ["topic", "type", "md5sum", "message_definition"]
    decide
  · show Fields.Named ["topic", "type", "md5sum", "message_definition", "latching"]
    decide
  · show Fields.Named ["topic", "type", "md5sum", "message_definition", "callerid"]
    decide
  · show Fields.Named ["topic", "type", "md5sum", "message_definition", "callerid", "latching"]
    decide

theorem get?_dataFields (c : Connection) :
    c.dataFields.get? "topic" = some (Text.encode c.topicOriginal) ∧
      c.dataFields.get? "type" = some (Text.encode c.typeName) ∧
      c.dataFields.get? "md5sum" = some (Text.encode c.md5sum) ∧
      c.dataFields.get? "message_definition" = some (Text.encode c.definition) ∧
      c.dataFields.get? "callerid" = c.callerId.map Text.encode ∧
      c.dataFields.get? "latching" = c.latching.map Text.encode := by
  obtain ⟨id, topic, original, type, md5, definition, callerId, latching⟩ := c
  rcases callerId with - | v <;> rcases latching with - | w <;>
    exact ⟨rfl, rfl, rfl, rfl, rfl, rfl⟩

theorem ofBlocks_eq {c : Connection}
    (h : Header.ofFields (Header.toFields c.header) = .ok c.header) :
    ofBlocks (Header.toFields c.header) c.dataFields = .ok c := by
  obtain ⟨htopic, htype, hmd5, hdefinition, hcaller, hlatching⟩ := c.get?_dataFields
  have hcomplete : required.find? (fun name => !c.dataFields.contains name) = none := by
    simp [required, Fields.contains, htopic, htype, hmd5, hdefinition]
  simp only [ofBlocks, h, hcomplete, Fields.requireText_eq htopic, Fields.requireText_eq htype,
    Fields.requireText_eq hmd5, Fields.requireText_eq hdefinition, Fields.optionalText_eq hcaller,
    Fields.optionalText_eq hlatching]
  rfl

/-- **A connection record is read as it was written.** -/
theorem reads (s : Stream) {c : Connection} (h : c.Fits) :
    Reads s read c.blocks.flatten c := by
  have hheader := ConnectionHeader.readable h.1
  have hexpect := (Fields.reads s hheader.named hheader.fits).bind
    (k := fun f => MonadExcept.ofExcept (f.expectKind .connection) >>= fun _ => pure f)
    (Reads.check hheader.expectKind (Reads.pure _ _))
  rw [List.append_nil] at hexpect
  have hdata := (Fields.reads (Source.move s (Header.bytes c.header).length) c.named_dataFields
    h.2).bind (k := fun f => MonadExcept.ofExcept (ofBlocks (Header.toFields c.header) f))
    (Reads.ofExcept _ (ofBlocks_eq hheader.ofFields))
  have hboth := hexpect.bind (k := fun outer => Fields.read >>= fun inner =>
    MonadExcept.ofExcept (ofBlocks outer inner)) hdata
  rw [List.append_nil] at hboth
  rw [blocks, List.flatten_cons, List.flatten_singleton]
  exact hboth

end Connection

/-! ## Tables -/

namespace Table

theorem wordAt_of_ahead {d : Dense} {pos : Nat} {a : UInt32}
    (h : (Word.encode a).bytes <+: d.bytes.drop pos) : wordAt d pos = a := by
  have := Word.decodeAt_of_ahead h
  rw [Word.decodeAt] at this
  split at this
  · cases this
  · exact Except.ok.inj this

/-- Words one after the other. -/
theorem wordAt_append {d : Dense} {pos : Nat} {a : UInt32} {bs : Bytes}
    (h : (Word.encode a).bytes ++ bs <+: d.bytes.drop pos) :
    wordAt d pos = a ∧ bs <+: d.bytes.drop (pos + 4) := by
  obtain ⟨after, hafter⟩ := h
  refine ⟨wordAt_of_ahead ⟨bs ++ after, by rw [← hafter, List.append_assoc]⟩, after, ?_⟩
  have hwidth : (Word.encode a).bytes.length = 4 := Word.length_encode a
  rw [← List.drop_drop, ← hafter, List.append_assoc, List.drop_left' hwidth]

/-- Rows of one width are read as they were written. -/
theorem rows_eq {α : Type} {g : α → Bytes} {w : Nat} {d : Dense} {row : Nat → α} {xs : List α}
    (hw : 0 < w) (hg : ∀ x, (g x).length = w) (hd : d.bytes = xs.flatMap g)
    (hrow : ∀ x pos, g x <+: d.bytes.drop pos → row pos = x) : rows w d row = xs := by
  have hsize : d.size / w = xs.length := by
    have hl : d.size = w * xs.length := by
      rw [← Dense.length_bytes, hd, List.length_flatMap]
      simp [hg, Nat.mul_comm]
    rw [hl, Nat.mul_div_cancel_left _ hw]
  rw [rows, hsize]
  refine List.ext_getElem (by simp) fun i h₁ h₂ => ?_
  rw [List.getElem_map, List.getElem_range]
  refine hrow _ _ ?_
  rw [hd, drop_flatMap hg, List.drop_eq_getElem_cons h₂, List.flatMap_cons]
  exact List.prefix_append _ _

theorem length_indexRow (r : Time × UInt32) : (indexRow r).length = indexWidth := by
  simp only [indexRow, List.length_append, Bytes.length_ofNat]
  rfl

theorem length_countRow (n : ConnectionCount) : (countRow n).length = countWidth := by
  simp only [countRow, List.length_append, Bytes.length_ofNat]
  rfl

/-- How many bytes rows of one width take. -/
theorem length_rows {α : Type} {row : α → Bytes} {w : Nat} (hw : ∀ x, (row x).length = w)
    (xs : List α) : (xs.flatMap row).length = xs.length * w := by
  rw [List.length_flatMap]
  simp [hw]

/-- The block of a table with rows of one width, and what its header counts. -/
theorem exists_block {α : Type} {row : α → Bytes} {w : Nat} (hpos : 0 < w)
    (hw : ∀ x, (row x).length = w) {xs : List α} (hfits : Fits row xs) :
    ∃ d : Dense, d.bytes = xs.flatMap row ∧ d.size < 2 ^ 32 ∧
      d.size = (UInt32.ofNat xs.length).toNat * w ∧ bytes row xs = Bytes.sized d.bytes := by
  have hbytes := Dense.bytes_ofBytes (xs.flatMap row)
  have hsize : (Dense.ofBytes (xs.flatMap row)).size = xs.length * w := by
    rw [← Dense.length_bytes, hbytes, length_rows hw]
  have hlt : xs.length * w < 2 ^ 32 := by
    rw [← length_rows hw]
    exact hfits
  have hcount : (UInt32.ofNat xs.length).toNat = xs.length :=
    UInt32.toNat_ofNat_of_lt' (Nat.lt_of_le_of_lt (Nat.le_mul_of_pos_right _ hpos) hlt)
  exact ⟨_, hbytes, hsize ▸ hlt, by rw [hsize, hcount], by rw [hbytes, bytes]⟩

/-- The rows of an index record are read as they were written. -/
theorem indexRows_eq {rows : List (Time × UInt32)} {d : Dense}
    (hd : d.bytes = rows.flatMap indexRow) : indexRows d = rows := by
  refine rows_eq (by decide) length_indexRow hd fun r pos hp => ?_
  obtain ⟨⟨secs, nsecs⟩, offset⟩ := r
  rw [← bytes_indexParts] at hp
  simp only [indexParts, Time.encode, List.flatMap_cons, List.flatMap_nil, Dense.bytes_append,
    List.append_assoc] at hp
  obtain ⟨hsecs, hp⟩ := wordAt_append hp
  obtain ⟨hnsecs, hp⟩ := wordAt_append hp
  rw [hsecs, hnsecs, (wordAt_append hp).1]

/-- The rows of a chunk summary are read as they were written. -/
theorem countRows_eq {rows : List ConnectionCount} {d : Dense}
    (hd : d.bytes = rows.flatMap countRow) : countRows d = rows := by
  refine rows_eq (by decide) length_countRow hd fun n pos hp => ?_
  obtain ⟨conn, count⟩ := n
  rw [← bytes_countParts] at hp
  simp only [countParts, List.flatMap_cons, List.flatMap_nil] at hp
  obtain ⟨hconn, hp⟩ := wordAt_append hp
  rw [hconn, (wordAt_append hp).1]

end Table

/-! ## Messages -/

namespace RawMessage

theorem reads_atCursor (c : Cursor) (n : Nat) {m : RawMessage} (hd : m.data.size < 2 ^ 32) :
    Reads c (atCursor (n + 1)) m.bytes m := by
  have hheader := MessageHeader.readable m.header
  have hkind : (Header.toFields m.header).kind = .ok .messageData := rfl
  refine (Fields.reads_cursor c hheader.named hheader.fits).bind (k := fun block => _)
    (Reads.check hkind (Reads.check hheader.ofFields ?_))
  have hdata := (Cursor.reads_sized (Source.move c (Header.bytes m.header).length) hd).bind
    (k := fun data => pure (⟨m.header.conn, m.header.time, data⟩ : RawMessage)) (Reads.pure _ _)
  rwa [List.append_nil] at hdata

/-- **A message's record is read as it was written**, where it stands in its chunk. -/
theorem ofChunk_eq {contents : Dense} {offset : Nat} {m : RawMessage}
    (h : m.bytes <+: contents.bytes.drop offset) (hd : m.data.size < 2 ^ 32) :
    ofChunk contents offset = .ok m := by
  have hsize : offset ≤ contents.size := by
    have hl := h.length_le
    rw [List.length_drop, Dense.length_bytes, bytes, List.length_append, Header.length_bytes] at hl
    omega
  have hseek : (Cursor.seek offset).run (.start contents) = .ok ⟨⟩ ⟨contents, offset⟩ := by
    rw [EStateM.run, Cursor.seek, Cursor.start, if_neg (Nat.not_lt_of_le hsize)]
  have hrun := reads_atCursor ⟨contents, offset⟩ (contents.size / 8) hd h
  rw [ofChunk, EStateM.run_bind, hseek]
  simp only [hrun]

end RawMessage

end BagFile
