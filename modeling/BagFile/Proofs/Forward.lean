/-
  The file of a recording, spelled out.

  * `Forward.bag a` are the bytes of a bag with the connections and chunks of an account, from
    front to back.  All names, the bytes that tell the kinds of records, all widths and positions
    are given here, and none of them by what writes or reads a bag;
  * `Forward.bag_eq`: they are the bytes of the account's image;
  * `Recorder.finalize_serialises`: they are what is on the tape when a recording has ended.  No
    placeholder is left, and a header that moved or grew is an error that nothing meets.
-/
import BagFile.Proofs.Describing
import BagFile.Proofs.Serialisation
import Mathlib.Data.List.Pairwise

namespace BagFile

namespace Forward

/-! ## Blocks -/

/-- A text in UTF-8. -/
def text (s : String) : Bytes := s.toUTF8.data.toList

/-- A point in time: the seconds, then the nanoseconds. -/
def time (t : Time) : Bytes := Bytes.ofNat 4 t.secs.toNat ++ Bytes.ofNat 4 t.nsecs.toNat

/-- A field block: its length, and each field with its own, a name and a value with an equals
    sign between them. -/
def block (fields : List (String × Bytes)) : Bytes :=
  Bytes.sized (fields.flatMap fun f => Bytes.sized (text f.1 ++ 0x3D :: f.2))

/-- A record's header: the byte that tells the kind comes first. -/
def header (op : UInt8) (fields : List (String × Bytes)) : Bytes := block (("op", [op]) :: fields)

/-! ## Connections and messages -/

/-- A connection's record.  Its data is a field block as well. -/
def connection (c : Connection) : Bytes :=
  header 0x07 [("conn", Bytes.ofNat 4 c.id.toNat), ("topic", text c.topic)] ++
    block ([("topic", text c.topicOriginal), ("type", text c.typeName), ("md5sum", text c.md5sum),
        ("message_definition", text c.definition)] ++
      (c.callerId.toList.map fun v => ("callerid", text v)) ++
      c.latching.toList.map fun v => ("latching", text v))

/-- A message's record. -/
def message (m : RawMessage) : Bytes :=
  header 0x02 [("conn", Bytes.ofNat 4 m.conn.toNat), ("time", time m.time)] ++
    Bytes.sized m.data.bytes

/-- The record of a connection, if it stands in front of a message. -/
def preface (n : Note) : Bytes := n.preface.toList.flatMap connection

/-- The contents of a chunk. -/
def contents (ns : List Note) : Bytes := ns.flatMap fun n => preface n ++ message n.message

/-! ## Chunks -/

/-- The messages of a chunk, each with the offset of its record, when so many bytes are in
    front. -/
def offsets : Nat → List Note → List (RawMessage × Nat)
  | _, [] => []
  | pos, n :: ns =>
    (n.message, pos + (preface n).length) ::
      offsets (pos + (preface n).length + (message n.message).length) ns

/-- The connections that have messages in a chunk, ascending. -/
def used (b : Batch) : List UInt32 :=
  (b.messages.map RawMessage.conn).eraseDups.mergeSort fun c d => c ≤ d

/-- The messages of a connection in a chunk by time, those of one time in the order in which they
    stand there. -/
def entries (b : Batch) (conn : UInt32) : List (RawMessage × Nat) :=
  ((offsets 0 b.notes).filter (·.1.conn = conn)).mergeSort fun x y => x.1.time ≤ y.1.time

/-- The index record of a connection: twelve bytes for each message, its time and its offset. -/
def index (b : Batch) (conn : UInt32) : Bytes :=
  header 0x04 [("ver", Bytes.ofNat 4 1), ("conn", Bytes.ofNat 4 conn.toNat),
      ("count", Bytes.ofNat 4 (entries b conn).length)] ++
    Bytes.sized ((entries b conn).flatMap fun x => time x.1.time ++ Bytes.ofNat 4 x.2)

/-- The name of a compression. -/
def name : Compression → String
  | .none => "none"
  | .bz2 => "bz2"
  | .lz4 => "lz4"
  | .other n => n

/-- A chunk's record, and its index records. -/
def chunk [Codec.Formats] (b : Batch) : Bytes :=
  header 0x05 [("compression", text (name b.compression)),
      ("size", Bytes.ofNat 4 (contents b.notes).length)] ++
    Bytes.sized (b.codec.compress (.ofBytes (contents b.notes))).bytes ++ (used b).flatMap (index b)

/-- The times of the messages of a chunk, in order. -/
def times (b : Batch) : List Time := (b.messages.map RawMessage.time).mergeSort fun t u => t ≤ u

/-- The summary of a chunk at a position: eight bytes for each connection, its id and the number
    of its messages. -/
def summary (pos : Nat) (b : Batch) : Bytes :=
  header 0x06 [("ver", Bytes.ofNat 4 1), ("chunk_pos", Bytes.ofNat 8 pos),
      ("start_time", time ((times b).head?.getD ⟨0, 0⟩)),
      ("end_time", time ((times b).getLast?.getD ⟨0, 0⟩)),
      ("count", Bytes.ofNat 4 (used b).length)] ++
    Bytes.sized ((used b).flatMap fun conn =>
      Bytes.ofNat 4 conn.toNat ++ Bytes.ofNat 4 ((b.messages.map RawMessage.conn).count conn))

/-- The summaries of chunks that stand one behind the other from a position on. -/
def summaries [Codec.Formats] : Nat → List Batch → Bytes
  | _, [] => []
  | pos, b :: bs => summary pos b ++ summaries (pos + (chunk b).length) bs

/-! ## Bags -/

/-- The header record of a bag, padded with spaces to 4096 bytes. -/
def bagHeader (indexPos connections chunks : Nat) : Bytes :=
  let head := header 0x03 [("index_pos", Bytes.ofNat 8 indexPos),
    ("conn_count", Bytes.ofNat 4 connections), ("chunk_count", Bytes.ofNat 4 chunks)]
  head ++ Bytes.sized (List.replicate (4096 - (head.length + 4)) 0x20)

/-- A bag: the version line, the header record, the chunks, and behind them a record for each
    connection and a summary of each chunk. -/
def bag [Codec.Formats] (a : Account) : Bytes :=
  let chunks := a.chunks.flatMap chunk
  text "#ROSBAG V2.0\n" ++ bagHeader (4109 + chunks.length) a.connections.length a.chunks.length ++
    chunks ++ a.connections.flatMap connection ++ summaries 4109 a.chunks

/-! ## What is written -/

theorem bytes_encode {α : Type} [Word α] (x : α) :
    (Word.encode x).bytes = Bytes.ofNat (Word.width α) (Word.toNat x) := Dense.bytes_ofNat _ _

theorem bytes_encode_time (t : Time) : t.encode.bytes = time t := by
  rw [Time.encode, Dense.bytes_append, bytes_encode, bytes_encode]
  rfl

/-- A word that cannot hold a number is written as the number is. -/
theorem ofNat_toNat_word (n : Nat) : Bytes.ofNat 4 (UInt32.ofNat n).toNat = Bytes.ofNat 4 n := by
  rw [UInt32.toNat_ofNat']
  exact Bytes.ofNat_mod 4 n

theorem ofNat_toNat_long (n : Nat) : Bytes.ofNat 8 (UInt64.ofNat n).toNat = Bytes.ofNat 8 n := by
  rw [UInt64.toNat_ofNat']
  exact Bytes.ofNat_mod 8 n

/-- A block is written as the fields that it has. -/
theorem bytes_fields (f : Fields) : f.bytes = block (f.entries.map fun e => (e.1, e.2.bytes)) := by
  rw [block, List.flatMap_map]
  rfl

/-! ### Headers -/

theorem bytes_fileHeader (h : FileHeader) : Header.bytes h =
    header 0x03 [("index_pos", Bytes.ofNat 8 h.indexPos.toNat),
      ("conn_count", Bytes.ofNat 4 h.connCount.toNat),
      ("chunk_count", Bytes.ofNat 4 h.chunkCount.toNat)] := by
  rw [Header.bytes, bytes_fields]
  show block [("op", (Word.encode _).bytes), ("index_pos", (Word.encode _).bytes),
    ("conn_count", (Word.encode _).bytes), ("chunk_count", (Word.encode _).bytes)] = _
  simp only [bytes_encode]
  rfl

theorem bytes_chunkHeader (h : ChunkHeader) : Header.bytes h =
    header 0x05 [("compression", text (name h.compression)),
      ("size", Bytes.ofNat 4 h.size.toNat)] := by
  have hname : h.compression.name = name h.compression := by cases h.compression <;> rfl
  rw [Header.bytes, bytes_fields, ← hname]
  show block [("op", (Word.encode _).bytes), _, ("size", (Word.encode _).bytes)] = _
  simp only [bytes_encode]
  rfl

theorem bytes_connectionHeader (h : ConnectionHeader) : Header.bytes h =
    header 0x07 [("conn", Bytes.ofNat 4 h.conn.toNat), ("topic", text h.topic)] := by
  rw [Header.bytes, bytes_fields]
  show block [("op", (Word.encode _).bytes), ("conn", (Word.encode _).bytes), _] = _
  simp only [bytes_encode]
  rfl

theorem bytes_messageHeader (h : MessageHeader) : Header.bytes h =
    header 0x02 [("conn", Bytes.ofNat 4 h.conn.toNat), ("time", time h.time)] := by
  rw [Header.bytes, bytes_fields]
  show block [("op", (Word.encode _).bytes), ("conn", (Word.encode _).bytes),
    ("time", h.time.encode.bytes)] = _
  simp only [bytes_encode, bytes_encode_time]
  rfl

theorem bytes_indexHeader (h : IndexHeader) : Header.bytes h =
    header 0x04 [("ver", Bytes.ofNat 4 h.version.toNat), ("conn", Bytes.ofNat 4 h.conn.toNat),
      ("count", Bytes.ofNat 4 h.count.toNat)] := by
  rw [Header.bytes, bytes_fields]
  show block [("op", (Word.encode _).bytes), ("ver", (Word.encode _).bytes),
    ("conn", (Word.encode _).bytes), ("count", (Word.encode _).bytes)] = _
  simp only [bytes_encode]
  rfl

theorem bytes_infoHeader (h : ChunkInfoHeader) : Header.bytes h =
    header 0x06 [("ver", Bytes.ofNat 4 h.version.toNat),
      ("chunk_pos", Bytes.ofNat 8 h.chunkPos.toNat), ("start_time", time h.startTime),
      ("end_time", time h.endTime), ("count", Bytes.ofNat 4 h.count.toNat)] := by
  rw [Header.bytes, bytes_fields]
  show block [("op", (Word.encode _).bytes), ("ver", (Word.encode _).bytes),
    ("chunk_pos", (Word.encode _).bytes), ("start_time", h.startTime.encode.bytes),
    ("end_time", h.endTime.encode.bytes), ("count", (Word.encode _).bytes)] = _
  simp only [bytes_encode, bytes_encode_time]
  rfl

/-! ### Connections and messages -/

theorem bytes_dataFields (c : Connection) : c.dataFields.bytes =
    block ([("topic", text c.topicOriginal), ("type", text c.typeName), ("md5sum", text c.md5sum),
        ("message_definition", text c.definition)] ++
      (c.callerId.toList.map fun v => ("callerid", text v)) ++
      c.latching.toList.map fun v => ("latching", text v)) := by
  obtain ⟨_, _, _, _, _, _, callerId, latching⟩ := c
  rw [bytes_fields]
  cases callerId <;> cases latching <;> rfl

theorem flatten_blocks (c : Connection) : c.blocks.flatten = connection c := by
  rw [Connection.blocks, List.flatten_cons, List.flatten_singleton, bytes_connectionHeader,
    bytes_dataFields]
  rfl

theorem bytes_message (m : RawMessage) : m.bytes = message m := by
  rw [RawMessage.bytes, bytes_messageHeader]
  rfl

theorem flatten_front (n : Note) : n.front.flatten = preface n := by
  rw [Note.front, flatten_flatMap]
  exact List.flatMap_congr fun c _ => flatten_blocks c

theorem bytes_note (n : Note) : n.bytes = preface n ++ message n.message := by
  rw [n.bytes_eq, flatten_front, bytes_message]

theorem contents_eq (b : Batch) : b.contents = contents b.notes :=
  List.flatMap_congr fun n _ => bytes_note n

/-! ### Chunks -/

/-- A message with its offset, as the recorder keeps it. -/
def row (x : RawMessage × Nat) : Time × UInt32 := (x.1.time, UInt32.ofNat x.2)

theorem rows_eq (b : Batch) : b.rows = (offsets 0 b.notes).map fun x => (x.1.conn, row x) := by
  have hfrom : ∀ pos ns,
      Batch.rowsFrom pos ns = (offsets pos ns).map fun x => (x.1.conn, row x) := by
    intro pos ns
    induction ns generalizing pos with
    | nil => rfl
    | cons n ns ih =>
      rw [Batch.rowsFrom, offsets, List.map_cons, ih, bytes_note, List.length_append, Note.lead,
        flatten_front, ← Nat.add_assoc]
      rfl
  exact hfrom 0 b.notes

/-- The rows of a connection in the index of a chunk are its messages by time. -/
theorem listed_eq (b : Batch) (conn : UInt32) : b.listed conn = (entries b conn).map row := by
  rw [Batch.listed, Batch.rowsOf, rows_eq, List.filter_map, List.map_map, entries]
  refine Eq.symm (List.map_mergeSort (f := row) fun x _ y _ => ?_)
  rfl

theorem index_eq [Codec.Formats] (b : Batch) :
    b.stored.index = (used b).map fun conn => (conn, (entries b conn).map row) := by
  rw [b.index_eq, b.conns_index]
  exact List.map_congr_left fun conn _ => by rw [listed_eq]

theorem indexRow_row (x : RawMessage × Nat) :
    Table.indexRow (row x) = time x.1.time ++ Bytes.ofNat 4 x.2 := by
  rw [Table.indexRow, row, ofNat_toNat_word]
  rfl

theorem flatten_indexBlocks (b : Batch) (conn : UInt32) :
    (StoredChunk.indexBlocks (conn, (entries b conn).map row)).flatten = index b conn := by
  rw [StoredChunk.indexBlocks, List.flatten_cons, List.flatten_singleton, bytes_indexHeader,
    StoredChunk.indexHeader, ofNat_toNat_word, List.length_map, Table.bytes, List.flatMap_map]
  simp only [indexRow_row]
  rfl

theorem flatten_stored [Codec.Formats] (b : Batch) : b.stored.blocks.flatten = chunk b := by
  have hindex : (b.stored.index.flatMap StoredChunk.indexBlocks).flatten =
      (used b).flatMap (index b) := by
    rw [index_eq, List.flatMap_map, flatten_flatMap]
    exact List.flatMap_congr fun conn _ => flatten_indexBlocks b conn
  rw [StoredChunk.blocks, List.flatten_cons, List.flatten_cons, hindex, StoredChunk.header,
    bytes_chunkHeader, ofNat_toNat_word, ← List.append_assoc]
  simp only [Batch.stored, contents_eq]
  rfl

/-! ### Summaries -/

theorem spans_times (b : Batch) : Time.Spans ((times b).head?.getD ⟨0, 0⟩)
    ((times b).getLast?.getD ⟨0, 0⟩) (b.messages.map RawMessage.time) := by
  have hkey : ByKey (fun t u : Time => decide (t ≤ u)) Time.rank := fun _ _ => decide_eq_true_iff
  have hmem : ∀ {t}, t ∈ times b ↔ t ∈ b.messages.map RawMessage.time := List.mem_mergeSort
  have hordered : (times b).Pairwise (Time.rank · ≤ Time.rank ·) := hkey.pairwise_mergeSort _
  unfold Time.Spans
  split
  · next hnil =>
    rw [times, hnil, List.mergeSort_nil]
    exact ⟨rfl, rfl⟩
  · next hsome =>
    have hne : times b ≠ [] := fun hnil => hsome <| List.eq_nil_iff_forall_not_mem.2 fun t ht => by
      rw [← hmem, hnil] at ht
      cases ht
    rw [List.head?_eq_some_head hne, List.getLast?_eq_some_getLast hne]
    refine ⟨hmem.1 (List.head_mem hne), hmem.1 (List.getLast_mem hne), fun t ht => ?_⟩
    rw [← hmem] at ht
    exact ⟨hordered.rel_head_of_rel_head_head ht (Nat.le_refl _),
      hordered.rel_getLast_of_rel_getLast_getLast ht (Nat.le_refl _)⟩

/-- The first and the last of some points in time are no others. -/
theorem eq_of_spans {t u t' u' : Time} {ts : List Time} (h : Time.Spans t u ts)
    (h' : Time.Spans t' u' ts) : t = t' ∧ u = u' := by
  unfold Time.Spans at h h'
  split at h
  · next hnil =>
    rw [if_pos hnil] at h'
    exact ⟨h.1.trans h'.1.symm, h.2.trans h'.2.symm⟩
  · next hsome =>
    rw [if_neg hsome] at h'
    obtain ⟨ht, hu, hall⟩ := h
    obtain ⟨ht', hu', hall'⟩ := h'
    exact ⟨Time.rank_inj.1 (Nat.le_antisymm (hall _ ht').1 (hall' _ ht).1),
      Time.rank_inj.1 (Nat.le_antisymm (hall' _ hu).2 (hall _ hu').2)⟩

theorem countRow_eq (conn : UInt32) (n : Nat) : Table.countRow ⟨conn, UInt32.ofNat n⟩ =
    Bytes.ofNat 4 conn.toNat ++ Bytes.ofNat 4 n := by
  rw [Table.countRow, ofNat_toNat_word]

section
variable [Codec.Formats]

theorem ends_eq (b : Batch) : b.stored.startTime = (times b).head?.getD ⟨0, 0⟩ ∧
    b.stored.endTime = (times b).getLast?.getD ⟨0, 0⟩ := by
  refine eq_of_spans ?_ (spans_times b)
  rw [← b.map_time_rows]
  exact Time.spans_earliest_latest _

theorem counts_eq (b : Batch) : b.stored.counts = (used b).map fun conn =>
    ⟨conn, UInt32.ofNat ((b.messages.map RawMessage.conn).count conn)⟩ := by
  have hcount : ∀ conn ∈ used b,
      ((entries b conn).map row).length = (b.messages.map RawMessage.conn).count conn := by
    intro conn hconn
    refine b.length_of_mem_index (x := (conn, _)) ?_
    rw [index_eq]
    exact List.mem_map_of_mem hconn
  rw [StoredChunk.counts, index_eq, List.map_map]
  refine List.map_congr_left fun conn hconn => ?_
  rw [Function.comp_apply, hcount conn hconn]

theorem flatten_summaryBlocks (pos : Nat) (b : Batch) :
    (StoredChunk.summaryBlocks (pos, b.stored)).flatten = summary pos b := by
  obtain ⟨hstart, hend⟩ := ends_eq b
  rw [StoredChunk.summaryBlocks, List.flatten_cons, List.flatten_singleton, bytes_infoHeader,
    StoredChunk.infoHeader, ofNat_toNat_long, ofNat_toNat_word, hstart, hend, counts_eq,
    List.length_map, Table.bytes, List.flatMap_map]
  simp only [countRow_eq]
  rfl

theorem flatten_summaries (pos : Nat) (bs : List Batch) :
    ((Image.placed pos (bs.map Batch.stored)).flatMap StoredChunk.summaryBlocks).flatten =
      summaries pos bs := by
  induction bs generalizing pos with
  | nil => rfl
  | cons b bs ih =>
    rw [List.map_cons, Image.placed, List.flatMap_cons, List.flatten_append, ih,
      flatten_summaryBlocks, StoredChunk.length, flatten_stored, summaries]

end

/-! ### Bags -/

theorem flatten_headerBlocks (x : Image) : (Image.headerBlocks x.header).flatten =
    bagHeader x.indexPos x.connections.length x.chunks.length := by
  rw [Image.headerBlocks, List.flatten_cons, List.flatten_singleton, bytes_fileHeader,
    Image.header, ofNat_toNat_long, ofNat_toNat_word, ofNat_toNat_word]
  rfl

/-- **The bytes of an account's image are spelled out** from its connections and chunks. -/
theorem bag_eq [Codec.Formats] (a : Account) : bag a = a.image.bytes := by
  have hversion : Layout.versionLine.bytes = text "#ROSBAG V2.0\n" := by decide
  have hchunks : (Image.chunkBlocks a.image.chunks).flatten = a.chunks.flatMap chunk := by
    rw [Image.chunkBlocks, Account.image, List.flatMap_map, flatten_flatMap]
    exact List.flatMap_congr fun b _ => flatten_stored b
  have hconnections : (a.connections.flatMap Connection.blocks).flatten =
      a.connections.flatMap connection := by
    rw [flatten_flatMap]
    exact List.flatMap_congr fun c _ => flatten_blocks c
  have htables : a.image.tableBlocks.flatten =
      a.connections.flatMap connection ++ summaries 4109 a.chunks := by
    rw [Image.tableBlocks, List.flatten_append, ← flatten_summaries]
    exact congrArg (· ++ _) hconnections
  rw [Image.bytes, Image.blocks, List.flatten_append, List.flatten_append, Image.preamble,
    List.flatten_cons, hversion, flatten_headerBlocks, hchunks, htables, Image.indexPos, hchunks,
    bag, ← List.append_assoc]
  simp only [Account.image, List.length_map]
  rfl

end Forward

namespace Recorder

/-- **A finalized recording is its account, written from front to back.**  The account has the
    messages that were accepted and the connections that were added, and each chunk the codec of
    its compression; the tape holds the bytes that `Forward.bag` spells out and nothing else.  They
    are those of the account's image: each write has stayed within one of its blocks, the header
    record takes 4096 bytes, and what the header says is true if it can say it.  Along the way and
    at the end, no recording finds itself misplaced. -/
theorem finalize_serialises [Codec.Formats] {settings : Settings} {r₀ : Recorder}
    (hcreate : create settings = .ok r₀) (calls : List Call) :
    (∀ header r, finalize.run (r₀.after calls) = .ok header r →
      let a := (Account.start settings).after calls
      let x := a.close.image
      a.messages = r₀.accepted calls ∧
      a.connections = Call.registered calls ∧
      r.tape.bytes = Forward.bag a.close ∧
      r.tape.bytes = x.bytes ∧
      (∀ w ∈ r.tape.journal, w.Within 0 x.blocks) ∧
      header = x.header ∧
      (Image.headerBlocks header).flatten.length = 4096 ∧
      (x.Countable → header.indexPos.toNat = x.indexPos ∧
        header.connCount.toNat = x.connections.length ∧
        header.chunkCount.toNat = x.chunks.length) ∧
      r.tape.bytes.drop x.indexPos = x.tableBlocks.flatten ∧
      ∀ b ∈ a.close.chunks, Codec.ofCompression b.compression = .ok b.codec ∧
        (b.stored.index.map Prod.fst).Pairwise (· < ·) ∧
        ∀ conn, conn ∈ b.stored.index.map Prod.fst ↔ conn ∈ b.messages.map RawMessage.conn) ∧
    (∀ c e r, Call.run c (r₀.after calls) = .error e r → ¬e.IsMisplaced) ∧
    (∀ e r, finalize.run (r₀.after calls) = .error e r → ¬e.IsMisplaced) := by
  have hf := follows_of_create hcreate
  refine ⟨fun header r hrun => ?_, fun c e r => hf.not_misplaced calls,
    fun e r => hf.finalize_not_misplaced calls⟩
  obtain ⟨-, rfl, hholds, hmessages, -⟩ := hf.of_finalize calls hrun
  obtain ⟨hvalid, hregistered⟩ := Account.valid_after settings calls
  refine ⟨hmessages, hregistered, hholds.bytes_eq.trans (Forward.bag_eq _).symm, hholds.bytes_eq,
    hholds.within, rfl, Image.length_headerBlocks _, Image.Countable.header, ?_, fun b hb =>
      ⟨hvalid.close.codecs b (List.mem_append_left _ hb), b.index_ascending, fun _ => b.mem_index⟩⟩
  rw [hholds.bytes_eq]
  exact Image.drop_indexPos _

theorem finalize_serialises_sample : ∃ r₀ header r, create .default = .ok r₀ ∧
    finalize.run (r₀.after sampleCalls) = .ok header r ∧
      r.tape.bytes = Forward.bag ((Account.start .default).after sampleCalls).close := by
  obtain ⟨r₀, header, r, hcreate, hrun, -⟩ := sample_finalized
  exact ⟨r₀, header, r, hcreate, hrun,
    ((finalize_serialises hcreate sampleCalls).1 _ _ hrun).2.2.1⟩

end Recorder

end BagFile
