/-
  A whole bag as one string of bytes, written from front to back.

  * `Header.bytes`, `Connection.blocks` and `RawMessage.bytes` are the written forms of headers,
    connection records and message records, with every length where it belongs;
  * `Table.indexRow` and `Table.countRow` are the rows of tables, which the parts that are written
    one by one make up (`Table.bytes_indexParts`, `Table.bytes_countParts`);
  * a `StoredChunk` is a chunk with its index, and an `Image` a bag of such chunks: no position
    in it is chosen, all of them follow from what is in front (`Image.placed`);
  * `Image.blocks` are the length-prefixed blocks of the file in order, and `Image.bytes` is all
    of it.
-/
import BagFile.Connection
import BagFile.Fetcher
import BagFile.Layout
import BagFile.Table
import BagFile.Proofs.Writing

namespace BagFile

/-! ## Field blocks -/

namespace Fields

/-- The written form of a field. -/
def entryBytes (e : String × Dense) : Bytes :=
  Bytes.sized ((Text.encode e.1).bytes ++ separator :: e.2.bytes)

/-- The written form of a block's fields, without the length in front. -/
def body (f : Fields) : Bytes := f.entries.flatMap entryBytes

/-- The written form of a block. -/
def bytes (f : Fields) : Bytes := Bytes.sized f.body

theorem length_entry (e : String × Dense) :
    ((Text.encode e.1).bytes ++ separator :: e.2.bytes).length = entryLength e := by
  rw [List.length_append, List.length_cons, Dense.length_bytes, Dense.length_bytes, entryLength]
  omega

theorem length_entryBytes (e : String × Dense) : (entryBytes e).length = 4 + entryLength e := by
  rw [entryBytes, Bytes.length_sized, length_entry]

theorem length_body (f : Fields) : f.body.length = f.bodyLength := by
  rw [body, bodyLength, List.length_flatMap]
  exact congrArg List.sum (List.map_congr_left fun e _ => length_entryBytes e)

theorem length_bytes (f : Fields) : f.bytes.length = 4 + f.bodyLength := by
  rw [bytes, Bytes.length_sized, length_body]

/-- A field is no longer than its block. -/
theorem entryLength_le {f : Fields} {e : String × Dense} (h : e ∈ f.entries) :
    entryLength e ≤ f.bodyLength := by
  obtain ⟨front, after, hes⟩ := List.append_of_mem h
  rw [bodyLength, hes, List.map_append, List.sum_append, List.map_cons, List.sum_cons]
  omega

theorem bytes_encodeEntry (e : String × Dense) : (encodeEntry e).bytes = entryBytes e := by
  rw [encodeEntry, Dense.bytes_append, Dense.bytes_push, Dense.bytes_append,
    Slot.bytes_encode_length, entryBytes, Bytes.sized, length_entry]
  simp only [List.append_assoc, List.singleton_append]

/-- The block that is built in memory is the written form. -/
theorem bytes_encode (f : Fields) : f.encode.bytes = f.bytes := by
  have hjoin : Dense.bytes (.join (f.entries.map encodeEntry)) = f.body := by
    rw [Dense.bytes_join, List.flatMap_map]
    exact List.flatMap_congr fun e _ => bytes_encodeEntry e
  rw [encode, Dense.bytes_append, Slot.bytes_encode_length, hjoin, bytes, Bytes.sized, length_body]

end Fields

/-! ## Records -/

/-- The written form of a header. -/
def Header.bytes {α : Type} [Header α] (h : α) : Bytes := (Header.toFields h).bytes

/-- A header whose block has a length that four bytes can hold. -/
def Header.Fits {α : Type} [Header α] (h : α) : Prop := (Header.toFields h).bodyLength < 2 ^ 32

instance {α : Type} [Header α] (h : α) : Decidable (Header.Fits h) :=
  inferInstanceAs (Decidable (_ < _))

theorem Header.length_bytes {α : Type} [Header α] (h : α) :
    (Header.bytes h).length = 4 + (Header.toFields h).bodyLength := Fields.length_bytes _

/-! Most headers have fields of fixed width only. -/

theorem FileHeader.bodyLength_toFields (h : FileHeader) :
    (Header.toFields h).bodyLength = 69 := rfl

theorem FileHeader.length_bytes (h : FileHeader) : (Header.bytes h).length = 73 := by
  rw [Header.bytes, Fields.length_bytes, FileHeader.bodyLength_toFields]

theorem MessageHeader.bodyLength_toFields (h : MessageHeader) :
    (Header.toFields h).bodyLength = 38 := rfl

theorem IndexHeader.bodyLength_toFields (h : IndexHeader) :
    (Header.toFields h).bodyLength = 47 := rfl

theorem ChunkInfoHeader.bodyLength_toFields (h : ChunkInfoHeader) :
    (Header.toFields h).bodyLength = 100 := rfl

/-- The length of a chunk's header hangs on the name of the compression alone. -/
theorem ChunkHeader.bodyLength_toFields (h : ChunkHeader) :
    (Header.toFields h).bodyLength = 37 + (Text.encode h.compression.name).size := by
  have he : (Header.toFields h).bodyLength =
      8 + (4 + (11 + 1 + (Text.encode h.compression.name).size) + 13) := rfl
  rw [he]
  omega

/-- The blocks of a connection record: the outer header and the data, a block itself. -/
def Connection.blocks (c : Connection) : List Bytes := [Header.bytes c.header, c.dataFields.bytes]

/-- A connection whose two blocks have lengths that four bytes can hold. -/
def Connection.Fits (c : Connection) : Prop :=
  Header.Fits c.header ∧ c.dataFields.bodyLength < 2 ^ 32

instance (c : Connection) : Decidable c.Fits := inferInstanceAs (Decidable (_ ∧ _))

/-- A connection for samples. -/
def Connection.sample (id : UInt32) (topic : String) : Connection :=
  ⟨id, topic, topic, "std_msgs/String", "*", "string data", none, none⟩

namespace RawMessage

/-- The header of a message's record. -/
def header (m : RawMessage) : MessageHeader := ⟨m.conn, m.time⟩

/-- The written form of a message's record. -/
def bytes (m : RawMessage) : Bytes := Header.bytes m.header ++ Bytes.sized m.data.bytes

end RawMessage

/-- A message of a chunk, and the connection whose record stands right in front of it. -/
structure Note where
  preface : Option Connection
  message : RawMessage
  deriving DecidableEq

namespace Note

/-- The blocks in front of the message's own record. -/
def front (n : Note) : List Bytes := n.preface.toList.flatMap Connection.blocks

/-- How far the message's own record is behind the start. -/
def lead (n : Note) : Nat := n.front.flatten.length

/-- The blocks that the message adds to a chunk. -/
def blocks (n : Note) : List Bytes :=
  n.front ++ [Header.bytes n.message.header, Bytes.sized n.message.data.bytes]

/-- What the message adds to a chunk. -/
def bytes (n : Note) : Bytes := n.blocks.flatten

theorem bytes_eq (n : Note) : n.bytes = n.front.flatten ++ n.message.bytes := by
  rw [bytes, blocks, List.flatten_append, List.flatten_cons, List.flatten_singleton]
  rfl

/-- A message whose lengths four bytes can hold, in contents of so many bytes. -/
structure Fits (n : Note) (size : Nat) : Prop where
  preface : ∀ c ∈ n.preface, c.Fits
  offset : size + n.lead < 2 ^ 32
  data : n.message.data.size < 2 ^ 32

instance (n : Note) (size : Nat) : Decidable (n.Fits size) :=
  decidable_of_iff
    ((∀ c ∈ n.preface, c.Fits) ∧ size + n.lead < 2 ^ 32 ∧ n.message.data.size < 2 ^ 32)
    ⟨fun h => ⟨h.1, h.2.1, h.2.2⟩, fun h => ⟨h.preface, h.offset, h.data⟩⟩

end Note

namespace Table

/-- The written form of a row of an index record: the seconds, the nanoseconds and the offset. -/
def indexRow (r : Time × UInt32) : Bytes :=
  Bytes.ofNat 4 r.1.secs.toNat ++ Bytes.ofNat 4 r.1.nsecs.toNat ++ Bytes.ofNat 4 r.2.toNat

/-- The written form of a row of a chunk summary: the connection and the count. -/
def countRow (n : ConnectionCount) : Bytes :=
  Bytes.ofNat 4 n.conn.toNat ++ Bytes.ofNat 4 n.count.toNat

/-- The parts that are written are those of the row. -/
theorem bytes_indexParts (r : Time × UInt32) : (indexParts r).flatMap Dense.bytes = indexRow r := by
  simp only [indexParts, Time.encode, Word.encode, List.flatMap_cons, List.flatMap_nil,
    Dense.bytes_append, Dense.bytes_ofNat, List.append_nil]
  rfl

theorem bytes_countParts (n : ConnectionCount) :
    (countParts n).flatMap Dense.bytes = countRow n := by
  simp only [countParts, Word.encode, List.flatMap_cons, List.flatMap_nil, Dense.bytes_ofNat,
    List.append_nil]
  rfl

variable {α : Type}

/-- The written form of a table, given by the rows that it has for `xs`. -/
def bytes (row : α → Bytes) (xs : List α) : Bytes := Bytes.sized (xs.flatMap row)

/-- A table with a length that four bytes can hold. -/
def Fits (row : α → Bytes) (xs : List α) : Prop := (xs.flatMap row).length < 2 ^ 32

instance (row : α → Bytes) (xs : List α) : Decidable (Fits row xs) :=
  inferInstanceAs (Decidable (_ < _))

end Table

/-! ## Chunks -/

/-- A chunk as it is stored, with its index: the rows of each connection. -/
structure StoredChunk where
  compression : Compression
  /-- the length of the contents -/
  size : Nat
  /-- the stored form of the contents -/
  stored : Dense
  startTime : Time
  endTime : Time
  index : List (UInt32 × List (Time × UInt32))
  deriving DecidableEq

namespace StoredChunk

/-- The header of the chunk's record. -/
def header (c : StoredChunk) : ChunkHeader := ⟨c.compression, UInt32.ofNat c.size⟩

/-- The header of the index record of a connection. -/
def indexHeader (x : UInt32 × List (Time × UInt32)) : IndexHeader :=
  ⟨recordVersion, x.1, UInt32.ofNat x.2.length⟩

/-- The blocks of the index record of a connection. -/
def indexBlocks (x : UInt32 × List (Time × UInt32)) : List Bytes :=
  [Header.bytes (indexHeader x), Table.bytes Table.indexRow x.2]

/-- The blocks of a chunk and of its index records. -/
def blocks (c : StoredChunk) : List Bytes :=
  Header.bytes c.header :: Bytes.sized c.stored.bytes :: c.index.flatMap indexBlocks

/-- How many bytes a chunk takes with its index. -/
def length (c : StoredChunk) : Nat := c.blocks.flatten.length

/-- A chunk whose lengths four bytes can hold. -/
structure Fits (c : StoredChunk) : Prop where
  header : Header.Fits c.header
  size : c.size < 2 ^ 32
  stored : c.stored.size < 2 ^ 32
  index : ∀ x ∈ c.index, Table.Fits Table.indexRow x.2

instance (c : StoredChunk) : Decidable c.Fits :=
  decidable_of_iff (Header.Fits c.header ∧ c.size < 2 ^ 32 ∧ c.stored.size < 2 ^ 32 ∧
      ∀ x ∈ c.index, Table.Fits Table.indexRow x.2)
    ⟨fun h => ⟨h.1, h.2.1, h.2.2.1, h.2.2.2⟩, fun h => ⟨h.header, h.size, h.stored, h.index⟩⟩

/-- How many messages the chunk has of each connection. -/
def counts (c : StoredChunk) : List ConnectionCount :=
  c.index.map fun x => ⟨x.1, UInt32.ofNat x.2.length⟩

/-- The header of the summary of a chunk at a position. -/
def infoHeader (x : Nat × StoredChunk) : ChunkInfoHeader :=
  ⟨recordVersion, UInt64.ofNat x.1, x.2.startTime, x.2.endTime, UInt32.ofNat x.2.counts.length⟩

/-- The blocks of the summary of a chunk at a position. -/
def summaryBlocks (x : Nat × StoredChunk) : List Bytes :=
  [Header.bytes (infoHeader x), Table.bytes Table.countRow x.2.counts]

end StoredChunk

/-! ## Bags -/

/-- A whole bag. -/
structure Image where
  connections : List Connection
  chunks : List StoredChunk
  deriving DecidableEq

namespace Image

/-- Chunks that stand one behind the other from a position on, each with its own position. -/
def placed : Nat → List StoredChunk → List (Nat × StoredChunk)
  | _, [] => []
  | pos, c :: cs => (pos, c) :: placed (pos + c.length) cs

/-- The blocks of chunks and of their index records. -/
def chunkBlocks (cs : List StoredChunk) : List Bytes := cs.flatMap StoredChunk.blocks

/-- The blocks of the header record: the header, and spaces up to the fixed length. -/
def headerBlocks (h : FileHeader) : List Bytes :=
  [Header.bytes h, Bytes.sized
    (List.replicate (Layout.headerLength - ((Header.bytes h).length + 4)) Layout.padding)]

/-- The blocks in front of the chunks. -/
def preamble (h : FileHeader) : List Bytes := Layout.versionLine.bytes :: headerBlocks h

/-- Where the connection records start: behind the last chunk. -/
def indexPos (x : Image) : Nat := Layout.dataStart + (chunkBlocks x.chunks).flatten.length

/-- The header of the bag. -/
def header (x : Image) : FileHeader :=
  ⟨UInt64.ofNat x.indexPos, UInt32.ofNat x.connections.length, UInt32.ofNat x.chunks.length⟩

/-- The blocks of the tables at the end. -/
def tableBlocks (x : Image) : List Bytes :=
  x.connections.flatMap Connection.blocks ++
    (placed Layout.dataStart x.chunks).flatMap StoredChunk.summaryBlocks

/-- A bag whose tables have lengths that four bytes can hold. -/
structure TablesFit (x : Image) : Prop where
  connections : ∀ c ∈ x.connections, c.Fits
  counts : ∀ c ∈ x.chunks, Table.Fits Table.countRow c.counts

instance (x : Image) : Decidable x.TablesFit :=
  decidable_of_iff ((∀ c ∈ x.connections, c.Fits) ∧
      ∀ c ∈ x.chunks, Table.Fits Table.countRow c.counts)
    ⟨fun h => ⟨h.1, h.2⟩, fun h => ⟨h.connections, h.counts⟩⟩

/-- All blocks of the file. -/
def blocks (x : Image) : List Bytes :=
  preamble x.header ++ chunkBlocks x.chunks ++ x.tableBlocks

/-- The file. -/
def bytes (x : Image) : Bytes := x.blocks.flatten

/-- A bag whose header can say how much there is in it, and where. -/
structure Countable (x : Image) : Prop where
  indexPos : x.indexPos < 2 ^ 64
  connections : x.connections.length < 2 ^ 32
  chunks : x.chunks.length < 2 ^ 32

/-! ## Positions -/

theorem map_snd_placed (pos : Nat) (cs : List StoredChunk) :
    (placed pos cs).map Prod.snd = cs := by
  induction cs generalizing pos with
  | nil => rfl
  | cons c cs ih => rw [placed, List.map_cons, ih]

theorem length_placed (pos : Nat) (cs : List StoredChunk) :
    (placed pos cs).length = cs.length := by
  rw [← List.length_map (f := Prod.snd), map_snd_placed]

theorem placed_append (pos : Nat) (cs cs' : List StoredChunk) :
    placed pos (cs ++ cs') =
      placed pos cs ++ placed (pos + (chunkBlocks cs).flatten.length) cs' := by
  induction cs generalizing pos with
  | nil => rfl
  | cons c cs ih =>
    have hl : (chunkBlocks (c :: cs)).flatten.length =
        c.length + (chunkBlocks cs).flatten.length := by
      rw [chunkBlocks, List.flatMap_cons, List.flatten_append, List.length_append]
      rfl
    rw [List.cons_append, placed, ih, placed, List.cons_append, hl, ← Nat.add_assoc]

/-- All header records have blocks of the same lengths. -/
theorem map_length_headerBlocks (h h' : FileHeader) :
    (headerBlocks h).map List.length = (headerBlocks h').map List.length := by
  simp only [headerBlocks, List.map_cons, List.map_nil, FileHeader.length_bytes]

/-- **The header record has its fixed length**, whatever the header says. -/
theorem length_headerBlocks (h : FileHeader) :
    (headerBlocks h).flatten.length = Layout.headerLength := by
  rw [headerBlocks, List.flatten_cons, List.flatten_singleton, List.length_append,
    Bytes.length_sized, List.length_replicate, FileHeader.length_bytes]
  rfl

theorem length_preamble (h : FileHeader) : (preamble h).flatten.length = Layout.dataStart := by
  have hv : Layout.versionLine.bytes.length = Layout.headerPos := by
    rw [Dense.length_bytes]
    decide
  rw [preamble, List.flatten_cons, List.length_append, length_headerBlocks, hv, Layout.dataStart]

/-- The tables start where the header says. -/
theorem drop_indexPos (x : Image) : x.bytes.drop x.indexPos = x.tableBlocks.flatten := by
  have hl : (preamble x.header ++ chunkBlocks x.chunks).flatten.length = x.indexPos := by
    rw [List.flatten_append, List.length_append, length_preamble, indexPos]
  rw [bytes, blocks, List.flatten_append, List.drop_left' hl]

theorem length_bytes (x : Image) : x.bytes.length = x.indexPos + x.tableBlocks.flatten.length := by
  rw [bytes, blocks, List.flatten_append, List.flatten_append, List.length_append,
    List.length_append, length_preamble, indexPos]

/-- What the header says is true. -/
theorem Countable.header {x : Image} (h : x.Countable) :
    x.header.indexPos.toNat = x.indexPos ∧ x.header.connCount.toNat = x.connections.length ∧
      x.header.chunkCount.toNat = x.chunks.length :=
  ⟨UInt64.toNat_ofNat_of_lt' h.indexPos, UInt32.toNat_ofNat_of_lt' h.connections,
    UInt32.toNat_ofNat_of_lt' h.chunks⟩

end Image

end BagFile
