/-
  The headers of the six kinds of records.

  * Each kind has a structure of its own; the class `Header` ties it to its kind and to the
    fields that carry it;
  * `Header.ofFields` checks the kind, then that every required field is there, and only then
    reads the values; `Header.read` and `Header.write` go through a stream and a tape;
  * `Record` is a header of any kind, chosen by the kind in the block (`Record.ofFields`).
-/
import BagFile.Fields
import BagFile.Compression

namespace BagFile

/-- A type of record headers. -/
class Header (α : Type) where
  kind : Kind
  /-- reads the values of a block of this kind with all required fields -/
  project : Fields → Except Error α
  toFields : α → Fields

namespace Header

variable {α : Type} [Header α]

/-- Refuses a block of another kind, or one that lacks a required field. -/
def check (kind : Kind) (f : Fields) : Except Error Unit := do
  f.expectKind kind
  match kind.required.find? (fun name => !f.contains name) with
  | some name => .error (.malformedHeader (.incomplete kind name))
  | none => .ok ()

/-- The header that a block carries. -/
def ofFields (f : Fields) : Except Error α := do
  check (kind α) f
  project f

/-- Reads a header from a stream. -/
def read : Stream.Op α := do
  let f ← Fields.readExpecting (kind α)
  MonadExcept.ofExcept (ofFields f)

/-- Writes a header, and gives the length of its body. -/
def write (h : α) : Tape.Op UInt32 := (toFields h).write

end Header

/-- The version of the records that have one. -/
def recordVersion : UInt32 := 1

/-- Reads the version of a record, which must be the supported one. -/
def Fields.requireVersion (f : Fields) (kind : Kind) : Except Error UInt32 := do
  let version : UInt32 ← f.requireWord "ver"
  if version ≠ recordVersion then
    .error (.malformedHeader (.version kind version recordVersion))
  else .ok version

/-! ## The kinds -/

/-- The header of the file: where its index starts, and how much there is in it. -/
structure FileHeader where
  indexPos : UInt64
  connCount : UInt32
  chunkCount : UInt32
  deriving DecidableEq

/-- The header written while a bag is being recorded. -/
def FileHeader.placeholder : FileHeader := ⟨0, 0, 0⟩

instance : Header FileHeader where
  kind := .header
  project f := do
    return {
      indexPos := ← f.requireWord "index_pos"
      connCount := ← f.requireWord "conn_count"
      chunkCount := ← f.requireWord "chunk_count" }
  toFields h :=
    Fields.ofKind .header
      |>.insertWord "index_pos" h.indexPos
      |>.insertWord "conn_count" h.connCount
      |>.insertWord "chunk_count" h.chunkCount

/-- The header of a chunk: how it is stored, and its size when read. -/
structure ChunkHeader where
  compression : Compression
  size : UInt32
  deriving DecidableEq

instance : Header ChunkHeader where
  kind := .chunk
  project f := do
    return {
      compression := Compression.ofName (← f.requireText "compression")
      size := ← f.requireWord "size" }
  toFields h :=
    Fields.ofKind .chunk
      |>.insertText "compression" h.compression.name
      |>.insertWord "size" h.size

/-- The header of a connection record; the rest stands in the record's data. -/
structure ConnectionHeader where
  conn : UInt32
  topic : String
  deriving DecidableEq

instance : Header ConnectionHeader where
  kind := .connection
  project f := do
    return {
      conn := ← f.requireWord "conn"
      topic := ← f.requireText "topic" }
  toFields h :=
    Fields.ofKind .connection
      |>.insertWord "conn" h.conn
      |>.insertText "topic" h.topic

/-- The header of a message. -/
structure MessageHeader where
  conn : UInt32
  time : Time
  deriving DecidableEq

instance : Header MessageHeader where
  kind := .messageData
  project f := do
    return {
      conn := ← f.requireWord "conn"
      time := ← f.requireTime "time" }
  toFields h :=
    Fields.ofKind .messageData
      |>.insertWord "conn" h.conn
      |>.insertTime "time" h.time

/-- The header of the index of one connection in one chunk. -/
structure IndexHeader where
  version : UInt32
  conn : UInt32
  count : UInt32
  deriving DecidableEq

instance : Header IndexHeader where
  kind := .indexData
  project f := do
    return {
      version := ← f.requireVersion .indexData
      conn := ← f.requireWord "conn"
      count := ← f.requireWord "count" }
  toFields h :=
    Fields.ofKind .indexData
      |>.insertWord "ver" h.version
      |>.insertWord "conn" h.conn
      |>.insertWord "count" h.count

/-- The header of the summary of a chunk. -/
structure ChunkInfoHeader where
  version : UInt32
  chunkPos : UInt64
  startTime : Time
  endTime : Time
  count : UInt32
  deriving DecidableEq

instance : Header ChunkInfoHeader where
  kind := .chunkInfo
  project f := do
    return {
      version := ← f.requireVersion .chunkInfo
      chunkPos := ← f.requireWord "chunk_pos"
      startTime := ← f.requireTime "start_time"
      endTime := ← f.requireTime "end_time"
      count := ← f.requireWord "count" }
  toFields h :=
    Fields.ofKind .chunkInfo
      |>.insertWord "ver" h.version
      |>.insertWord "chunk_pos" h.chunkPos
      |>.insertTime "start_time" h.startTime
      |>.insertTime "end_time" h.endTime
      |>.insertWord "count" h.count

/-! ## A header of any kind -/

/-- A record header of any kind. -/
inductive Record where
  | file (h : FileHeader)
  | chunk (h : ChunkHeader)
  | connection (h : ConnectionHeader)
  | message (h : MessageHeader)
  | index (h : IndexHeader)
  | chunkInfo (h : ChunkInfoHeader)
  deriving DecidableEq

namespace Record

/-- The kind of a record. -/
def kind : Record → Kind
  | file _ => .header
  | chunk _ => .chunk
  | connection _ => .connection
  | message _ => .messageData
  | index _ => .indexData
  | chunkInfo _ => .chunkInfo

/-- The fields that carry a record's header. -/
def toFields : Record → Fields
  | file h => Header.toFields h
  | chunk h => Header.toFields h
  | connection h => Header.toFields h
  | message h => Header.toFields h
  | index h => Header.toFields h
  | chunkInfo h => Header.toFields h

/-- The header of the given kind that a block carries. -/
def ofFieldsAs (f : Fields) : Kind → Except Error Record
  | .header => file <$> Header.ofFields f
  | .chunk => chunk <$> Header.ofFields f
  | .connection => connection <$> Header.ofFields f
  | .messageData => message <$> Header.ofFields f
  | .indexData => index <$> Header.ofFields f
  | .chunkInfo => chunkInfo <$> Header.ofFields f

/-- The header that a block carries, of the kind that it names. -/
def ofFields (f : Fields) : Except Error Record := do
  ofFieldsAs f (← f.kind)

end Record

end BagFile
