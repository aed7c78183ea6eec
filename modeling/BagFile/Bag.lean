/-
  An opened bag: what its header, its connection table, its chunk table and its index say.

  * `Bag.load` reads all of it from a file, without the contents of any chunk, or fails;
  * `Bag.entries` are the places of the messages that a query selects, in order of time.
-/
import BagFile.Connection
import BagFile.Layout
import BagFile.Merge
import BagFile.Query
import BagFile.Settings
import BagFile.Table
import BagFile.Text.Blank

namespace BagFile

/-- An opened bag. -/
structure Bag where
  /-- the name under which it was opened -/
  path : String
  settings : Settings
  header : FileHeader
  /-- the connections, in the order of the table -/
  connections : List Connection
  /-- the chunks by position -/
  chunks : List Chunk
  index : Index
  deriving DecidableEq

namespace Bag

/-! ## Reading the tables -/

/-- Reads so many values. -/
def readMany {α : Type} (read : Stream.Op α) : Nat → Stream.Op (List α)
  | 0 => return []
  | n + 1 => do
    let a ← read
    let rest ← readMany read n
    return a :: rest

/-- Reads the version line, which must be the supported one and nothing else. -/
def readVersion : Stream.Op Unit := do
  let line ← Stream.readThrough Layout.lineFeed Layout.versionLimit
  let text := Text.trimEnd (Text.decodeLossy line)
  if text ≠ Layout.versionText ∨ line.size ≠ Layout.headerPos then
    throw (.unsupportedVersion text)

/-- Reads a chunk summary, and from the chunk's own record how it is stored; then the stream is
    after the summary. -/
def readChunk : Stream.Op Chunk := do
  let info : ChunkInfoHeader ← Header.read
  let data ← Stream.readSized
  let expected := info.count.toNat * Table.countWidth
  if data.size ≠ expected then
    throw (.malformedHeader (.chunkInfoLength info.chunkPos info.count data.size expected))
  let resume ← Stream.position
  Stream.seek info.chunkPos.toNat
  let chunk : ChunkHeader ← Header.read
  let dataPos ← Stream.position
  let sizeCompressed ← Stream.readWord
  Stream.seek resume
  return {
    recordPos := info.chunkPos
    dataPos := UInt64.ofNat dataPos
    startTime := info.startTime
    endTime := info.endTime
    connections := Table.countRows data
    compression := chunk.compression
    sizeUncompressed := chunk.size
    sizeCompressed := sizeCompressed }

/-- Reads an index record of the chunk at a position; its connection must be one of those
    given.  The result has a row for each message. -/
def readIndexRecord (conns : List UInt32) (chunkPos : UInt64) :
    Stream.Op (List (UInt32 × Entry)) := do
  let header : IndexHeader ← Header.read
  if !conns.contains header.conn then throw (.unknownConnection header.conn)
  let data ← Stream.readSized
  let expected := header.count.toNat * Table.indexWidth
  if data.size ≠ expected then
    throw (.malformedHeader (.indexLength header.conn data.size header.count expected))
  return (Table.indexRows data).map fun r => (header.conn, ⟨r.1, chunkPos, r.2⟩)

/-- Reads the index records behind a chunk, one for each of its connections.  The header and
    the data of the chunk are passed over unread. -/
def readChunkIndex (conns : List UInt32) (chunk : Chunk) : Stream.Op (List (UInt32 × Entry)) := do
  Stream.seek chunk.recordPos.toNat
  let _ ← Stream.skipSized
  let _ ← Stream.skipSized
  let records ← readMany (readIndexRecord conns chunk.recordPos) chunk.connections.length
  return records.flatten

/-- Chunks by position, those of one position as they were. -/
def sortChunks (chunks : List Chunk) : List Chunk :=
  chunks.mergeSort fun a b => a.recordPos ≤ b.recordPos

/-- Reads a bag from the start of a stream. -/
def read (path : String) (settings : Settings) : Stream.Op Bag := do
  readVersion
  let header : FileHeader ← Header.read
  let _ ← Stream.skipSized
  if header.indexPos.toNat < Layout.dataStart then throw (.unindexed header.indexPos)
  Stream.seek header.indexPos.toNat
  let connections ← readMany Connection.read header.connCount.toNat
  let chunks := sortChunks (← readMany readChunk header.chunkCount.toNat)
  let rows ← chunks.mapM (readChunkIndex (connections.map Connection.id))
  return {
    path := path
    settings := settings
    header := header
    connections := connections
    chunks := chunks
    index := Index.build (connections.map Connection.id) rows.flatten }

/-- Opens a bag in a file with these contents. -/
def load (path : String) (settings : Settings) (contents : Contents) : Except Error Bag :=
  match (read path settings).run (Stream.ofFile contents) with
  | .ok bag _ => .ok bag
  | .error e _ => .error e

/-! ## What a bag says -/

/-- The connection with an id; of several with one id the last counts. -/
def connection? (b : Bag) (id : UInt32) : Option Connection :=
  b.connections.reverse.find? (·.id = id)

/-- Distinct texts in order. -/
def distinct (texts : List String) : List String :=
  texts.eraseDups.mergeSort fun s t => s ≤ t

/-- The topics of a bag, in order. -/
def topics (b : Bag) : List String := distinct (b.connections.map Connection.topic)

/-- The connections on the selected topics, in the order of the table. -/
def connectionsFor (b : Bag) (topics : Option (List String)) : List Connection :=
  b.connections.filter fun c => Query.selects topics c.topic

/-- How many messages there are. -/
def messageCount (b : Bag) : Nat := b.index.messageCount

/-- The lists of entries that a query selects, from the start of the query on. -/
def entryLists (b : Bag) (q : Query) : List (List Entry) :=
  ((b.connectionsFor q.topics).filterMap fun c => b.index.entries? c.id).map fun es =>
    es.dropWhile (Lane.isEarly q.start)

/-- The places of the messages that a query selects, in order of time. -/
def entries (b : Bag) (q : Query) : Merge := Merge.ofLists (b.entryLists q) q.start q.stop

end Bag

end BagFile
