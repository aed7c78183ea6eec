/-
  Recording a bag.

  * A `Recorder` writes a bag to a tape: chunks one after the other, each with its messages
    and their index, and at the end the tables.  What it may do next hangs on its `Phase`;
  * a call that does not fit the phase is refused before anything is written; a failure after
    that leaves the recorder in the phase `failed`;
  * lengths and headers that are not known yet are written as placeholders and filled in
    later.  They have fixed width, so filling them in moves nothing.
-/
import BagFile.Codec
import BagFile.Connection
import BagFile.Layout
import BagFile.Settings
import BagFile.Table

namespace BagFile

/-- A chunk that takes messages.  Its contents are collected before they are stored. -/
structure OpenChunk where
  /-- the position of the chunk's record -/
  recordPos : Nat
  compression : Compression
  codec : Codec
  /-- what each message added to the contents, latest first -/
  pieces : List Dense
  /-- the length of the contents -/
  size : Nat
  /-- the connection, time and offset of each message, latest first -/
  entries : List (UInt32 × Time × UInt32)
  size_eq : size = (pieces.map ByteArray.size).sum
  deriving DecidableEq

namespace OpenChunk

/-- A chunk without messages. -/
def start (recordPos : Nat) (compression : Compression) (codec : Codec) : OpenChunk :=
  ⟨recordPos, compression, codec, [], 0, [], rfl⟩

/-- The chunk after a message: its bytes, connection, time and offset. -/
def push (chunk : OpenChunk) (piece : Dense) (conn : UInt32) (time : Time) (offset : UInt32) :
    OpenChunk :=
  { chunk with
    pieces := piece :: chunk.pieces
    size := piece.size + chunk.size
    entries := (conn, time, offset) :: chunk.entries
    size_eq := by simp [chunk.size_eq] }

/-- The contents so far. -/
def contents (chunk : OpenChunk) : Dense := .join chunk.pieces.reverse

/-- The connection, time and offset of each message, in order. -/
def rows (chunk : OpenChunk) : List (UInt32 × Time × UInt32) := chunk.entries.reverse

theorem size_contents (chunk : OpenChunk) : chunk.contents.size = chunk.size := by
  rw [contents, Dense.size_join, List.map_reverse, List.sum_reverse, chunk.size_eq]

end OpenChunk

/-- What the tables at the end of a bag need to know about a chunk. -/
structure ClosedChunk where
  recordPos : Nat
  startTime : Time
  endTime : Time
  connections : List ConnectionCount
  deriving DecidableEq

/-- How far a recording has come, and the chunk that takes messages, if there is one.  The two
    might be fields of their own, a state and an optional chunk, but they only move together:
    opening a chunk sets both (`Recorder.reserveChunk`), closing it takes the chunk and moves
    the state on (`Recorder.endChunk`), and a failure on the way drops the chunk and sets the
    state `failed` (`Recorder.guarded`).  So there is a chunk exactly in the state
    `chunkOpen`, and the two are one value. -/
inductive Phase where
  /-- the header is reserved, and there is no chunk yet -/
  | headerReserved
  /-- a chunk takes messages -/
  | chunkOpen (chunk : OpenChunk)
  /-- the last chunk is closed -/
  | chunkClosed
  /-- the tables and the header are written -/
  | finalized
  /-- something could not be written -/
  | failed
  deriving DecidableEq

/-- The chunk that takes messages, if there is one. -/
def Phase.chunk? : Phase → Option OpenChunk
  | .chunkOpen chunk => some chunk
  | _ => none

/-- A recording under way. -/
structure Recorder where
  tape : Tape
  settings : Settings
  phase : Phase
  /-- the connections, each at the place of its id -/
  connections : List Connection
  /-- the connections whose record stands in some chunk -/
  announced : List UInt32
  /-- the chunks that are closed, in order -/
  chunks : List ClosedChunk
  messageCount : Nat
  deriving DecidableEq

namespace Recorder

/-- An operation of a recorder: it may fail, and leaves the recorder somewhere either way. -/
abbrev Op (α : Type) := EStateM Error Recorder α

/-! ## Guards -/

/-- Works on the tape. -/
def onTape {α : Type} (op : Tape.Op α) : Op α :=
  fun ⟨tape, settings, phase, connections, announced, chunks, messageCount⟩ =>
    match op.run tape with
    | .ok a t => .ok a ⟨t, settings, phase, connections, announced, chunks, messageCount⟩
    | .error e t => .error e ⟨t, settings, phase, connections, announced, chunks, messageCount⟩

/-- Refuses a recorder that is done with its file. -/
def checkWritable : Op Unit := do
  match (← get).phase with
  | .finalized => throw (.writer .finalized)
  | .failed => throw (.writer .abandoned)
  | _ => return ()

/-- Marks the recorder as failed if a step fails. -/
def guarded {α : Type} (step : Op α) : Op α := fun r =>
  match step.run r with
  | .ok a r => .ok a r
  | .error e r => .error e { r with phase := .failed }

/-! ## The header -/

/-- Writes the header record in its place, padded to its fixed length. -/
def writeHeader (h : FileHeader) : Tape.Op Unit := do
  Tape.seek Layout.headerPos
  let _ ← Header.write h
  let used := (← Tape.position) - Layout.headerPos
  if Layout.headerLength < used + 4 then throw (.writer (.headerTooLong used))
  let slot ← Slot.reserve
  Tape.write (.replicate (Layout.headerLength - (used + 4)) Layout.padding)
  let _ ← slot.commit

/-- Writes the version line, and reserves the header. -/
def writePreamble : Tape.Op Unit := do
  Tape.write Layout.versionLine
  writeHeader FileHeader.placeholder

/-- A recorder on an empty tape. -/
def create (settings : Settings) : Except Error Recorder := do
  settings.check
  match writePreamble.run Tape.empty with
  | .ok _ tape =>
    return {
      tape := tape
      settings := settings
      phase := .headerReserved
      connections := []
      announced := []
      chunks := []
      messageCount := 0 }
  | .error e _ => throw e

/-! ## Connections -/

/-- Adds a connection and gives its id.  Ids count from zero; the one in `c` is ignored. -/
def addConnection (c : Connection) : Op UInt32 := do
  checkWritable
  let r ← get
  let id := UInt32.ofNat r.connections.length
  set { r with connections := r.connections ++ [{ c with id := id }] }
  return id

/-! ## Chunks -/

/-- Writes the header of a chunk at the end of the file; its size is not known yet.  The place
    for the length of its data is reserved when the chunk is closed: until then nothing
    follows. -/
def reserveChunk (compression : Compression) (codec : Codec) : Op Unit := do
  let pos ← onTape Tape.toEnd
  let _ ← onTape (Header.write ({ compression := compression, size := 0 } : ChunkHeader))
  modify fun r => { r with phase := .chunkOpen (.start pos compression codec) }

/-- Opens a chunk. -/
def beginChunk (compression : Compression) : Op Unit := do
  checkWritable
  if (← get).phase.chunk?.isSome then throw (.writer .chunkOpen)
  let codec ← MonadExcept.ofExcept (Codec.ofCompression compression)
  guarded (reserveChunk compression codec)

/-- Writes what a message adds to contents of so many bytes: first the record of its
    connection if that is due, then its own.  Gives the offset of the latter. -/
def writeMessage (size : Nat) (announce : Option Connection) (conn : UInt32) (time : Time)
    (data : Dense) : Tape.Op UInt32 := do
  if let some c := announce then c.write
  let offset := size + (← Tape.position)
  if 2 ^ 32 ≤ offset then throw (.writer .offsetTooLarge)
  let _ ← Header.write ({ conn := conn, time := time } : MessageHeader)
  let slot ← Slot.reserve
  Tape.write data
  let _ ← slot.commit
  return UInt32.ofNat offset

/-- Adds a message of a known connection to a chunk. -/
def appendTo (chunk : OpenChunk) (c : Connection) (conn : UInt32) (time : Time) (data : Dense) :
    Op Unit := do
  let r ← get
  let announce := if r.announced.contains conn then none else some c
  match (writeMessage chunk.size announce conn time data).run Tape.empty with
  | .error e _ => throw e
  | .ok offset piece =>
    set { r with
      phase := .chunkOpen (chunk.push piece.data conn time offset)
      announced := if announce.isSome then r.announced ++ [conn] else r.announced
      messageCount := r.messageCount + 1 }

/-- Adds a message to the open chunk. -/
def append (conn : UInt32) (time : Time) (data : Dense) : Op Unit := do
  checkWritable
  let r ← get
  match r.connections[conn.toNat]? with
  | none => throw (.unknownConnection conn)
  | some c =>
    match r.phase.chunk? with
    | none => throw (.writer .noChunkOpen)
    | some chunk => guarded (appendTo chunk c conn time data)

/-- The connections of a chunk, ascending, each with its rows in order of time. -/
def indexOf (rows : List (UInt32 × Time × UInt32)) : List (UInt32 × List (Time × UInt32)) :=
  let conns := (rows.map Prod.fst).eraseDups.mergeSort fun a b => a ≤ b
  conns.map fun c =>
    (c, ((rows.filter (·.1 = c)).map Prod.snd).mergeSort fun a b => a.1 ≤ b.1)

/-- Writes a table: a place for its length, and the parts of its rows one by one. -/
def writeTable (parts : List Dense) : Tape.Op Unit := do
  let slot ← Slot.reserve
  parts.forM Tape.write
  let _ ← slot.commit

/-- Writes the index record of a connection of a chunk. -/
def writeIndexRecord (x : UInt32 × List (Time × UInt32)) : Tape.Op Unit := do
  let count := UInt32.ofNat x.2.length
  let _ ← Header.write ({ version := recordVersion, conn := x.1, count := count } : IndexHeader)
  writeTable (x.2.flatMap Table.indexParts)

variable [Codec.Formats]

/-- Writes the data of a chunk, fills in the size in its header, and writes its index. -/
def writeChunk (chunk : OpenChunk) : Tape.Op Unit := do
  if 2 ^ 32 ≤ chunk.size then throw (.writer .chunkTooLong)
  let slot ← Slot.reserve
  Tape.write (← MonadExcept.ofExcept (chunk.codec.store chunk.contents))
  let _ ← slot.commit
  let stop ← Tape.position
  Tape.seek chunk.recordPos
  let size := UInt32.ofNat chunk.size
  let _ ← Header.write ({ compression := chunk.compression, size := size } : ChunkHeader)
  if (← Tape.position) ≠ slot.pos then throw (.writer (.headerMoved chunk.recordPos))
  Tape.seek stop
  (indexOf chunk.rows).forM writeIndexRecord

/-- The data of a chunk can always be stored. -/
theorem ofExcept_store (codec : Codec) (d : Dense) :
    (MonadExcept.ofExcept (codec.store d) : Tape.Op Dense) = pure (codec.compress d) := by
  rw [Codec.store_eq]
  rfl

/-- What the tables need to know about a chunk. -/
def closed (chunk : OpenChunk) : ClosedChunk :=
  let times := chunk.rows.map fun row => row.2.1
  { recordPos := chunk.recordPos
    startTime := (Index.earliest? times).getD Time.zero
    endTime := (Index.latest? times).getD Time.zero
    connections := (indexOf chunk.rows).map fun x => ⟨x.1, UInt32.ofNat x.2.length⟩ }

/-- Closes the open chunk. -/
def endChunk : Op Unit := do
  checkWritable
  match (← get).phase.chunk? with
  | none => throw (.writer .noChunkOpen)
  | some chunk =>
    guarded do
      onTape (writeChunk chunk)
      modify fun r => { r with
        phase := .chunkClosed
        chunks := r.chunks ++ [closed chunk] }

/-- Adds a message, with chunks opened and closed as the settings say: a chunk is closed when
    its contents have reached the threshold. -/
def write (conn : UInt32) (time : Time) (data : Dense) : Op Unit := do
  let r ← get
  if r.phase.chunk?.isNone then beginChunk r.settings.compression
  append conn time data
  let r ← get
  match r.phase.chunk? with
  | some chunk =>
    if r.settings.chunkThreshold.toNat ≤ chunk.size then endChunk
  | none => return ()

/-! ## The end of a bag -/

/-- Writes the summary of a chunk. -/
def writeSummary (chunk : ClosedChunk) : Tape.Op Unit := do
  let _ ← Header.write ({
    version := recordVersion
    chunkPos := UInt64.ofNat chunk.recordPos
    startTime := chunk.startTime
    endTime := chunk.endTime
    count := UInt32.ofNat chunk.connections.length } : ChunkInfoHeader)
  writeTable (chunk.connections.flatMap Table.countParts)

/-- Writes the tables at the end of the file, and the header with their position. -/
def writeTables (connections : List Connection) (chunks : List ClosedChunk) :
    Tape.Op FileHeader := do
  let pos ← Tape.toEnd
  connections.forM Connection.write
  chunks.forM writeSummary
  let header : FileHeader := {
    indexPos := UInt64.ofNat pos
    connCount := UInt32.ofNat connections.length
    chunkCount := UInt32.ofNat chunks.length }
  writeHeader header
  return header

/-- Closes the open chunk, if there is one, and ends the bag; gives its header. -/
def finalize : Op FileHeader := do
  checkWritable
  if (← get).phase.chunk?.isSome then endChunk
  guarded do
    let r ← get
    let header ← onTape (writeTables r.connections r.chunks)
    modify fun r => { r with phase := .finalized }
    return header

/-- The tape when the recorder is given up.  An open chunk has the place for the length of its
    data by then. -/
def release (r : Recorder) : Tape :=
  match r.phase with
  | .chunkOpen _ =>
    match Slot.reserve.run r.tape with
    | .ok _ t | .error _ t => t
  | _ => r.tape

end Recorder

end BagFile
