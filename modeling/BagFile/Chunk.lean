/-
  What is known about a chunk without reading its contents.

  * `Chunk` holds where a chunk is, when its messages were recorded, how many there are of
    each connection, and how it is stored;
  * `Chunk.find` looks a chunk up by its position in a table sorted by position; of several
    with one position the last is found.
-/
import BagFile.Compression
import BagFile.Time

namespace BagFile

/-- How many messages of a connection a chunk has. -/
structure ConnectionCount where
  conn : UInt32
  count : UInt32
  deriving DecidableEq

/-- What is known about a chunk without reading its contents. -/
structure Chunk where
  /-- the position of the chunk's record -/
  recordPos : UInt64
  /-- the position of the length of the chunk's data -/
  dataPos : UInt64
  startTime : Time
  endTime : Time
  connections : List ConnectionCount
  compression : Compression
  sizeUncompressed : UInt32
  sizeCompressed : UInt32
  deriving DecidableEq

namespace Chunk

/-- How many messages a chunk has. -/
def messageCount (c : Chunk) : Nat := (c.connections.map fun n => n.count.toNat).sum

/-- Halves the stretch of `size` chunks from `base` on until one is left: the last at or
    before a position, if there is any. -/
def narrow (chunks : Array Chunk) (pos : UInt64) (base size : Nat) : Nat :=
  if size ≤ 1 then base
  else
    let mid := base + size / 2
    let beyond := (chunks[mid]?).any fun c => pos < c.recordPos
    narrow chunks pos (if beyond then base else mid) (size - size / 2)
termination_by size

/-- The chunk whose record is at a position, in a table sorted by position. -/
def find (chunks : List Chunk) (pos : UInt64) : Except Error Chunk :=
  let table := chunks.toArray
  match table[narrow table pos 0 table.size]? with
  | some c => if c.recordPos = pos then .ok c else .error (.unknownChunk pos)
  | none => .error (.unknownChunk pos)

end Chunk

end BagFile
