/-
  Fetching messages out of chunks.

  * `RawMessage.ofChunk` says which message an offset in the contents of a chunk stands for;
  * a `Cache` keeps the contents of chunks by position, and a `Loaded` chunk knows the message
    that was looked up in it last;
  * a `Fetcher` remembers the chunk it read last, and may share a cache.  All this only saves
    work: `Fetcher.load` says what the contents of a chunk are, and a look-up in a loaded chunk
    is one in its contents (`Loaded.lookUp_fst`).
-/
import BagFile.Chunk
import BagFile.Codec
import BagFile.Header
import BagFile.Index

namespace BagFile

/-! ## Messages in chunks -/

/-- A message as it stands in a chunk. -/
structure RawMessage where
  conn : UInt32
  time : Time
  data : Dense
  deriving DecidableEq

namespace RawMessage

/-- The message at the cursor, behind at most so many records less one.  Connection records
    are passed over; a record of another kind means that the index and the chunk disagree. -/
def atCursor : Nat → Cursor.Op RawMessage
  | 0 => throw (.truncated 4 0)
  | records + 1 => do
    let block ← Fields.readCursor
    match ← MonadExcept.ofExcept block.kind with
    | .connection =>
      Cursor.skipSized
      atCursor records
    | .messageData =>
      let header : MessageHeader ← MonadExcept.ofExcept (Header.ofFields block)
      let data ← Cursor.readSized
      return ⟨header.conn, header.time, data⟩
    | actual => throw (.unexpectedKind .messageData actual)

/-- The message at an offset in the contents of a chunk.  A record takes eight bytes at
    least. -/
def ofChunk (contents : Dense) (offset : Nat) : Except Error RawMessage :=
  let op : Cursor.Op RawMessage := do
    Cursor.seek offset
    atCursor (contents.size / 8 + 1)
  match op.run (Cursor.start contents) with
  | .ok m _ => .ok m
  | .error e _ => .error e

end RawMessage

/-! ## Kept contents -/

/-- Contents of chunks by position, in order of insertion. -/
structure Cache where
  chunks : List (UInt64 × Dense)
  deriving DecidableEq

namespace Cache

/-- A cache that keeps nothing yet. -/
def empty : Cache := ⟨[]⟩

/-- The contents kept for a position. -/
def get? (c : Cache) (pos : UInt64) : Option Dense :=
  (c.chunks.find? (·.1 = pos)).map Prod.snd

/-- Keeps contents for a position, in place of others. -/
def insert (c : Cache) (pos : UInt64) (contents : Dense) : Cache :=
  ⟨c.chunks.filter (·.1 ≠ pos) ++ [(pos, contents)]⟩

/-- For how many positions contents are kept. -/
def size (c : Cache) : Nat := c.chunks.length

end Cache

/-- A chunk that has been read, and what was looked up in it last. -/
structure Loaded where
  pos : UInt64
  contents : Dense
  /-- an offset, and the message there or the error in its place -/
  found : Option (Nat × Except Error RawMessage)
  found_eq : ∀ x ∈ found, x.2 = RawMessage.ofChunk contents x.1

namespace Loaded

/-- A chunk in which nothing has been looked up. -/
def start (pos : UInt64) (contents : Dense) : Loaded := ⟨pos, contents, none, by simp⟩

/-- Looks a message up in the contents, and notes it. -/
def search (l : Loaded) (offset : Nat) : Except Error RawMessage × Loaded :=
  let message := RawMessage.ofChunk l.contents offset
  (message, ⟨l.pos, l.contents, some (offset, message), by simp [message]⟩)

/-- The message at an offset, and the chunk with that noted. -/
def lookUp (l : Loaded) (offset : Nat) : Except Error RawMessage × Loaded :=
  match l.found with
  | some (at_, message) => if at_ = offset then (message, l) else l.search offset
  | none => l.search offset

theorem lookUp_fst (l : Loaded) (offset : Nat) :
    (l.lookUp offset).1 = RawMessage.ofChunk l.contents offset := by
  unfold lookUp
  split
  · next at_ message h =>
    split
    · next he => rw [← he]; exact l.found_eq _ h
    · rfl
  · rfl

end Loaded

/-! ## Fetchers -/

/-- What a fetcher remembers. -/
structure Fetcher where
  /-- the shared cache, if there is one -/
  cache : Option Cache
  /-- the chunk read last -/
  last : Option Loaded

namespace Fetcher

/-- An operation of a fetcher. -/
abbrev Op (α : Type) := EStateM Error Fetcher α

/-- A fetcher that has read nothing. -/
def start (cache : Option Cache) : Fetcher := ⟨cache, none⟩

/-- The most memory that is set aside for the contents of a chunk before they are read, as the
    size in its header may be anything. -/
def maxRoom : Nat := 64 * 1024 * 1024

variable [Codec.Formats]

/-- The contents of a chunk in a source: what its data decompresses to, cut to the size in its
    header, which must be there. -/
def load (source : Stream) (chunk : Chunk) : Except Error Dense := do
  let codec ← Codec.ofCompression chunk.compression
  let read : Stream.Op Dense := do
    Stream.seek chunk.dataPos.toNat
    Stream.readSized
  let stored ←
    match read.run source with
    | .ok stored _ => .ok stored
    | .error e _ => .error e
  let size := chunk.sizeUncompressed.toNat
  let data ← codec.decompress stored (min size maxRoom)
  if data.size < size then .error (.truncated size data.size)
  else .ok (data.extract 0 size)

/-- The chunk at a position: the one read last, one in the cache, or one read from the source,
    which is then in the cache. -/
def chunkAt (source : Stream) (chunks : List Chunk) (pos : UInt64) : Op Loaded := do
  let f ← get
  match f.last.filter (·.pos = pos) with
  | some chunk => return chunk
  | none =>
    match f.cache.bind (·.get? pos) with
    | some contents => return .start pos contents
    | none =>
      let chunk ← MonadExcept.ofExcept (Chunk.find chunks pos)
      let contents ← MonadExcept.ofExcept (load source chunk)
      modify fun f => { f with cache := f.cache.map (·.insert pos contents) }
      return .start pos contents

/-- The contents of the chunk at a position, which is then the one read last. -/
def chunkData (source : Stream) (chunks : List Chunk) (pos : UInt64) : Op Dense := do
  let chunk ← chunkAt source chunks pos
  modify fun f => { f with last := some chunk }
  return chunk.contents

/-- The message that an entry of the index points at; its chunk is then the one read last. -/
def resolve (source : Stream) (chunks : List Chunk) (e : Entry) : Op RawMessage := do
  let (message, chunk) := (← chunkAt source chunks e.chunkPos).lookUp e.offset.toNat
  modify fun f => { f with last := some chunk }
  MonadExcept.ofExcept message

end Fetcher

end BagFile
