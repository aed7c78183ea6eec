/-
  The kinds of records that make up a bag.

  * `Kind` lists them, each known in a file by one byte (`Kind.byte`);
  * `Kind.ofByte?_eq_some_iff`: a byte names a kind exactly when it is that kind's byte;
  * `Kind.required` are the header fields that a record of the kind must carry besides its
    kind.
-/

namespace BagFile

/-- A kind of record. -/
inductive Kind where
  /-- one message; its data is the payload -/
  | messageData
  /-- the file header; its data is padding -/
  | header
  /-- times and offsets of one connection's messages in one chunk -/
  | indexData
  /-- a group of connection and message records, stored as one unit -/
  | chunk
  /-- what a chunk holds, without its contents -/
  | chunkInfo
  /-- the description of a stream of messages -/
  | connection
  deriving DecidableEq

namespace Kind

/-- Every kind, in the order of their bytes. -/
def all : List Kind := [messageData, header, indexData, chunk, chunkInfo, connection]

/-- The byte that names a kind in a file. -/
def byte : Kind → UInt8
  | messageData => 0x02
  | header => 0x03
  | indexData => 0x04
  | chunk => 0x05
  | chunkInfo => 0x06
  | connection => 0x07

/-- The kind that a byte names. -/
def ofByte? (b : UInt8) : Option Kind := all.find? (·.byte = b)

theorem ofByte?_eq_some_iff {b : UInt8} {k : Kind} : ofByte? b = some k ↔ b = k.byte := by
  constructor
  · intro h
    have hb := List.find?_some h
    simpa [eq_comm] using hb
  · rintro rfl
    cases k <;> rfl

/-- The name of a kind. -/
def name : Kind → String
  | messageData => "MESSAGE_DATA"
  | header => "HEADER"
  | indexData => "INDEX_DATA"
  | chunk => "CHUNK"
  | chunkInfo => "CHUNK_INFO"
  | connection => "CONNECTION"

/-- A kind as error messages show it: its name and its byte. -/
def text (k : Kind) : String := k.name ++ " [0x0" ++ toString k.byte.toNat ++ "]"

/-- The header fields that a record of this kind must carry besides its kind. -/
def required : Kind → List String
  | messageData => ["conn", "time"]
  | header => ["index_pos", "conn_count", "chunk_count"]
  | indexData => ["ver", "conn", "count"]
  | chunk => ["compression", "size"]
  | chunkInfo => ["ver", "chunk_pos", "start_time", "end_time", "count"]
  | connection => ["conn", "topic"]

end Kind

end BagFile
