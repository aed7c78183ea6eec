/-
  What can go wrong with a bag, and how it is told.

  * `Error` has one constructor for each cause; the causes behind an unreadable record header
    are `HeaderFault`, those behind a misused recorder or a block that does not fit `WriterFault`;
  * `Error.message` is the text of an error.
-/
import BagFile.Kind
import BagFile.Text.Quoted

namespace BagFile

/-- Why the header of a record cannot be read. -/
inductive HeaderFault where
  | missingField (name : String)
  | kindWidth (width : Nat)
  | fieldPastEnd (offset size : Nat)
  | noSeparator (field : String)
  | nameNotText
  | valueNotText (name : String)
  | incomplete (kind : Kind) (name : String)
  | version (kind : Kind) (found expected : UInt32)
  | connectionIncomplete (conn : UInt32) (name : String)
  | chunkInfoLength (chunkPos : UInt64) (count : UInt32) (length expected : Nat)
  | indexLength (conn : UInt32) (length : Nat) (count : UInt32) (expected : Nat)
  deriving DecidableEq

/-- Why a recorder refuses a call, or a block cannot be written. -/
inductive WriterFault where
  | behindSlot (slot : Nat)
  | blockTooLong (length : Nat)
  | chunkOpen
  | noChunkOpen
  | finalized
  | abandoned
  | headerTooLong (used : Nat)
  | offsetTooLarge
  | chunkTooLong
  | headerMoved (pos : Nat)
  deriving DecidableEq

/-- What can go wrong with a bag. -/
inductive Error where
  | io
  | unsupportedVersion (line : String)
  | malformedHeader (fault : HeaderFault)
  | unexpectedKind (expected actual : Kind)
  | unknownKind (byte : UInt8)
  | truncated (needed available : Nat)
  | unindexed (indexPos : UInt64)
  | unknownConnection (conn : UInt32)
  | unknownChunk (pos : UInt64)
  | unsupportedCompression (name : String)
  | decompression (codec : String)
  | writer (fault : WriterFault)
  | zeroThreshold
  deriving DecidableEq

/-! ## Wording -/

/-- The text of a header fault. -/
def HeaderFault.message : HeaderFault → String
  | missingField name => s!"missing field '{name}'"
  | kindWidth width => s!"op field must be 1 byte, got {width}"
  | fieldPastEnd offset size =>
    s!"field length at offset {offset} runs past the end of a {size}-byte block"
  | noSeparator field => "field without '=' separator: " ++ Text.quote field
  | nameNotText => "field name is not valid UTF-8"
  | valueNotText name => s!"field '{name}' is not valid UTF-8"
  | incomplete kind name => s!"{kind.name} record is missing field '{name}'"
  | version kind found expected => s!"{kind.name} record version {found} (expected {expected})"
  | connectionIncomplete conn name => s!"connection {conn} data is missing field '{name}'"
  | chunkInfoLength chunkPos count length expected =>
    s!"chunk info for {chunkPos} lists {count} connections in {length} bytes (expected {expected})"
  | indexLength conn length count expected =>
    s!"index data for connection {conn} holds {length} bytes for {count} entries " ++
      s!"(expected {expected})"

/-- The text of a writer fault. -/
def WriterFault.message : WriterFault → String
  | behindSlot slot => s!"writer moved before reserved block at {slot}"
  | blockTooLong length => s!"block of {length} bytes exceeds the 4 GiB limit"
  | chunkOpen => "a chunk is already open"
  | noChunkOpen => "no chunk is open"
  | finalized => "bag has already been finalized"
  | abandoned => "an earlier write failed; the bag is abandoned"
  | headerTooLong used => s!"header record of {used} bytes does not fit"
  | offsetTooLarge => "chunk exceeds the 4 GiB offset limit"
  | chunkTooLong => "chunk exceeds the 4 GiB size limit"
  | headerMoved pos => s!"chunk header at {pos} changed size when patched"

/-- A byte as two hexadecimal digits. -/
def hexByte (b : UInt8) : String :=
  let digits := Text.hex b.toNat
  String.ofList (List.replicate (2 - digits.length) '0' ++ digits)

/-- The text of an error. -/
def Error.message : Error → String
  | io => "IO error"
  | unsupportedVersion line => "Unsupported bag version: " ++ Text.quote line
  | malformedHeader fault => "Malformed header: " ++ fault.message
  | unexpectedKind expected actual =>
    s!"Unexpected opcode: expected {expected.text} but was {actual.text}"
  | unknownKind byte => "Unknown opcode: 0x" ++ hexByte byte
  | truncated needed available => s!"Truncated input: needed {needed} bytes, {available} available"
  | unindexed indexPos => s!"Bag was never finalized (index position {indexPos})"
  | unknownConnection conn => s!"Unknown connection id: {conn}"
  | unknownChunk pos => s!"No chunk at record position {pos}"
  | unsupportedCompression name => "Unsupported compression: " ++ name
  | decompression codec => "Decompression failed: " ++ codec
  | writer fault => "Writer state error: " ++ fault.message
  | zeroThreshold => "Configuration error: chunk_threshold must be greater than zero"

end BagFile
