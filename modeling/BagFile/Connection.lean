/-
  Connections: the streams of messages within a bag.

  * A connection record is an outer header with the id and the topic, and a data block that
    is itself a field block with the rest; `Connection.ofBlocks` joins the two and
    `Connection.dataFields` makes the second;
  * `Connection.read` and `Connection.write` go through a stream and a tape.
-/
import BagFile.Header

namespace BagFile

/-- One stream of messages within a bag. -/
structure Connection where
  id : UInt32
  /-- the topic under which it was recorded -/
  topic : String
  /-- the topic under which it was published -/
  topicOriginal : String
  typeName : String
  md5sum : String
  /-- the text that defines the message type -/
  definition : String
  callerId : Option String
  latching : Option String
  deriving DecidableEq

namespace Connection

/-- Whether the publisher latches its last message. -/
def isLatching (c : Connection) : Bool := c.latching = some "1"

/-- The fields that the data of a connection record must have. -/
def required : List String := ["topic", "type", "md5sum", "message_definition"]

/-- The connection of an outer header and the fields of its data. -/
def ofBlocks (outer inner : Fields) : Except Error Connection := do
  let header : ConnectionHeader ← Header.ofFields outer
  match required.find? (fun name => !inner.contains name) with
  | some name => .error (.malformedHeader (.connectionIncomplete header.conn name))
  | none =>
    return {
      id := header.conn
      topic := header.topic
      topicOriginal := ← inner.requireText "topic"
      typeName := ← inner.requireText "type"
      md5sum := ← inner.requireText "md5sum"
      definition := ← inner.requireText "message_definition"
      callerId := ← inner.optionalText "callerid"
      latching := ← inner.optionalText "latching" }

/-- The outer header of a connection's record. -/
def header (c : Connection) : ConnectionHeader := ⟨c.id, c.topic⟩

/-- The block with a field set, if there is a value for it. -/
def withOptional (f : Fields) (name : String) : Option String → Fields
  | some v => f.insertText name v
  | none => f

/-- The fields of the data of a connection's record. -/
def dataFields (c : Connection) : Fields :=
  let base := Fields.empty
    |>.insertText "topic" c.topicOriginal
    |>.insertText "type" c.typeName
    |>.insertText "md5sum" c.md5sum
    |>.insertText "message_definition" c.definition
  withOptional (withOptional base "callerid" c.callerId) "latching" c.latching

/-- Reads a connection record. -/
def read : Stream.Op Connection := do
  let outer ← Fields.readExpecting .connection
  let inner ← Fields.read
  MonadExcept.ofExcept (ofBlocks outer inner)

/-- Writes a connection record.  The data is a field block, whose length is that of the data. -/
def write (c : Connection) : Tape.Op Unit := do
  let _ ← Header.write c.header
  let _ ← c.dataFields.write

end Connection

end BagFile
