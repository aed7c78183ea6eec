/-
  What there is to say about a whole bag.

  * `Summary.ofBag` counts messages, chunks and connections;
  * `Summary.text` lays the summary out in lines.
-/
import BagFile.Bag

namespace BagFile

/-- What there is to say about a topic. -/
structure TopicSummary where
  topic : String
  typeName : String
  md5sum : String
  messageCount : Nat
  /-- how many connections there are on the topic -/
  connections : Nat
  deriving DecidableEq

/-- What there is to say about a bag. -/
structure Summary where
  path : String
  startTime : Option Time
  endTime : Option Time
  messageCount : Nat
  chunkCount : Nat
  /-- how many chunks there are of each compression, by name -/
  compression : List (String × Nat)
  sizeCompressed : Nat
  sizeUncompressed : Nat
  /-- the topics, by name -/
  topics : List TopicSummary
  deriving DecidableEq

namespace Summary

/-- How many messages a connection has. -/
def countOf (b : Bag) (c : Connection) : Nat :=
  ((b.index.entries? c.id).map List.length).getD 0

/-- The summary of a topic; its type is that of its first connection. -/
def ofTopic (b : Bag) (topic : String) : TopicSummary :=
  let connections := b.connections.filter (·.topic = topic)
  { topic := topic
    typeName := (connections.head?.map Connection.typeName).getD ""
    md5sum := (connections.head?.map Connection.md5sum).getD ""
    messageCount := (connections.map (countOf b)).sum
    connections := connections.length }

/-- The summary of a bag. -/
def ofBag (b : Bag) : Summary :=
  let names := b.chunks.map fun c => c.compression.name
  { path := b.path
    startTime := b.index.startTime?
    endTime := b.index.endTime?
    messageCount := b.messageCount
    chunkCount := b.chunks.length
    compression := (Bag.distinct names).map fun n => (n, names.count n)
    sizeCompressed := (b.chunks.map fun c => c.sizeCompressed.toNat).sum
    sizeUncompressed := (b.chunks.map fun c => c.sizeUncompressed.toNat).sum
    topics := b.topics.map (ofTopic b) }

/-- The time from the first message to the last. -/
def duration (s : Summary) : Duration :=
  match s.startTime, s.endTime with
  | some first, some last => last - first
  | _, _ => Duration.zero

/-! ## Layout -/

/-- A text filled up with spaces behind it. -/
def padRight (width : Nat) (s : String) : String := s.pushn ' ' (width - s.length)

/-- A text filled up with spaces in front of it. -/
def padLeft (width : Nat) (s : String) : String := "".pushn ' ' (width - s.length) ++ s

/-- The line of a topic. -/
def topicLine (t : TopicSummary) : String :=
  "  " ++ padRight 32 t.topic ++ " " ++ padLeft 8 (toString t.messageCount) ++ " msgs : " ++
    t.typeName ++ (if 1 < t.connections then s!" ({t.connections} connections)" else "")

/-- How the chunks are stored, in a line. -/
def compressionText (s : Summary) : String :=
  if s.compression.isEmpty then "none"
  else ", ".intercalate (s.compression.map fun c => s!"{c.1} [{c.2}/{s.chunkCount} chunks]")

/-- The lines of a summary. -/
def lines (s : Summary) : List String :=
  ["path:        " ++ s.path, "version:     2.0", "duration:    " ++ s.duration.text] ++
    (match s.startTime, s.endTime with
      | some first, some last => ["start:       " ++ first.text, "end:         " ++ last.text]
      | _, _ => ["start/end:   (empty)"]) ++
    [s!"messages:    {s.messageCount}", "compression: " ++ s.compressionText,
      s!"size:        {s.sizeCompressed} bytes ({s.sizeUncompressed} uncompressed)",
      "topics:"] ++
    s.topics.map topicLine

/-- A summary as text, each line ended by a line feed. -/
def text (s : Summary) : String := String.join (s.lines.map (· ++ "\n"))

end Summary

end BagFile
