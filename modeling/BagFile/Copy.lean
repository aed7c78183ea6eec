/-
  Copying the messages that a query selects into a new bag.

  * `copy` opens a bag, creates another, records the selected connections and messages in it,
    and finalizes it; the first failure ends the copy, with the new file as it is by then;
  * the new file is created before the first message is read, and each message is written
    before the next one is read.  So a copy onto its own source finds the source emptied.
-/
import BagFile.Session

namespace BagFile

/-- A copy under way. -/
structure Copy where
  volume : Volume
  source : Reading
  target : Recording
  deriving DecidableEq

namespace Copy

/-- A step of a copy. -/
abbrev Op (α : Type) := EStateM Error Copy α

/-- Runs an operation of the target's recorder. -/
def record {α : Type} (op : Recorder.Op α) : Op α := fun ⟨volume, source, target⟩ =>
  match target.run volume op with
  | (.ok a, w, v) => .ok a ⟨v, source, w⟩
  | (.error e, w, v) => .error e ⟨v, source, w⟩

variable [Codec.Formats]

/-- Reads the next message of the source, and gives the query after it. -/
def next (h : Handle) (m : Messages) : Op (Option (Except Error Message) × Messages) := do
  let c ← get
  let (message, m, source) := c.source.next c.volume h m
  set { c with source := source }
  return (message, m)

/-- Adds connections to the target; gives their old ids with the new ones. -/
def addConnections : List Connection → Op (List (UInt32 × UInt32))
  | [] => return []
  | c :: cs => do
    let id ← record (Recorder.addConnection c)
    let ids ← addConnections cs
    return (c.id, id) :: ids

/-- The new id for an old one; of several the last counts. -/
def newId? (ids : List (UInt32 × UInt32)) (id : UInt32) : Option UInt32 :=
  (ids.reverse.find? (·.1 = id)).map Prod.snd

/-- Copies at most `n` messages.  Those whose connection is not in the target are left out. -/
def messages (ids : List (UInt32 × UInt32)) (h : Handle) : Nat → Messages → Op Unit
  | 0, _ => return ()
  | n + 1, m => do
    match ← next h m with
    | (none, _) => return ()
    | (some (.error e), _) => throw e
    | (some (.ok message), m) =>
      if let some id := newId? ids message.connection.id then
        record (Recorder.write id message.time message.data)
      messages ids h n m

/-- Copies everything that a query selects, and finalizes the target; gives its header. -/
def run (q : Query) : Op FileHeader := do
  let ids ← addConnections ((← get).source.bag.connectionsFor q.topics)
  let c ← get
  let h ← MonadExcept.ofExcept (c.source.handle c.volume)
  let m := Messages.start c.source.bag q c.source.cache
  messages ids h m.entries.size m
  record Recorder.finalize

end Copy

/-- Copies what a query selects from one bag into a new one, whose chunks are compressed as
    given; gives the header of the new bag, and the volume after the copy. -/
def copy [Codec.Formats] (v : Volume) (input output : String) (q : Query)
    (compression : Compression) : Except Error FileHeader × Volume :=
  let opened : Except Error Copy := do
    let source ← Reading.load v input Settings.default
    let (target, v) ← Recording.create v output { Settings.default with compression := compression }
    return ⟨v, source, target⟩
  match opened with
  | .error e => (.error e, v)
  | .ok c =>
    match (Copy.run q).run c with
    | .ok header c => (.ok header, c.target.close c.volume)
    | .error e c => (.error e, c.target.close c.volume)

end BagFile
