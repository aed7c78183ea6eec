/-
  The messages of a bag.

  * `Messages` is a query under way: the merge of the selected entries, and a fetcher;
  * `Messages.next` fetches the message of the next entry.  An entry whose message cannot be
    fetched gives an error, and the next call goes on behind it.
-/
import BagFile.Bag
import BagFile.Fetcher

namespace BagFile

/-- A message of a bag, with its payload as it was recorded. -/
structure Message where
  connection : Connection
  time : Time
  data : Dense
  deriving DecidableEq

/-- A query under way. -/
structure Messages where
  entries : Merge
  fetcher : Fetcher

/-- The cache that the fetchers of a bag share, if its settings want one. -/
def Bag.sharedCache (b : Bag) (cache : Cache) : Option Cache :=
  if b.settings.cacheChunks then some cache else none

namespace Messages

/-- A query of a bag, with the cache that the bag's fetchers share. -/
def start (b : Bag) (q : Query) (cache : Cache) : Messages :=
  ⟨b.entries q, Fetcher.start (b.sharedCache cache)⟩

variable [Codec.Formats]

/-- Fetches the message of an entry; it must belong to a connection of the bag. -/
def fetch (b : Bag) (source : Stream) (e : Entry) : Fetcher.Op Message := do
  let raw ← Fetcher.resolve source b.chunks e
  match b.connection? raw.conn with
  | some c => return ⟨c, raw.time, raw.data⟩
  | none => throw (.unknownConnection raw.conn)

/-- The next message, or the error in its place, if there is one more. -/
def next (b : Bag) (source : Stream) (m : Messages) : Option (Except Error Message) × Messages :=
  match m.entries.next with
  | (none, rest) => (none, { m with entries := rest })
  | (some e, rest) =>
    match (fetch b source e).run m.fetcher with
    | .ok message f => (some (.ok message), ⟨rest, f⟩)
    | .error error f => (some (.error error), ⟨rest, f⟩)

/-- At most `n` more messages, and the query after them. -/
def take (b : Bag) (source : Stream) :
    Nat → Messages → List (Except Error Message) × Messages
  | 0, m => ([], m)
  | n + 1, m =>
    match next b source m with
    | (none, m) => ([], m)
    | (some r, m) =>
      let (rs, m) := take b source n m
      (r :: rs, m)

/-- The messages that are left, and the query after them. -/
def toList (b : Bag) (source : Stream) (m : Messages) : List (Except Error Message) × Messages :=
  take b source m.entries.size m

end Messages

end BagFile
