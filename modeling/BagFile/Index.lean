/-
  Where the messages of a bag are.

  * An `Entry` is the place of one message: its time, its chunk, and the offset of its record
    in the contents of the chunk;
  * an `Index` lists the entries of each connection, by time.  `Index.ofRows` says what the index
    of entries is, from the order in which they were read: connections ascending, each with its
    entries stably sorted by time, and no connection without entries;
  * a `Draft` is an index in the making.  Connections are registered, entries are pushed one by
    one, and in the end only the lists out of order are sorted and the empty ones are dropped;
    `Index.build` goes through all that.
-/
import BagFile.Time

namespace BagFile

/-- The place of one message. -/
structure Entry where
  time : Time
  /-- the position of the chunk's record in the file -/
  chunkPos : UInt64
  /-- the offset of the message's record in the contents of the chunk -/
  offset : UInt32
  deriving DecidableEq

/-- Entries in order of time, those of one time as they were. -/
def Entry.sort (es : List Entry) : List Entry := es.mergeSort fun a b => a.time ≤ b.time

/-- The entries of each connection by time, connections ascending. -/
structure Index where
  lists : List (UInt32 × List Entry)
  deriving DecidableEq

namespace Index

/-- The entries of one connection among those of all. -/
def entriesOf (conn : UInt32) (rows : List (UInt32 × Entry)) : List Entry :=
  (rows.filter (·.1 = conn)).map Prod.snd

/-- The index of entries, each with its connection, in the order in which they were read. -/
def ofRows (rows : List (UInt32 × Entry)) : Index :=
  let conns := (rows.map Prod.fst).eraseDups.mergeSort fun a b => a ≤ b
  ⟨conns.map fun c => (c, Entry.sort (entriesOf c rows))⟩

/-- The entries of a connection, if it has any. -/
def entries? (x : Index) (conn : UInt32) : Option (List Entry) :=
  (x.lists.find? (·.1 = conn)).map Prod.snd

/-- Whether a connection has entries. -/
def contains (x : Index) (conn : UInt32) : Bool := (x.entries? conn).isSome

/-- The connections that have entries, ascending. -/
def connections (x : Index) : List UInt32 := x.lists.map Prod.fst

/-- How many entries there are. -/
def messageCount (x : Index) : Nat := (x.lists.map fun l => l.2.length).sum

/-- The earliest of some points in time. -/
def earliest? : List Time → Option Time
  | [] => none
  | t :: ts => some (ts.foldl Time.earlier t)

/-- The latest of some points in time. -/
def latest? : List Time → Option Time
  | [] => none
  | t :: ts => some (ts.foldl Time.later t)

/-- The time of the first message. -/
def startTime? (x : Index) : Option Time :=
  earliest? (x.lists.filterMap fun l => l.2.head?.map Entry.time)

/-- The time of the last message. -/
def endTime? (x : Index) : Option Time :=
  latest? (x.lists.filterMap fun l => l.2.getLast?.map Entry.time)

end Index

/-! ## Indexes in the making -/

/-- The entries read so far: connections ascending, the entries of each latest first. -/
structure Draft where
  lists : List (UInt32 × List Entry)
  deriving DecidableEq

namespace Draft

/-- A draft without connections. -/
def empty : Draft := ⟨[]⟩

/-- The lists with that of a connection changed.  A connection without a list gets one first, in
    its place. -/
def change (f : List Entry → List Entry) (conn : UInt32) :
    List (UInt32 × List Entry) → List (UInt32 × List Entry)
  | [] => [(conn, f [])]
  | l :: ls =>
    if conn < l.1 then (conn, f []) :: l :: ls
    else if conn = l.1 then (conn, f l.2) :: ls
    else l :: change f conn ls

/-- The draft with a list for a connection. -/
def register (d : Draft) (conn : UInt32) : Draft := ⟨change id conn d.lists⟩

/-- The draft with one more entry of a connection. -/
def push (d : Draft) (row : UInt32 × Entry) : Draft := ⟨change (row.2 :: ·) row.1 d.lists⟩

/-- Whether entries are in order of time. -/
def inOrder : List Entry → Bool
  | e :: f :: es => e.time ≤ f.time && inOrder (f :: es)
  | _ => true

/-- Entries in order of time, which are left alone if they are so already. -/
def settle (es : List Entry) : List Entry := if inOrder es then es else Entry.sort es

/-- The index of a draft. -/
def index (d : Draft) : Index :=
  ⟨(d.lists.map fun l => (l.1, settle l.2.reverse)).filter fun l => !l.2.isEmpty⟩

end Draft

/-- The index of a bag with certain connections, from entries in the order in which they are
    read. -/
def Index.build (conns : List UInt32) (rows : List (UInt32 × Entry)) : Index :=
  (rows.foldl Draft.push (conns.foldl Draft.register .empty)).index

end BagFile
