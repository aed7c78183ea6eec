/-
  The tables in the data of index records and of chunk summaries: rows of fixed width.

  * A row of an index record is a point in time and the offset of a message in its chunk;
  * a row of a chunk summary is a connection and how many messages the chunk has of it;
  * `indexParts` and `countParts` are the parts of a row, which are written one by one;
    `indexRows` and `countRows` read rows back.
-/
import BagFile.Chunk
import BagFile.Index

namespace BagFile.Table

/-- The word at a position. -/
def wordAt (d : Dense) (pos : Nat) : UInt32 := UInt32.ofNat (d.natAt pos 4)

/-- The whole rows of a width, each read at its position. -/
def rows {α : Type} (width : Nat) (d : Dense) (row : Nat → α) : List α :=
  (List.range (d.size / width)).map fun i => row (width * i)

/-! ## Index records -/

/-- The width of a row of an index record. -/
def indexWidth : Nat := 12

/-- The parts of a row of an index record. -/
def indexParts (r : Time × UInt32) : List Dense := [r.1.encode, Word.encode r.2]

/-- The rows of an index record. -/
def indexRows (d : Dense) : List (Time × UInt32) :=
  rows indexWidth d fun pos => (⟨wordAt d pos, wordAt d (pos + 4)⟩, wordAt d (pos + 8))

/-! ## Chunk summaries -/

/-- The width of a row of a chunk summary. -/
def countWidth : Nat := 8

/-- The parts of a row of a chunk summary. -/
def countParts (n : ConnectionCount) : List Dense := [Word.encode n.conn, Word.encode n.count]

/-- The rows of a chunk summary. -/
def countRows (d : Dense) : List ConnectionCount :=
  rows countWidth d fun pos => ⟨wordAt d pos, wordAt d (pos + 4)⟩

end BagFile.Table
