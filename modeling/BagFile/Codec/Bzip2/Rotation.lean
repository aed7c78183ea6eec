/-
  The block sort of bzip2: the rotations of a text, sorted; the last bytes of the rows are
  kept, and which row is the text itself.

  * `Rotation.encode` gives the last column and the row of the text;
  * `Rotation.decode` walks back: sorting the last column, with equal bytes in their order,
    gives the first column, and pairs each row with the row that is rotated by one byte more.
-/
import BagFile.Dense

namespace BagFile.Bzip2.Rotation

/-- The rotations of a text, sorted. -/
def rows (bs : Bytes) : List Bytes :=
  ((List.range bs.length).map fun i => bs.drop i ++ bs.take i).mergeSort fun a b => a ≤ b

/-- The last column of the sorted rotations, and the row in which the text stands. -/
def encode (bs : Bytes) : Bytes × Nat :=
  let rs := rows bs
  (rs.map fun r => r.getLastD 0, rs.idxOf bs)

/-- How often each byte occurs. -/
def counts (column : Dense) : Array Nat :=
  column.foldl (fun a b => a.modify b.toNat (· + 1)) (Array.replicate 256 0)

/-- The first row that starts with each byte. -/
def firstRows (column : Dense) : Array Nat :=
  ((counts column).foldl (fun (rows, n) count => (rows.push n, n + count)) (#[], 0)).1

/-- Links rows to `n` places of the column from `i` on: `next` are the first rows still to be
    linked, for each byte. -/
def linkFrom (column : Dense) (next links : Array Nat) (i : Nat) : Nat → Array Nat
  | 0 => links
  | n + 1 =>
    let b := (column.byteAt i).toNat
    let row := next.getD b 0
    linkFrom column (next.setIfInBounds b (row + 1)) (links.setIfInBounds row i) (i + 1) n

/-- For each row the place in the column of its first byte, which is also the row that is
    rotated by one byte more. -/
def links (column : Dense) : Array Nat :=
  linkFrom column (firstRows column) (Array.replicate column.size 0) 0 column.size

/-- Adds `n` first bytes, from that of a row on. -/
def walk (column : Dense) (links : Array Nat) (out : Dense) (row : Nat) : Nat → Dense
  | 0 => out
  | n + 1 =>
    let i := links.getD row 0
    walk column links (out.push (column.byteAt i)) i n

/-- The text whose sorted rotations have this last column, and which stands in this row. -/
def decode (column : Dense) (row : Nat) : Option Dense :=
  if row < column.size then some (walk column (links column) .empty row column.size) else none

end BagFile.Bzip2.Rotation
