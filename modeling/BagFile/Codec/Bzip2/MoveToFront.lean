/-
  Recency ranks: each symbol is replaced by its place in a list in which the symbols used
  last stand in front.

  * `MoveToFront.encode` gives the ranks of symbols, `MoveToFront.decode` goes back;
  * `MoveToFront.decodeRuns` does so for bytes whose ranks come in runs.
-/
import BagFile.Dense
import BagFile.Codec.Bzip2.ZeroRun

namespace BagFile.Bzip2.MoveToFront

/-- The ranks of symbols, given the list of symbols in order of last use. -/
def encode {α : Type} [DecidableEq α] : List α → List α → List Nat
  | _, [] => []
  | table, a :: as => table.idxOf a :: encode (a :: table.erase a) as

/-- Reads ranks on behind `done`, which is in reverse. -/
def decodeFrom {α : Type} (done : List α) : List α → List Nat → Option (List α)
  | _, [] => some done.reverse
  | table, i :: is =>
    match table[i]? with
    | some a => decodeFrom (a :: done) (a :: table.eraseIdx i) is
    | none => none

/-- The symbols of ranks; fails on a rank that no symbol has. -/
def decode {α : Type} (table : List α) (is : List Nat) : Option (List α) := decodeFrom [] table is

/-- Reads runs of ranks on behind `out`. -/
def decodeRunsFrom (out : Dense) : Bytes → List RankRun → Option Dense
  | _, [] => some out
  | table, .zeros count :: runs =>
    match table[0]? with
    | some b => decodeRunsFrom (out ++ .replicate count b) table runs
    | none => none
  | table, .single i :: runs =>
    match table[i]? with
    | some b => decodeRunsFrom (out.push b) (b :: table.eraseIdx i) runs
    | none => none

/-- The bytes of runs of ranks; fails on a rank that no byte has. -/
def decodeRuns (table : Bytes) (runs : List RankRun) : Option Dense :=
  decodeRunsFrom .empty table runs

end BagFile.Bzip2.MoveToFront
