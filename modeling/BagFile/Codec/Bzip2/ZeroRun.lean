/-
  The inner run-length code of bzip2, for runs of the rank zero.

  * The length of a run is written in the digits 1 and 2, least significant first, as the
    symbols 0 and 1; any other rank `i` is the symbol `i + 1`;
  * `ZeroRun.decode` gives the ranks as `RankRun`s, and stops at a limit to their number.
-/

namespace BagFile.Bzip2

/-- Ranks in a row: so many times the rank zero, or one other rank. -/
inductive RankRun where
  | zeros (count : Nat)
  | single (rank : Nat)
  deriving DecidableEq

namespace ZeroRun

/-- The symbols for a run of `n` zeros. -/
def digits (n : Nat) : List Nat :=
  if n = 0 then [] else (n - 1) % 2 :: digits ((n - 1) / 2)
termination_by n

/-- The symbols for ranks, after `zeros` zeros that are not yet written. -/
def encodeFrom : Nat → List Nat → List Nat
  | zeros, [] => digits zeros
  | zeros, 0 :: is => encodeFrom (zeros + 1) is
  | zeros, (i + 1) :: is => digits zeros ++ (i + 2) :: encodeFrom 0 is

/-- The symbols for ranks. -/
def encode (is : List Nat) : List Nat := encodeFrom 0 is

/-- The runs with so many zeros in front, if there are any. -/
def addZeros (count : Nat) (runs : List RankRun) : List RankRun :=
  if count = 0 then runs else .zeros count :: runs

/-- Reads symbols on behind `done`, which is in reverse and can take `room` more ranks.  The
    run in progress has `run` zeros, and its next digit counts for `weight` times its value. -/
def decodeFrom (done : List RankRun) (room run weight : Nat) : List Nat → Option (List RankRun)
  | [] => if room < run then none else some (addZeros run done).reverse
  | 0 :: ss => if room < run then none else decodeFrom done room (run + weight) (2 * weight) ss
  | 1 :: ss =>
    if room < run then none else decodeFrom done room (run + 2 * weight) (2 * weight) ss
  | (i + 2) :: ss =>
    if room < run + 1 then none
    else decodeFrom (.single (i + 1) :: addZeros run done) (room - run - 1) 0 1 ss

/-- The ranks of symbols, if there are no more than `limit`. -/
def decode (limit : Nat) (ss : List Nat) : Option (List RankRun) := decodeFrom [] limit 0 1 ss

end ZeroRun

end BagFile.Bzip2
